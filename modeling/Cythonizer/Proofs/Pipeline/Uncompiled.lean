import Cythonizer.Proofs.FileTree.Agreement
import Cythonizer.Proofs.Packaging.Repetition
import Cythonizer.Proofs.Pipeline.Optimization
import Cythonizer.Proofs.Pipeline.Stages
import Cythonizer.Proofs.Project.Exclusion

namespace Cythonizer.Proofs.Pipeline.Uncompiled

open Cythonizer.Compiler.Basic
open Cythonizer.Compiler.Command
open Cythonizer.Compiler.Tool (detectTool locate)
open Cythonizer.FileTree.Access
open Cythonizer.FileTree.Basic
open Cythonizer.Log.Basic
open Cythonizer.Pipeline.Context
open Cythonizer.Pipeline.Optimization
open Cythonizer.Problem.Basic
open Cythonizer.Project.Sources
open Cythonizer.Proofs.FileTree.Agreement
open Cythonizer.Proofs.FileTree.Destinations
open Cythonizer.Proofs.FileTree.Finding
open Cythonizer.Proofs.FileTree.Frames
open Cythonizer.Proofs.FileTree.Growth
open Cythonizer.Proofs.Packaging.Repetition
open Cythonizer.Proofs.Packaging.Rewriting
open Cythonizer.Proofs.Pipeline.Optimization
open Cythonizer.Proofs.Pipeline.Stages
open Cythonizer.Proofs.Project.Exclusion
open Cythonizer.Proofs.Project.Walk
open Cythonizer.Proofs.Workspace.Runs

variable {settings : Settings} {compiler : Compiler} {w start after : Workspace} {context : Context}
  {tree other : FileTree} {here output : Location} {source : Path} {emitted : String}
    {calls : List Call}

/-- Writing the text for a compiler beside a source changes nothing. -/
def IsSettled (tree : FileTree) (here : Location) (source : Path) (emitted : String) : Prop :=
  ∀ after, write tree here (intermediate source) emitted.toUTF8 = .ok after →
    Agrees (fun _ => false) tree after

theorem settled_of_write (hplain : IsPlain tree here) :
    IsSettled ((write tree here (intermediate source) emitted.toUTF8).toOption.getD tree) here
      source
      emitted := by
  cases hwrite : write tree here (intermediate source) emitted.toUTF8 with
  | error error =>
      intro after hafter
      change write tree here (intermediate source) emitted.toUTF8 = .ok after at hafter
      rw [hwrite] at hafter
      cases hafter
  | ok written =>
      have hwritten : Grows (fun _ => true) here tree written := grows_of_write hplain rfl hwrite
      intro after hafter
      change write written here (intermediate source) emitted.toUTF8 = .ok after at hafter
      obtain ⟨name, directory, hopens, rfl⟩ := exists_of_write hplain hwrite
      obtain ⟨name', directory', hopens', rfl⟩ := exists_of_write hwritten.plain hafter
      obtain ⟨rfl, rfl⟩ : name = name' ∧ directory = directory' := by
        have hsame := hopens.destination.symm.trans hopens'.destination
        exact List.cons.inj hsame
      have hnode := @node?_put tree (name :: directory)
        (.file emitted.toUTF8 (modeAt tree (name :: directory))) (by simp)
      refine (Agrees.refl _ _).put_file (by simp) hnode fun _ => ⟨rfl, ?_⟩
      rw [modeAt, hnode]

/-- What is settled stays so as long as the file stays that is written. -/
theorem settled_of_grows (hsettled : IsSettled tree here source emitted)
    (hplain : IsPlain tree here)
    (hsource : LeadsToSource tree here source) (hgrows : Grows (fun _ => true) here tree other)
    (hlocks : Locks tree other)
    (hkept : ∀ location, IsBeside tree here source location → ∀ content mode,
      tree.node? location = some (.file content mode) →
        other.node? location = some (.file content mode)) :
    IsSettled other here source emitted := by
  intro after hafter
  obtain ⟨front, stem, directory, content, mode, hends, hname, hstem, hfind⟩ :=
    hsource.ends hplain.noLinks
  have hfound := ((find_eq_ok_iff hplain.noLinks).mp hfind).2.2
  rw [hends.pieces] at hfound
  obtain ⟨directory, -, -, hdirectory, -⟩ := descend_file hfound
  obtain ⟨⟨place, old⟩, hopen⟩ := canOpen_beside hgrows hlocks hplain.noLinks hends
    (ends_intermediate hends hname hstem) hdirectory (canOpen_of_write hafter)
  obtain ⟨stem, directory, content, mode, hfind, rfl, -, -⟩ :=
    openForWriting_intermediate hplain.noLinks (.refl hplain.noLinks) hsource hopen
  obtain ⟨written, hwritten⟩ := exists_of_canOpen ⟨_, hopen⟩ emitted.toUTF8
  obtain ⟨name, directory', hopens, rfl⟩ := exists_of_write hplain hwritten
  obtain ⟨name', directory'', hopens', rfl⟩ := exists_of_write hgrows.plain hafter
  obtain ⟨rfl, rfl⟩ : name = name' ∧ directory' = directory'' :=
    List.cons.inj (hopens.destination.symm.trans hopens'.destination)
  have hplace : name :: directory' = (stem ++ ".pyx") :: directory := by
    obtain ⟨old, hopened, -⟩ := hopens.opened
    rw [hopen] at hopened
    cases hopened
    rfl
  have hnode := (hsettled _ hwritten).nodes (name :: directory') rfl
  rw [node?_put _ (by simp)] at hnode
  have hthere := hkept _ ⟨stem, directory, content, mode, hfind, hplace⟩ _ _ hnode.symm
  refine (Agrees.refl _ _).put_file (by simp) hthere fun _ => ⟨rfl, ?_⟩
  rw [modeAt, hthere]

theorem destination_of_isBeside {other : Path} {location : Location} (hlinks : HasNoLinks tree)
    (h : IsBeside tree here source location) (hother : IsBeside tree here other location) :
    destination here source = destination here other := by
  obtain ⟨stem, directory, content, mode, hfind, rfl⟩ := h
  obtain ⟨stem', directory', content', mode', hfind', hsame⟩ := hother
  rw [List.cons.injEq, String.append_left_inj] at hsame
  rw [← destination_of_find hlinks hfind, ← destination_of_find hlinks hfind', hsame.1, hsame.2]

section

variable (hlinks : HasNoLinks start.files) (hkept : Preserves start w)
  (hsource : LeadsToSource start.files start.here source)
include hlinks hkept hsource

theorem leadsToSource_of_preserves : LeadsToSource w.files start.here source := by
  obtain ⟨-, stem, directory, content, mode, -, -, hstem, hfind⟩ := hsource.ends hlinks
  exact ⟨hsource.1, _, _, _, find_of_kept hlinks hkept.kept (isIntermediate_source hstem) hfind⟩

theorem isBeside_of_preserves {location : Location}
    (h : IsBeside w.files start.here source location) :
    IsBeside start.files start.here source location := by
  obtain ⟨-, stem, directory, content, mode, -, -, hstem, hfind⟩ := hsource.ends hlinks
  obtain ⟨stem', directory', content', mode', hfind', rfl⟩ := h
  rw [find_of_kept hlinks hkept.kept (isIntermediate_source hstem) hfind,
    Except.ok.injEq, Prod.mk.injEq]
    at hfind'
  exact ⟨stem', directory', content, mode, hfind'.1 ▸ hfind, rfl⟩

end

theorem called_locks (hcompiler : WritesIntermediate compiler) (hplain : IsPlain w.files w.here) :
    Locks w.files (called compiler w source emitted).2.files := by
  rw [(hcompiler source emitted w).2]
  cases hwrite : write w.files w.here (intermediate source) emitted.toUTF8 with
  | error error => exact .refl _
  | ok written => exact locks_of_write hplain hwrite

section

variable (hcompiler : WritesIntermediate compiler) (hstart : IsPlain start.files start.here)
include hcompiler hstart

theorem called_grows (hkept : Preserves start w) (hplain : IsPlain w.files w.here)
    (hsource : LeadsToSource start.files start.here source) :
    Grows (isTouched output) w.here w.files (called compiler w source emitted).2.files := by
  obtain ⟨-, hfiles⟩ := hcompiler source emitted w
  rw [hfiles]
  cases hwrite : write w.files w.here (intermediate source) emitted.toUTF8 with
  | error error => exact .refl _ hplain
  | ok written =>
      refine grows_of_write hplain ?_ hwrite
      obtain ⟨name, directory, hopens, -⟩ := exists_of_write hplain hwrite
      obtain ⟨old, hopened, -⟩ := hopens.opened
      rw [hkept.here] at hopened
      obtain ⟨stem, directory', _, _, -, hplace, hintermediate, -⟩ :=
        openForWriting_intermediate hstart.noLinks hkept.kept hsource hopened
      rw [hopens.destination, hplace]
      exact Bool.or_eq_true_iff.mpr (.inl hintermediate)

theorem calls_settle (h : Calls compiler w calls after) (hkept : Preserves start w)
    (hplain : IsPlain w.files w.here)
    (hsources : ∀ call ∈ calls, LeadsToSource start.files start.here call.source)
    (hdistinct : calls.Pairwise fun a b => destination start.here a.source ≠
      destination start.here b.source) :
    Grows (isTouched output) start.here w.files after.files ∧ Locks w.files after.files ∧
      ∀ call ∈ calls, IsSettled after.files start.here call.source call.emitted := by
  induction h with
  | done w => exact ⟨.refl _ (hkept.here ▸ hplain), .refl _, by simp⟩
  | note entry rest ih => exact ih ⟨hkept.here, hkept.kept⟩ hplain hsources hdistinct
  | @call w after calls call ended rest ih =>
      obtain ⟨hsource, hrest⟩ := List.forall_mem_cons.mp hsources
      obtain ⟨hothers, hdistinct⟩ := List.pairwise_cons.mp hdistinct
      obtain ⟨hcalled, -⟩ := called_written hcompiler hstart.noLinks call hkept hsource
      have hgrown : Grows (isTouched output) w.here w.files
          (called compiler w call.source call.emitted).2.files :=
        called_grows hcompiler hstart hkept hplain hsource
      have hlocked : Locks w.files (called compiler w call.source call.emitted).2.files :=
        called_locks hcompiler hplain
      have hsettled := @settled_of_write w.files w.here call.source call.emitted hplain
      rw [← (hcompiler call.source call.emitted w).2] at hsettled
      rw [hkept.here] at hgrown hsettled
      generalize (called compiler w call.source call.emitted).2 = left at *
      have hleft : IsPlain left.files left.here := hcalled.here ▸ hgrown.plain
      obtain ⟨hafter, hlocks, hall⟩ := ih hcalled hleft hrest hdistinct
      obtain ⟨-, hwritten⟩ := rest.frame hcompiler hstart.noLinks hcalled hrest
      refine ⟨hgrown.trans hafter, hlocked.trans hlocks, List.forall_mem_cons.mpr ⟨?_, hall⟩⟩
      refine settled_of_grows hsettled hgrown.plain
        (leadsToSource_of_preserves hstart.noLinks hcalled hsource)
        (hafter.mono fun _ _ => rfl) hlocks fun location hbeside content mode hnode => ?_
      rcases hwritten location with hsame | ⟨other, hother, hbeside', -⟩
      · rw [hsame, hnode]
      · exact absurd (destination_of_isBeside hstart.noLinks
          (isBeside_of_preserves hstart.noLinks hcalled hsource hbeside) hbeside')
            (hothers other hother)

/-- Calls that write what is there already change nothing. -/
theorem calls_again (h : Calls compiler w calls after) (hkept : Preserves start w)
    (hplain : IsPlain w.files w.here)
    (hsources : ∀ call ∈ calls, LeadsToSource start.files start.here call.source)
    (hsettled : ∀ call ∈ calls, IsSettled w.files start.here call.source call.emitted) :
    Agrees (fun _ => false) w.files after.files := by
  induction h with
  | done w => exact .refl _ _
  | note entry rest ih => exact ih ⟨hkept.here, hkept.kept⟩ hplain hsources hsettled
  | @call w after calls call ended rest ih =>
      obtain ⟨hsource, hrest⟩ := List.forall_mem_cons.mp hsources
      obtain ⟨hfirst, hothers⟩ := List.forall_mem_cons.mp hsettled
      obtain ⟨hcalled, -⟩ := called_written hcompiler hstart.noLinks call hkept hsource
      have hgrown : Grows (isTouched []) w.here w.files
          (called compiler w call.source call.emitted).2.files :=
        called_grows hcompiler hstart hkept hplain hsource
      have hsame :
        Agrees (fun _ => false) w.files (called compiler w call.source call.emitted).2.files := by
        rw [(hcompiler call.source call.emitted w).2, hkept.here]
        cases hwrite : write w.files start.here (intermediate call.source) call.emitted.toUTF8 with
        | error error => exact .refl _ _
        | ok written => exact hfirst written hwrite
      generalize (called compiler w call.source call.emitted).2 = left at *
      have hleft : IsPlain left.files left.here := by
        rw [hcalled.here, ← hkept.here]
        exact hgrown.plain
      refine hsame.trans (ih hcalled hleft hrest fun other hother => ?_)
      rw [hkept.here] at hgrown
      refine settled_of_grows (hothers other hother) (hkept.here ▸ hplain)
        (leadsToSource_of_preserves hstart.noLinks hkept (hrest other hother))
        (hgrown.mono fun _ _ => rfl) (locks_of_same hsame) fun location _ content mode hnode => ?_
      rw [hsame.nodes location rfl, hnode]

end

theorem calls_failed
    (hfails : ∀ source emitted w, (called compiler w source emitted).1.isOk = false)
    (h : Calls compiler w calls after) : ∀ call ∈ calls, call.succeeded = false := by
  induction h with
  | done w => simp
  | note entry rest ih => exact ih
  | call call ended rest ih =>
      refine List.forall_mem_cons.mpr ⟨?_, ih⟩
      rw [← ended]
      exact hfails _ _ _

theorem called_isOk (c : CythonCompiler) (h : c.tool = none) (source : Path) (emitted : String)
    (w : Workspace) : (called c.toCompiler w source emitted).1.isOk = false := by
  unfold called CythonCompiler.toCompiler
  dsimp only
  unfold CythonCompiler.compile
  dsimp only
  rw [h, attempted_bind, attempted_onPath, attempted_writeText]
  cases write w.files w.here (intermediate source) emitted.toUTF8 <;> rfl

theorem acted_chosen (hnone : locate w { text := settings.compiler.program } = none) :
    ∃ (c : CythonCompiler) (entry : Entry), c.tool = none ∧
      acted (chosen settings none) w = (c.toCompiler, noted entry w) := by
  have hdetect : ∃ headers entry, acted (detect settings.compiler) w =
      ({ settings := settings.compiler, tool := none, headers }, noted entry w) := by
    unfold detect
    rw [acted_bind, detectTool, acted_bind, acted_get]
    dsimp only
    rw [hnone]
    dsimp only
    rw [acted_pure, acted_bind, acted_info, acted_bind]
    unfold findHeaders
    cases settings.compiler.numpyInclude <;> exact ⟨_, _, rfl⟩
  obtain ⟨headers, entry, hdetect⟩ := hdetect
  exact ⟨{ settings := settings.compiler, tool := none, headers }, entry, rfl, by
    rw [chosen, acted_bind, hdetect]
    rfl⟩

theorem tells_of_noted {outcome : Outcome} {entry : Entry}
    (h : Tells settings (noted entry w) outcome) :
    Tells settings w outcome := by
  cases h with
  | skipped h => exact .skipped h
  | optimized compiled h => exact .optimized compiled h

theorem isolates_of_noted {entries : List (Except Failure Path)}
    {outcomes : List Outcome} {entry : Entry}
    (h : Isolates settings compiler (noted entry w) entries outcomes after) :
    Isolates settings compiler w entries outcomes after where
  sources := h.sources
  told := fun outcome houtcome => tells_of_noted (h.told outcome houtcome)
  calls := .note entry h.calls
  written := h.written

theorem exists_isolated (hplain : IsPlain w.files w.here)
    (hnone : locate w { text := settings.compiler.program } = none) (context : Context) :
    ∃ (c : CythonCompiler) (outcomes : List Outcome) (metadata : List (String × Json.Value.Value))
      (changed : Workspace), c.tool = none ∧
      attempted ((optimization settings none).execute context) w =
        (.ok { context with
          outcomes := context.outcomes ++ outcomes
          counts := context.counts + total outcomes
          metadata }, changed) ∧
      Isolates settings c.toCompiler w (walk settings context w) outcomes changed ∧
        Preserves w changed ∧
      ∀ outcome ∈ outcomes, outcome.isCompiled = false := by
  change ∃ (c : CythonCompiler) (outcomes : List Outcome)
    (metadata : List (String × Json.Value.Value))
    (changed : Workspace), c.tool = none ∧
      attempted (ExceptT.lift (optimize settings none context)) w = _ ∧ _
  rw [attempted_lift, optimize_eq, acted_bind, acted_info, acted_bind]
  dsimp only
  generalize
    ({ level := .info, message := "Optimizing Python sources in " ++ context.input.shown } :
      Entry) = first
  obtain ⟨c, entry, htool, hchosen⟩ := @acted_chosen settings (noted first w) hnone
  rw [hchosen]
  dsimp only
  have hsources : ∀ source, .ok source ∈ walk settings context (noted entry (noted first w)) →
      LeadsToSource w.files w.here source :=
    fun source hmem => leadsToSource_of_mem hplain.wellFormed hmem
  obtain ⟨outcomes, changed, hrun, hisolates, hkept⟩ :=
    @exists_isolates settings c.toCompiler (noted entry (noted first w)) _ _
      (writesIntermediate_of_tool_none c htool) hplain.noLinks _ hsources context 0
  obtain ⟨metadata, last, hwith⟩ := acted_optimizeWith hrun
  rw [hwith]
  refine ⟨c, outcomes, metadata, noted last changed, htool, rfl,
    (isolates_of_noted hisolates).noted first last, ⟨hkept.here, hkept.kept⟩, ?_⟩
  · intro outcome houtcome
    cases outcome with
    | skipped source reason => rfl
    | optimized source emitted compiled counts =>
        exact calls_failed (called_isOk c htool) hisolates.calls
          { source, emitted, succeeded := compiled } (List.mem_filterMap.mpr ⟨_, houtcome, rfl⟩)

/-- Outcomes of the same sources with the same texts are the same where nothing is compiled. -/
theorem outcomes_eq {outcomes outcomes' : List Outcome} {w' : Workspace}
    (hsources : outcomes'.map Outcome.source = outcomes.map Outcome.source)
    (htold : ∀ outcome ∈ outcomes, Tells settings w outcome ∧ outcome.isCompiled = false)
    (htold' : ∀ outcome ∈ outcomes', Tells settings w' outcome ∧ outcome.isCompiled = false)
    (hsame : ∀ outcome ∈ outcomes, transformed settings w' outcome.source =
      transformed settings w outcome.source) :
    outcomes' = outcomes := by
  induction outcomes generalizing outcomes' with
  | nil => simpa using hsources
  | cons outcome rest ih =>
      cases outcomes' with
      | nil => cases hsources
      | cons outcome' rest' =>
          rw [List.map_cons, List.map_cons, List.cons.injEq] at hsources
          obtain ⟨⟨hfirst, hcompiled⟩, hrest⟩ := List.forall_mem_cons.mp htold
          obtain ⟨⟨hfirst', hcompiled'⟩, hrest'⟩ := List.forall_mem_cons.mp htold'
          obtain ⟨heq, hothers⟩ := List.forall_mem_cons.mp hsame
          rw [ih hsources.2 hrest hrest' hothers]
          congr 1
          obtain ⟨hsource, -⟩ := hsources
          cases hfirst with
          | skipped h =>
              cases hfirst' with
              | skipped h' =>
                  dsimp only [Outcome.source] at hsource heq
                  subst hsource
                  rw [heq, h] at h'
                  cases h'
                  rfl
              | optimized compiled' h' =>
                  dsimp only [Outcome.source] at hsource heq
                  subst hsource
                  rw [heq, h] at h'
                  cases h'
          | optimized compiled h =>
              cases hfirst' with
              | skipped h' =>
                  dsimp only [Outcome.source] at hsource heq
                  subst hsource
                  rw [heq, h] at h'
                  cases h'
              | optimized compiled' h' =>
                  dsimp only [Outcome.source] at hsource heq
                  dsimp only [Outcome.isCompiled] at hcompiled hcompiled'
                  subst hsource hcompiled hcompiled'
                  rw [heq, h] at h'
                  cases h'
                  rfl

/-- What becomes of a project and of the files where no compiler is found. -/
structure Converts (settings : Settings) (project output : Path) (w : Workspace)
    (outcomes : List Outcome)
    (middle : Workspace) : Prop where
  sources : outcomes.map Outcome.source =
    (walk settings { input := project, output } w).filterMap Except.toOption
  told : ∀ outcome ∈ outcomes, Tells settings w outcome ∧ outcome.isCompiled = false
  here : middle.here = w.here
  grows : Grows (isTouched (destination w.here output)) w.here w.files middle.files
  locks : Locks w.files middle.files
  settled :
    ∀ call ∈ outcomes.filterMap call?, IsSettled middle.files w.here call.source call.emitted
  again : (∀ call ∈ outcomes.filterMap call?, IsSettled w.files w.here call.source call.emitted) →
    Agrees (fun _ => false) w.files middle.files

theorem exists_converts {project : Path} (output : Path) (hplain : IsPlain w.files w.here)
    (hproject : isDirectory w.files w.here project = true)
    (hnone : locate w { text := settings.compiler.program } = none) :
    ∃ outcomes metadata middle,
      attempted ((optimization settings none).execute { input := project, output }) w =
        (.ok { input := project, output, outcomes, counts := {} + total outcomes, metadata },
          middle) ∧
      Converts settings project output w outcomes middle := by
  obtain ⟨c, outcomes, metadata, middle, htool, hrun, hisolates, hkept, hcompiled⟩ :=
    @exists_isolated settings w hplain hnone { input := project, output }
  obtain ⟨base, hbase⟩ := exists_of_isDirectory hproject
  have hcompiler := writesIntermediate_of_tool_none c htool
  have hwalked := hisolates.sources.trans (walk_of_directory settings hbase)
  have hmade : ∀ call ∈ outcomes.filterMap call?, LeadsToSource w.files w.here call.source := by
    intro call hcall
    obtain ⟨outcome, houtcome, hsome⟩ := List.mem_filterMap.mp hcall
    rw [source_of_mem_call? (show call ∈ (call? outcome).toList by simp [hsome])]
    exact leadsToSource_of_walk hplain hisolates.sources houtcome
  have hdistinct : (outcomes.filterMap call?).Pairwise fun a b =>
      destination w.here a.source ≠ destination w.here b.source := by
    have hpairwise : (outcomes.map Outcome.source).Pairwise fun a b =>
        destination w.here a ≠ destination w.here b := by
      rw [hwalked]
      exact pairwise_destinations hplain hbase
    refine List.Pairwise.filterMap _ ?_ (List.pairwise_map.mp hpairwise)
    intro a b hne call hcall call' hcall'
    rw [source_of_mem_call? (show call ∈ (call? a).toList by simpa using hcall),
      source_of_mem_call? (show call' ∈ (call? b).toList by simpa using hcall')]
    exact hne
  have hself : Preserves w w := ⟨rfl, .refl hplain.noLinks⟩
  obtain ⟨hgrows, hlocks, hsettled⟩ :=
    calls_settle hcompiler hplain hisolates.calls hself hplain hmade hdistinct
  exact ⟨outcomes, metadata, middle, hrun, hisolates.sources,
    fun outcome houtcome => ⟨hisolates.told outcome houtcome, hcompiled outcome houtcome⟩,
      hkept.here, hgrows,
    hlocks, hsettled, calls_again hcompiler hplain hisolates.calls hself hplain hmade⟩

end Cythonizer.Proofs.Pipeline.Uncompiled
