import Cythonizer.Pipeline.Optimization
import Cythonizer.Proofs.Outline.Counting
import Cythonizer.Proofs.Project.Walk
import Cythonizer.Proofs.Workspace.Runs

/-!
The optimization of a project, one file after another. What is done for a file is told by the tree
at the start alone (`Tells`), and between log entries there is one call of the compiler for every
optimized file (`Calls`); all that changes are the files that these calls write (`Calls.frame`).
-/

namespace Cythonizer.Proofs.Pipeline.Optimization

open Cythonizer.Compiler.Basic
open Cythonizer.Compiler.Command
open Cythonizer.Compiler.Program (Tools)
open Cythonizer.FileTree.Access
open Cythonizer.FileTree.Basic
open Cythonizer.Log.Basic
open Cythonizer.Outline.Conversion
open Cythonizer.Path.Basic
open Cythonizer.Pipeline.Context
open Cythonizer.Pipeline.Optimization
open Cythonizer.Problem.Basic
open Cythonizer.Project.Sources
open Cythonizer.Source.Fault
open Cythonizer.Workspace.Basic
open Cythonizer.Proofs.FileTree.Frames
open Cythonizer.Proofs.Project.Walk
open Cythonizer.Proofs.Workspace.Runs

variable {settings : Settings} {compiler : Compiler} {w start after : Workspace}

/-- How a call of a compiler ends, and what it leaves behind. -/
def called (compiler : Compiler) (w : Workspace) (source : Path) (emitted : String) :
    Except Problem Path × Workspace :=
  attempted (compiler.compile source emitted) w

/-- A compiler that writes the intermediate file, where one can be written, and no other. How a call
of it ends is left open. -/
def WritesIntermediate (compiler : Compiler) : Prop :=
  ∀ source emitted w,
    (called compiler w source emitted).2.here = w.here ∧
      (called compiler w source emitted).2.files =
        (write w.files w.here (intermediate source) emitted.toUTF8).toOption.getD w.files

theorem writesIntermediate_of_tool_none [Encoding] [Tools] (compiler : CythonCompiler)
    (h : compiler.tool = none) :
    WritesIntermediate compiler.toCompiler := by
  intro source emitted w
  unfold called CythonCompiler.toCompiler
  dsimp only
  unfold CythonCompiler.compile
  dsimp only
  rw [h, attempted_bind, attempted_onPath, attempted_writeText]
  cases write w.files w.here (intermediate source) emitted.toUTF8 with
  | error error => exact ⟨rfl, rfl⟩
  | ok files => exact ⟨rfl, rfl⟩

/-- A call of a compiler: its source, the text it got, and whether it ended well. -/
structure Call where
  source : Path
  emitted : String
  succeeded : Bool

/-- From one workspace to another by log entries and calls of a compiler. -/
inductive Calls (compiler : Compiler) : Workspace → List Call → Workspace → Prop
  | done (w : Workspace) : Calls compiler w [] w
  | note {w after : Workspace} {calls : List Call} (entry : Entry)
      (rest : Calls compiler (noted entry w) calls after) :
      Calls compiler w calls after
  | call {w after : Workspace} {calls : List Call} (call : Call)
      (ended : (called compiler w call.source call.emitted).1.isOk = call.succeeded)
      (rest : Calls compiler (called compiler w call.source call.emitted).2 calls after) :
      Calls compiler w (call :: calls) after

theorem Calls.append {between : Workspace} {a b : List Call} (h : Calls compiler w a between)
    (hrest : Calls compiler between b after) : Calls compiler w (a ++ b) after := by
  induction h with
  | done w => exact hrest
  | note entry rest ih => exact .note entry (ih hrest)
  | call call ended rest ih => exact .call call ended (ih hrest)

/-- The call that an outcome tells of. -/
def call? : Outcome → Option Call
  | .optimized source emitted compiled _ => some { source, emitted, succeeded := compiled }
  | .skipped _ _ => none

/-- The location of the file that a compiler writes for a source. -/
def IsBeside (tree : FileTree) (here : Location) (source : Path) (location : Location) : Prop :=
  ∃ stem directory content mode,
    find tree here source = .ok ((stem ++ ".py") :: directory, .file content mode) ∧
      location = (stem ++ ".pyx") :: directory

/-- A workspace in which the sources are what they were at the start. -/
structure Preserves (start w : Workspace) : Prop where
  here : w.here = start.here
  kept : Kept isIntermediate start.files w.files

/-- What the files are after some calls: each is as before or what one of the calls has written. -/
def Written (start w : Workspace) (calls : List Call) (after : Workspace) : Prop :=
  ∀ location, after.files.node? location = w.files.node? location ∨
    ∃ call ∈ calls, IsBeside start.files start.here call.source location ∧
      ∃ mode, after.files.node? location = some (.file call.emitted.toUTF8 mode)

section

variable (hcompiler : WritesIntermediate compiler) (hlinks : HasNoLinks start.files)
include hcompiler hlinks

theorem called_written (call : Call) (hkept : Preserves start w)
    (hsource : LeadsToSource start.files start.here call.source) :
    Preserves start (called compiler w call.source call.emitted).2 ∧
      Written start w [call] (called compiler w call.source call.emitted).2 := by
  obtain ⟨hhere, hfiles⟩ := hcompiler call.source call.emitted w
  generalize (called compiler w call.source call.emitted).2 = left at hhere hfiles
  rw [write] at hfiles
  cases hopen : openForWriting w.files w.here (intermediate call.source) with
  | error error =>
      rw [hopen] at hfiles
      change left.files = w.files at hfiles
      exact ⟨⟨hhere.trans hkept.here, hfiles ▸ hkept.kept⟩, fun location => .inl (by rw [hfiles])⟩
  | ok opened =>
      obtain ⟨place, old⟩ := opened
      rw [hopen] at hfiles
      change left.files = w.files.put place _ at hfiles
      rw [hkept.here] at hopen
      obtain ⟨stem, directory, content, mode, hfind, rfl, hname, hfree⟩ :=
        openForWriting_intermediate hlinks hkept.kept hsource hopen
      refine ⟨⟨hhere.trans hkept.here, hfiles ▸ hkept.kept.put hname hfree⟩, ?_⟩
      intro location
      by_cases hplace : location = (stem ++ ".pyx") :: directory
      · refine .inr ⟨call, List.mem_singleton_self call,
          ⟨stem, directory, content, mode, hfind, hplace⟩, ?_, ?_⟩
        · exact (old.map Prod.snd).getD false
        · rw [hfiles, hplace]
          exact node?_put _ (by simp)
      · exact .inl (by rw [hfiles, node?_put_of_ne _ hplace])

theorem Calls.frame {calls : List Call} (h : Calls compiler w calls after)
    (hkept : Preserves start w)
    (hsources : ∀ call ∈ calls, LeadsToSource start.files start.here call.source) :
    Preserves start after ∧ Written start w calls after := by
  induction h with
  | done w => exact ⟨hkept, fun location => .inl rfl⟩
  | note entry rest ih => exact ih ⟨hkept.here, hkept.kept⟩ hsources
  | call call ended rest ih =>
      obtain ⟨hcalled, hwritten⟩ :=
        called_written hcompiler hlinks call hkept (hsources call List.mem_cons_self)
      obtain ⟨hafter, hrest⟩ :=
        ih hcalled fun other hother => hsources other (List.mem_cons_of_mem call hother)
      refine ⟨hafter, fun location => ?_⟩
      rcases hrest location with hsame | ⟨other, hother, hbeside⟩
      · rcases hwritten location with hfirst | ⟨first, hfirst, hbeside, hnode⟩
        · exact .inl (hsame.trans hfirst)
        · obtain rfl := List.mem_singleton.mp hfirst
          exact .inr ⟨first, List.mem_cons_self, hbeside, hsame ▸ hnode⟩
      · exact .inr ⟨other, List.mem_cons_of_mem call hother, hbeside⟩

end

theorem source_of_mem_call? {outcome : Outcome} {call : Call} (h : call ∈ (call? outcome).toList) :
    call.source = outcome.source := by
  cases outcome with
  | optimized source emitted compiled counts => 
      rw [call?, Option.toList_some, List.mem_singleton] at h
      rw [h]
      rfl
  | skipped source reason => cases h

theorem Calls.keeps {I : Workspace → Prop} {calls : List Call} (h : Calls compiler w calls after)
    (hnoted : ∀ entry u, I u → I (noted entry u))
    (hcalled : ∀ call ∈ calls, ∀ u, I u → I (called compiler u call.source call.emitted).2)
    (hw : I w) :
    I after := by
  induction h with
  | done w => exact hw
  | note entry rest ih => exact ih hcalled (hnoted entry _ hw)
  | call call ended rest ih =>
      exact ih (fun other hother => hcalled other (List.mem_cons_of_mem call hother))
        (hcalled call List.mem_cons_self _ hw)

/-- The counts of all outcomes together. -/
def total (outcomes : List Outcome) : Counts :=
  outcomes.foldr (fun outcome sum => outcome.counts + sum) {}

theorem foldl_record (outcomes : List Outcome) (context : Context) :
    outcomes.foldl Context.record context =
      { context with
        outcomes := context.outcomes ++ outcomes
        counts := context.counts + total outcomes } := by
  induction outcomes generalizing context with
  | nil =>
      have hcounts : context.counts + {} = context.counts := add_zero context.counts
      rw [List.foldl_nil, total, List.foldr_nil, hcounts, List.append_nil]
  | cons outcome rest ih =>
      rw [List.foldl_cons, ih, Context.record, total, total, List.foldr_cons]
      dsimp only
      rw [add_assoc, List.append_assoc, List.singleton_append]

theorem lookup_putMetadata (name : String) (value : Json.Value.Value)
    (metadata : List (String × Json.Value.Value)) :
    (putMetadata name value metadata).lookup name = some value := by
  induction metadata with
  | nil => rw [putMetadata, List.lookup_cons_self]
  | cons entry rest ih =>
      obtain ⟨n, v⟩ := entry
      rw [putMetadata]
      split
      · rw [List.lookup_cons_self]
      · rename_i hn
        rw [List.lookup_cons, show (name == n) = false by simpa using Ne.symm hn]
        exact ih

theorem lookup_putMetadata_of_ne {name other : String} (value : Json.Value.Value)
    (metadata : List (String × Json.Value.Value)) (h : other ≠ name) :
    (putMetadata name value metadata).lookup other = metadata.lookup other := by
  have hname : (other == name) = false := by simpa using h
  induction metadata with
  | nil => rw [putMetadata, List.lookup_cons, hname]
  | cons entry rest ih =>
      obtain ⟨n, v⟩ := entry
      rw [putMetadata]
      split
      · rename_i hn
        subst hn
        rw [List.lookup_cons, List.lookup_cons, hname]
      · rw [List.lookup_cons, List.lookup_cons, ih]

theorem verdict_passed_iff (context : Context) :
    (verdict context).passed = true ↔ ∀ outcome ∈ context.outcomes, outcome.isOptimized = true := by
  rw [verdict, List.isEmpty_iff, List.filterMap_eq_nil_iff]
  refine forall₂_congr fun outcome _ => ?_
  cases outcome with
  | optimized source emitted compiled counts => exact iff_of_true rfl rfl
  | skipped source reason =>
    exact iff_of_false (by simp [skippedValue?]) (by simp [Outcome.isOptimized])

theorem isTold_of_isOptimized [Encoding] {outcome : Outcome} (h : outcome.isOptimized = true) :
    isTold outcome = true := by
  cases outcome with
  | optimized source emitted compiled counts => rfl
  | skipped source reason => cases h

theorem validated_of_told [Encoding] {context : Context}
    (h : ∀ outcome ∈ context.outcomes, isTold outcome = true) :
      validated context = .ok (verdict context) :=
  if_pos (List.all_eq_true.mpr h)

theorem isTold_textual (outcome : Outcome) : isTold outcome = true := by
  cases outcome with
  | optimized source emitted compiled counts => rfl
  | skipped source reason => exact source.isProper_textual

theorem validated_textual (context : Context) : validated context = .ok (verdict context) :=
  validated_of_told fun outcome _ => isTold_textual outcome

theorem validated_passes_iff [Encoding] (context : Context) :
    (∃ verdict, validated context = .ok verdict ∧ verdict.passed = true) ↔
      ∀ outcome ∈ context.outcomes, outcome.isOptimized = true := by
  rw [validated]
  constructor
  · rintro ⟨given, hgiven, hpassed⟩
    split at hgiven
    · cases hgiven
      exact (verdict_passed_iff context).mp hpassed
    · cases hgiven
  · intro hall
    refine ⟨verdict context, validated_of_told ?_, (verdict_passed_iff context).mpr hall⟩
    exact fun outcome hmem => isTold_of_isOptimized (hall outcome hmem)

theorem length_sub_skipped (outcomes : List Outcome) :
    outcomes.length - (outcomes.filterMap skippedValue?).length =
      outcomes.countP Outcome.isOptimized := by
  have hsum : (outcomes.filterMap skippedValue?).length + outcomes.countP Outcome.isOptimized =
      outcomes.length := by
    induction outcomes with
    | nil => rfl
    | cons outcome rest ih =>
        cases outcome with
        | optimized source emitted compiled counts => 
            rw [List.filterMap_cons_none rfl, List.countP_cons_of_pos rfl, List.length_cons]
            omega
        | skipped source reason => 
            have hskipped :
              ((Outcome.skipped source reason :: rest).filterMap skippedValue?).length =
                (rest.filterMap skippedValue?).length + 1 := rfl
            rw [hskipped, List.countP_cons_of_neg (by simp [Outcome.isOptimized]), List.length_cons]
            omega
  omega

theorem walk_noted [Encoding] (settings : Settings) (context : Context) (entry : Entry)
    (w : Workspace) :
    walk settings context (noted entry w) = walk settings context w :=
  rfl

section

variable [Locator]

/-- What becomes of a source, unless it cannot be read or converted. -/
def transformed (settings : Settings) (w : Workspace) (source : Path) :
    Except Problem (String × Counts) :=
  match readText w.files w.here source with
  | .ok text => transform settings.conversion settings.compiler source text
  | .error error => .error (.file source error)

theorem attempted_transformFile (source : Path) :
    attempted (transformFile settings source) w = (transformed settings w source, w) := by
  unfold transformFile transformed
  rw [attempted_bind, attempted_onPath, attempted_readText]
  cases FileTree.Access.readText w.files w.here source with
  | error error => rfl
  | ok text =>
      dsimp only [Except.mapError]
      cases transform settings.conversion settings.compiler source text with
      | error problem => rfl
      | ok result => rfl

variable [Encoding]

/-- An outcome that tells what becomes of its source. -/
inductive Tells (settings : Settings) (w : Workspace) : Outcome → Prop
  | skipped {source : Path} {problem : Problem}
    (h : transformed settings w source = .error problem) :
      Tells settings w (.skipped source problem.message)
  | optimized {source : Path} {emitted : String} {counts : Counts} (compiled : Bool)
      (h : transformed settings w source = .ok (emitted, counts)) :
      Tells settings w (.optimized source emitted compiled counts)

theorem acted_optimizeFile (source : Path) :
    ∃ outcome after, acted (optimizeFile settings compiler source) w = (outcome, after) ∧
      outcome.source = source ∧ Tells settings w outcome ∧
      Calls compiler w (call? outcome).toList after := by
  unfold optimizeFile
  rw [acted_bind, acted_info, acted_bind, acted_run, attempted_transformFile]
  have hlog :
    transformed settings
      (noted { level := .info, message := "Processing file: " ++ source.shown } w)
      source = transformed settings w source := rfl
  rw [hlog]
  cases htold : transformed settings w source with
  | error problem =>
      refine ⟨.skipped source problem.message, _, rfl, rfl, .skipped htold, ?_⟩
      exact .note _ (.note _ (.done _))
  | ok result =>
      obtain ⟨emitted, counts⟩ := result
      dsimp only
      rw [acted_bind, acted_debug, acted_bind, acted_run]
      dsimp only
      generalize hlogged : noted _ (noted _ w) = u
      have hcall : ∀ compiled entry, (called compiler u source emitted).1.isOk = compiled →
          Calls compiler w [{ source, emitted, succeeded := compiled }]
            (noted entry (called compiler u source emitted).2) := by
        intro compiled entry hended
        have hfrom : Calls compiler u [{ source, emitted, succeeded := compiled }]
            (noted entry (called compiler u source emitted).2) :=
          .call _ hended (.note entry (.done _))
        rw [← hlogged] at hfrom ⊢
        exact .note _ (.note _ hfrom)
      unfold called at hcall
      cases hended : (attempted (compiler.compile source emitted) u).1 with
      | ok file =>
          refine ⟨.optimized source emitted true counts, _, rfl, rfl, .optimized true htold, ?_⟩
          exact hcall true _ (by rw [hended]; rfl)
      | error problem =>
          refine ⟨.optimized source emitted false counts, _, rfl, rfl, .optimized false htold, ?_⟩
          exact hcall false _ (by rw [hended]; rfl)

theorem Tells.at_start {outcome : Outcome} (h : Tells settings w outcome)
    (hlinks : HasNoLinks start.files) (hkept : Preserves start w)
    (hsource : LeadsToSource start.files start.here outcome.source) :
      Tells settings start outcome := by
  have hsame : transformed settings w outcome.source =
    transformed settings start outcome.source := by
    rw [transformed, transformed, hkept.here, readText_of_kept hlinks hkept.kept hsource]
  cases h with
  | skipped h => exact .skipped (hsame.symm.trans h)
  | optimized compiled h => exact .optimized compiled (hsame.symm.trans h)

/-- Optimizing files one after another goes through all of them, whatever becomes of each. What log
entries and calls of the compiler keep holds whenever it is told what becomes of a file, and at the
end. -/
theorem acted_optimizeAll_of_kept {I : Workspace → Prop}
    (hnoted : ∀ entry u, I u → I (noted entry u))
    (entries : List (Except Failure Path))
    (hcalled : ∀ source emitted u, .ok source ∈ entries → I u →
      I (called compiler u source emitted).2)
    (context : Context) (errors : Nat) (hw : I w) :
    ∃ (outcomes : List Outcome) (after : Workspace),
      acted (optimizeAll settings compiler entries context errors) w =
        ((outcomes.foldl Context.record context, errors + entries.countP (!·.isOk)), after) ∧
      outcomes.map Outcome.source = entries.filterMap Except.toOption ∧
      (∀ outcome ∈ outcomes, ∃ u, I u ∧ Tells settings u outcome) ∧
      Calls compiler w (outcomes.filterMap call?) after ∧ I after := by
  induction entries generalizing context errors w with
  | nil => exact ⟨[], w, rfl, rfl, by simp, .done w, hw⟩
  | cons entry rest ih =>
      have hrest : ∀ source emitted u, .ok source ∈ rest → I u →
        I (called compiler u source emitted).2 :=
        fun source emitted u hmem => hcalled source emitted u (List.mem_cons_of_mem entry hmem)
      cases entry with
      | error failure =>
          obtain ⟨outcomes, after, hrun, hmap, htells, hcalls, hafter⟩ :=
            ih hrest context (errors + 1) (w := noted
              { level := .error, message := "Skipping unreadable directory entry",
                cause := some failure } w) (hnoted _ _ hw)
          refine ⟨outcomes, after, ?_, hmap, htells, .note _ hcalls, hafter⟩
          rw [optimizeAll, acted_bind, acted_report, hrun, List.countP_cons_of_pos (by rfl)]
          congr 2
          omega
      | ok source =>
          obtain ⟨outcome, between, hfile, rfl, htold, hcall⟩ :=
            @acted_optimizeFile settings compiler w _ _ source
          have hbetween : I between := hcall.keeps hnoted (fun call hmem u hu => hcalled _ _ u
            (source_of_mem_call? hmem ▸ List.mem_cons_self) hu) hw
          obtain ⟨outcomes, after, hrun, hmap, htells, hcalls, hafter⟩ :=
            ih hrest (context.record outcome) errors hbetween
          refine ⟨outcome :: outcomes, after, ?_, ?_, ?_, ?_, hafter⟩
          · rw [optimizeAll, acted_bind, hfile, hrun, List.countP_cons_of_neg
              (by simp [Except.isOk, Except.toBool])]
            rfl
          · rw [List.map_cons, hmap]
            rfl
          · intro other hother
            rcases List.mem_cons.mp hother with rfl | hother
            · exact ⟨w, hw, htold⟩
            · exact htells other hother
          · have hfirst : (outcome :: outcomes).filterMap call? =
                (call? outcome).toList ++ outcomes.filterMap call? := by
              cases outcome with
              | optimized source emitted compiled counts => rfl
              | skipped source reason => rfl
            rw [hfirst]
            exact hcall.append hcalls

/-- With a compiler that writes intermediate files only, what becomes of every file is told by the
tree at the start. -/
theorem acted_optimizeAll (hcompiler : WritesIntermediate compiler)
    (hlinks : HasNoLinks start.files)
    (entries : List (Except Failure Path))
    (hsources : ∀ source, .ok source ∈ entries → LeadsToSource start.files start.here source)
    (context : Context) (errors : Nat) (hkept : Preserves start w) :
    ∃ (outcomes : List Outcome) (after : Workspace),
      acted (optimizeAll settings compiler entries context errors) w =
        ((outcomes.foldl Context.record context, errors + entries.countP (!·.isOk)), after) ∧
      outcomes.map Outcome.source = entries.filterMap Except.toOption ∧
      (∀ outcome ∈ outcomes, Tells settings start outcome) ∧
      Calls compiler w (outcomes.filterMap call?) after := by
  obtain ⟨outcomes, after, hrun, hmap, htells, hcalls, -⟩ :=
    @acted_optimizeAll_of_kept settings compiler w _ _ (Preserves start)
      (fun entry u (hu : Preserves start u) =>
      ⟨hu.here, hu.kept⟩) entries (fun source emitted u hmem hu =>
        (called_written hcompiler hlinks { source, emitted, succeeded := true } hu
          (hsources source hmem)).1)
      context errors hkept
  refine ⟨outcomes, after, hrun, hmap, fun outcome houtcome => ?_, hcalls⟩
  obtain ⟨u, hu, htold⟩ := htells outcome houtcome
  refine htold.at_start hlinks hu ?_
  have hmem : outcome.source ∈ entries.filterMap Except.toOption :=
    hmap ▸ List.mem_map_of_mem houtcome
  obtain ⟨entry, hentry, hok⟩ := List.mem_filterMap.mp hmem
  cases entry with
  | error failure => cases hok
  | ok source =>
      cases hok
      exact hsources _ hentry

/-- What is done for the results of a walk: one outcome for every source, in their order, and one
call of the compiler for every optimized one. -/
structure Isolates (settings : Settings) (compiler : Compiler) (w : Workspace)
    (entries : List (Except Failure Path)) (outcomes : List Outcome) (changed : Workspace) :
      Prop where
  sources : outcomes.map Outcome.source = entries.filterMap Except.toOption
  told : ∀ outcome ∈ outcomes, Tells settings w outcome
  calls : Calls compiler w (outcomes.filterMap call?) changed
  written : Written w w (outcomes.filterMap call?) changed

theorem Isolates.noted {entries : List (Except Failure Path)} {outcomes : List Outcome}
    {changed : Workspace} (first last : Entry)
    (h : Isolates settings compiler (noted first w) entries outcomes changed) :
    Isolates settings compiler w entries outcomes (noted last changed) where
  sources := h.sources
  told := by
    intro outcome houtcome
    cases h.told outcome houtcome with
    | skipped h => exact .skipped h
    | optimized compiled h => exact .optimized compiled h
  calls := by
    have hcalls := (Calls.note first h.calls).append (.note last (.done _))
    rwa [List.append_nil] at hcalls
  written := h.written

section

variable (hcompiler : WritesIntermediate compiler) (hlinks : HasNoLinks w.files)
include hcompiler hlinks

theorem exists_isolates (entries : List (Except Failure Path))
    (hsources : ∀ source, .ok source ∈ entries → LeadsToSource w.files w.here source)
    (context : Context) (errors : Nat) :
    ∃ outcomes changed,
      acted (optimizeAll settings compiler entries context errors) w =
        (({ context with
            outcomes := context.outcomes ++ outcomes
            counts := context.counts + total outcomes },
          errors + entries.countP (!·.isOk)), changed) ∧
      Isolates settings compiler w entries outcomes changed ∧ Preserves w changed := by
  have hkept : Preserves w w := ⟨rfl, .refl hlinks⟩
  obtain ⟨outcomes, changed, hrun, hmap, htold, hcalls⟩ :=
    @acted_optimizeAll settings compiler w w _ _ hcompiler hlinks entries hsources
      context errors hkept
  have hmade : ∀ call ∈ outcomes.filterMap call?, LeadsToSource w.files w.here call.source := by
    intro call hcall
    obtain ⟨outcome, houtcome, hsome⟩ := List.mem_filterMap.mp hcall
    have hmem : outcome.source ∈ entries.filterMap Except.toOption :=
      hmap ▸ List.mem_map_of_mem houtcome
    obtain ⟨entry, hentry, hok⟩ := List.mem_filterMap.mp hmem
    rw [source_of_mem_call? (show call ∈ (call? outcome).toList by simp [hsome])]
    cases entry with
    | error failure => cases hok
    | ok source =>
        cases hok
        exact hsources _ hentry
  obtain ⟨hpreserves, hwritten⟩ := hcalls.frame hcompiler hlinks hkept hmade
  exact ⟨outcomes, changed, by rw [hrun, foldl_record], ⟨hmap, htold, hcalls, hwritten⟩, hpreserves⟩

end

variable [Tools]

/-- Around the files there are log entries before and after, and notes on the run. -/
theorem acted_optimize (settings : Settings) (compiler : Compiler) (context : Context)
    (w : Workspace) :
    ∃ first, ∀ after errors changed,
      acted (optimizeAll settings compiler (walk settings context w) context 0) (noted first w) =
        ((after, errors), changed) →
      ∃ metadata last,
        acted (optimize settings (some compiler) context) w =
          ({ after with metadata }, noted last changed) ∧
        metadata.lookup "walk_errors" = some (Json.Value.ofNat errors) := by
  refine ⟨{ level := .info, message := "Optimizing Python sources in " ++ context.input.shown }, ?_⟩
  intro after errors changed hrun
  have hnotes : ∃ walked name sum last,
      acted (optimize settings (some compiler) context) w =
        ((((after.note "files_walked" walked).note "walk_errors" (Json.Value.ofNat errors)).note
          "compiler" name).note "rewrite_stats" sum, noted last changed) := by
    unfold optimize
    rw [acted_bind, acted_info]
    dsimp only
    rw [acted_bind, acted_pure, acted_bind, acted_get]
    dsimp only
    rw [walk_noted, acted_bind, hrun]
    exact ⟨_, _, _, _, rfl⟩
  obtain ⟨walked, name, sum, last, hnotes⟩ := hnotes
  refine ⟨_, last, hnotes, ?_⟩
  simp only [Context.note]
  rw [lookup_putMetadata_of_ne _ _ (by decide), lookup_putMetadata_of_ne _ _ (by decide),
    lookup_putMetadata]

/-- The optimization of a project goes through all its sources and fails for none of them. It
changes nothing but the files written for optimized sources, and not what the walk gives. -/
theorem execute_isolates (hcompiler : WritesIntermediate compiler) (hlinks : HasNoLinks w.files)
    (htree : WellFormed w.files) (context : Context) :
    ∃ outcomes metadata changed,
      attempted ((optimization settings (some compiler)).execute context) w =
        (.ok { context with
          outcomes := context.outcomes ++ outcomes
          counts := context.counts + total outcomes
          metadata }, changed) ∧
      Isolates settings compiler w (walk settings context w) outcomes changed ∧
      metadata.lookup "walk_errors" =
        some (Json.Value.ofNat ((walk settings context w).countP (!·.isOk))) ∧
      ∀ exclusions base, sourcesBelow exclusions changed.files context.input base =
        sourcesBelow exclusions w.files context.input base := by
  obtain ⟨first, hoptimize⟩ := acted_optimize settings compiler context w
  have hsources : ∀ source, .ok source ∈ walk settings context w →
    LeadsToSource w.files w.here source :=
    fun source hmem => leadsToSource_of_mem htree hmem
  obtain ⟨outcomes, changed, hrun, hisolates, hkept⟩ :=
    @exists_isolates settings compiler (noted first w) _ _ hcompiler hlinks
      (walk settings context w)
      hsources context 0
  obtain ⟨metadata, last, hrun, herrors⟩ := hoptimize _ _ _ hrun
  refine ⟨outcomes, metadata, noted last changed, ?_, hisolates.noted first last, ?_, ?_⟩
  · change attempted (ExceptT.lift (optimize settings (some compiler) context)) w = _
    rw [attempted_lift, hrun]
  · rw [herrors, Nat.zero_add]
  · intro exclusions base
    exact sourcesBelow_of_kept hkept.kept exclusions context.input base

end

/-- A project with a module, a text that is no module, and a file that is no source. -/
def mixedProject : Workspace :=
  { files :=
      { entries :=
          [(["p"], .directory), (["a.py", "p"], .file "def f(): pass\n".toUTF8 false),
            (["b.py", "p"], .file "def (\n".toUTF8 false), (["c.txt", "p"], .file .empty false)] } }

def silentCompiler : CythonCompiler :=
  { settings := {}, tool := none, headers := none }

theorem mixedProject_wellFormed : WellFormed mixedProject.files where
  names := by decide +kernel
  parents := by decide +kernel
  unique := by decide

end Cythonizer.Proofs.Pipeline.Optimization
