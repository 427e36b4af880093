import Cythonizer.Pipeline.Complete
import Cythonizer.Proofs.Pipeline.Stages
import Cythonizer.Report.Basic

/-!
What is shipped for a source whose compilation has failed. Packaging does not ask how the
compilation went: it ships a compiled file that it finds beside the source, also one that an earlier
run has left there, and the emitted text only where there is none that can be copied
(`failed_ships_emitted_iff`).
-/

namespace Cythonizer.Proofs.Pipeline.Failures

open Cythonizer.FileTree.Access
open Cythonizer.FileTree.Basic
open Cythonizer.Outline.Conversion
open Cythonizer.Packaging.Artifact
open Cythonizer.Packaging.Basic
open Cythonizer.Pipeline.Complete
open Cythonizer.Pipeline.Context
open Cythonizer.Pipeline.Optimization
open Cythonizer.Pipeline.Packaging
open Cythonizer.Report.Basic
open Cythonizer.Workspace.Basic
open Cythonizer.Proofs.Compiler.Effects
open Cythonizer.Proofs.FileTree.Destinations
open Cythonizer.Proofs.FileTree.Finding
open Cythonizer.Proofs.FileTree.Frames
open Cythonizer.Proofs.FileTree.Growth
open Cythonizer.Proofs.Packaging.Shipping
open Cythonizer.Proofs.Packaging.Turns
open Cythonizer.Proofs.Pipeline.Stages
open Cythonizer.Proofs.Project.Modules
open Cythonizer.Proofs.Workspace.Runs

variable {settings : Settings} {compiler : Option Compiler} {w between left : Workspace}
  {optimized packaged : Context} {packager : Packager} {here base : Location}
    {tree ready after : FileTree}
  {project output source : Path} {emitted : String} {counts : Counts} {file : PackagedFile}
  {files : List PackagedFile} {records : List (Path × String)}

/-- Whether there is a compiled file beside a source that can be copied to its place. -/
def HasCompiled (packager : Packager) (here : Location) (source : Path) (tree : FileTree) : Prop :=
  ∃ artifact copied, artifact? tree here source = some artifact ∧
    FileTree.Access.copy tree here artifact (compiledPath packager source) = .ok copied

/-- The emitted text is what is shipped, at the place of the source. -/
structure ShipsEmitted (packager : Packager) (here : Location) (after : FileTree) (source : Path)
    (emitted : String) (file : PackagedFile) : Prop where
  kind : file.kind = .emitted ∨ file.kind = .copyFallback
  output : file.output = packager.packaged source
  text : readBytes after here (packager.packaged source) = .ok emitted.toUTF8

theorem kind_eq_compiled_iff (h : Places packager here source emitted ready file after) :
    file.kind = .compiled ↔ HasCompiled packager here source ready := by
  cases h with
  | emitted hnone hwrite =>
      refine iff_of_false (by simp) ?_
      rintro ⟨artifact, copied, hartifact, -⟩
      rw [hnone] at hartifact
      cases hartifact
  | compiled hartifact hcopy => exact iff_of_true rfl ⟨_, _, hartifact, hcopy⟩
  | fallback hartifact hcopy hwrite =>
      refine iff_of_false (by simp) ?_
      rintro ⟨artifact, copied, hother, hcopied⟩
      rw [hartifact] at hother
      cases hother
      rw [hcopy] at hcopied
      cases hcopied

/-- A record has one file, and no other file is of its source. -/
theorem exists_file {R : Path × String → PackagedFile → Prop} {record : Path × String}
    (h : List.Forall₂ R records files) (hsource : ∀ record file, R record file →
      file.source = record.1)
    (hdistinct : records.Pairwise fun a b => a.1.same b.1 = false) (hrecord : record ∈ records) :
    ∃ file ∈ files, R record file ∧ ∀ other ∈ files, other.source.same record.1 = true →
      other = file := by
  induction h with
  | nil => cases hrecord
  | @cons first file records files hfirst hrest ih =>
      obtain ⟨hothers, hdistinct⟩ := List.pairwise_cons.mp hdistinct
      rcases List.mem_cons.mp hrecord with rfl | hmem
      · refine ⟨file, List.mem_cons_self, hfirst, fun other hother hsame => ?_⟩
        rcases List.mem_cons.mp hother with rfl | hother
        · rfl
        · obtain ⟨r, hr, hrelated⟩ := exists_of_mem_right hrest hother
          rw [hsource _ _ hrelated, same_comm, hothers r hr] at hsame
          cases hsame
      · obtain ⟨found, hfound, hrelated, hunique⟩ := ih hdistinct hmem
        refine ⟨found, List.mem_cons_of_mem _ hfound, hrelated, fun other hother hsame => ?_⟩
        rcases List.mem_cons.mp hother with rfl | hother
        · rw [hsource _ _ hfirst, hothers record hmem] at hsame
          cases hsame
        · exact hunique other hother hsame

theorem isShipped_iff (summary : Summary) (hfile : file ∈ summary.files)
    (hsource : file.source = source)
    (hunique : ∀ other ∈ summary.files, other.source.same source = true → other = file) :
    Report.Basic.isShipped (some summary) source = true ↔ file.kind = .compiled := by
  have hsame : source.same source = true := beq_self_eq_true source.components
  rw [Report.Basic.isShipped, List.any_eq_true]
  constructor
  · rintro ⟨other, hother, hshipped⟩
    rw [Bool.and_eq_true, beq_iff_eq] at hshipped
    rw [← hunique other hother hshipped.1]
    exact hshipped.2
  · intro hkind
    exact ⟨file, hfile, by simp [hsource, hkind, hsame]⟩

/-- What is placed at a record's turn is the emitted text unless a compiled file is found. -/
theorem shipsEmitted_iff {turn placed packed : FileTree} {later last : Location → Bool}
    (hplain : IsPlain turn here) (hplaces : Places packager here source emitted turn file placed)
    (hlater : Grows later here placed packed)
    (hfixed : later (destination here file.output) = false)
    (hcopied : Grows last here packed after)
    (hkept : last (destination here (packager.packaged source)) = false) :
    ShipsEmitted packager here after source emitted file ↔
      ¬ HasCompiled packager here source turn := by
  have hkind := kind_eq_compiled_iff hplaces
  have hwritten :
    ∀ {content : ByteArray}, write turn here (packager.packaged source) content = .ok placed →
      later (destination here (packager.packaged source)) = false →
      readBytes after here (packager.packaged source) = .ok content := by
    intro content hwrite hfixed
    obtain ⟨mode, hfind⟩ := find_of_write hplain hwrite
    have hplaced : Grows (fun _ => true) here turn placed := grows_of_write hplain rfl hwrite
    have hpacked := hlater.find_kept hplaced.plain.noLinks (fun _ => hfixed) hfind
    rw [readBytes, hcopied.find_kept hlater.plain.noLinks (fun _ => hkept) hpacked]
  constructor
  · intro hships hcompiled
    rw [← hkind] at hcompiled
    rcases hships.kind with hemitted | hfallback
    · rw [hcompiled] at hemitted
      cases hemitted
    · rw [hcompiled] at hfallback
      cases hfallback
  · intro hnone
    cases hplaces with
    | compiled hartifact hcopy => exact absurd ⟨_, _, hartifact, hcopy⟩ hnone
    | emitted hartifact hwrite => exact ⟨.inl rfl, rfl, hwritten hwrite hfixed⟩
    | fallback hartifact hcopy hwrite => exact ⟨.inr rfl, rfl, hwritten hwrite hfixed⟩

/-- A source whose compilation has failed is shipped as its emitted text, and reported so, exactly
if no compiled file that can be copied is beside it when it is packaged. -/
theorem failed_ships_emitted_iff (hcompiler : ∀ c ∈ compiler, OnlyAdds c)
    (hplain : IsPlain w.files w.here)
    (hproject : isDirectory w.files w.here project = true)
    (hoptimize : attempted
      ((optimization settings compiler).execute { input := project, output }) w =
      (.ok optimized, between))
    (hpackage : attempted ((packaging settings.packaging).execute optimized) between =
      (.ok packaged, left))
    (houtcome : .optimized source emitted false counts ∈ optimized.outcomes) :
    let packager : Packager := { project, output, settings := settings.packaging }
    ∃ summary file turn, packaged.package = some summary ∧ file ∈ summary.files ∧
      file.source = source ∧
      IsTurn packager w.here (FileTree.Access.makeDirectories between.files w.here output).2
        optimized.records (source, emitted) turn ∧
      (leadsTo w.here summary.auxiliaryCopied
        (destination w.here (packager.packaged source)) = false →
        (ShipsEmitted packager w.here left.files source emitted file ↔
          ¬ HasCompiled packager w.here source turn)) ∧
      ((lineOf packaged.toOutput (.optimized source emitted false counts)).status ≠ .compiled ↔
        ¬ HasCompiled packager w.here source turn) := by
  intro packager
  obtain ⟨start, outcomes, sum, metadata, hstart, hbetween, rfl, hsources⟩ :=
    exists_of_optimize hcompiler hplain hoptimize
  obtain ⟨base, hbase⟩ := exists_of_isDirectory hproject
  have hroot : find start.files start.here project = .ok (base, .directory) := by
    rw [hstart.here]
    exact find_directory_of_grows hstart.grows hplain hbase
  have hwalked := hsources.trans (walk_of_directory settings hroot)
  have hmodules : AreModules packager (recordsOf (outcomes.filterMap Outcome.record?)) :=
    areModules_records hstart.plain hroot hwalked
  have hrecord : (source, emitted) ∈ recordsOf (outcomes.filterMap Outcome.record?) := by
    rw [recordsOf_eq (pairwise_records hstart.plain hroot hwalked)]
    exact List.mem_filterMap.mpr ⟨_, houtcome, rfl⟩
  obtain ⟨summary, hsummary, rfl⟩ := exists_of_execute hpackage
  obtain ⟨after, log, rfl, hmade, hplaces, hcopies⟩ := exists_of_package hsummary
  rename_i made packed files
  have hhere : between.here = w.here := hbetween.here.trans hstart.here
  rw [hhere] at hmade hplaces hcopies
  have hmake : Grows (fun _ => false) w.here between.files made :=
    grows_of_made (hhere ▸ hbetween.plain) hmade
  obtain ⟨hpacked, hships⟩ := placesAll_ships hplaces hmake.plain hmodules
  have hfiles := files_of_copies hcopies
  obtain ⟨-, hcopied, -⟩ := grows_of_copies hcopies hpacked.plain
  obtain ⟨file, hfile, ⟨-, turn, placed, hturn, hready, hplaced, hlater⟩, hunique⟩ :=
    exists_file hships (fun record file hship => by
      obtain ⟨_, _, -, -, hplaced, -⟩ := hship.placed
      exact source_of_places hplaced) hmodules.distinct hrecord
  have hsource : file.source = source := source_of_places hplaced
  have hturn' :
    IsTurn packager w.here (FileTree.Access.makeDirectories between.files w.here output).2
      (recordsOf (outcomes.filterMap Outcome.record?)) (source, emitted) turn := by
    rwa [show FileTree.Access.makeDirectories between.files w.here output = (none, made) from hmade]
  refine ⟨summary, file, turn, rfl, hfiles ▸ hfile, hsource, hturn', fun hfree => ?_, ?_⟩
  · exact shipsEmitted_iff hready.plain hplaced hlater (by simp) hcopied hfree
  · rw [← kind_eq_compiled_iff hplaced,
      ← isShipped_iff summary (hfiles ▸ hfile) hsource (hfiles ▸ hunique)]
    by_cases hshipped : Report.Basic.isShipped (some summary) source = true
    · simp [lineOf, Context.toOutput, hshipped]
    · simp [lineOf, Context.toOutput, hshipped]

/-- A project with a compiled file beside one of its two modules. -/
def rebuilt : Workspace :=
  { files :=
      { entries :=
          [(["p"], .directory), (["a.py", "p"], .file .empty false),
            (["a.so", "p"], .file "old".toUTF8 true), (["b.py", "p"], .file .empty false)] } }

def noAuxiliaries : Settings :=
  { packaging := { auxiliaryFiles := [] } }

theorem rebuilt_shipped :
    IsPlain rebuilt.files rebuilt.here ∧ isDirectory rebuilt.files rebuilt.here ⟨"p"⟩ = true ∧
      ∃ optimized between packaged left,
        attempted ((optimization noAuxiliaries none).execute { input := ⟨"p"⟩, output := ⟨"out"⟩ })
          rebuilt =
          (.ok optimized, between) ∧
        attempted ((packaging noAuxiliaries.packaging).execute optimized) between =
          (.ok packaged, left) ∧
        optimized.outcomes.map (fun o => (o.source, o.isCompiled)) =
          [(⟨"p/a.py"⟩, false), (⟨"p/b.py"⟩, false)] ∧
        ∀ source emitted counts, .optimized source emitted false counts ∈ optimized.outcomes →
          ∃ turn,
            IsTurn { project := ⟨"p"⟩, output := ⟨"out"⟩, settings :=
              noAuxiliaries.packaging } rebuilt.here
              (FileTree.Access.makeDirectories between.files rebuilt.here ⟨"out"⟩).2
                optimized.records
              (source, emitted) turn ∧
            ((lineOf packaged.toOutput (.optimized source emitted false counts)).status ≠
              .compiled ↔
              ¬ HasCompiled { project := ⟨"p"⟩, output := ⟨"out"⟩, settings :=
                noAuxiliaries.packaging }
                  rebuilt.here source turn) := by
  have hplain : IsPlain rebuilt.files rebuilt.here :=
    { wellFormed :=
        { names := by decide +kernel
          parents := by decide +kernel
          unique := by decide }
      noLinks := hasNoLinks_of_entries (by simp [rebuilt])
      here := rfl }
  have hproject : isDirectory rebuilt.files rebuilt.here ⟨"p"⟩ = true := by decide +kernel
  refine ⟨hplain, hproject, ?_⟩
  have houtcomes : (attempted ((optimization noAuxiliaries none).execute
      { input := ⟨"p"⟩, output := ⟨"out"⟩ }) rebuilt).1.toOption.map
        (fun context => context.outcomes.map fun o => (o.source, o.isCompiled)) =
      some [(⟨"p/a.py"⟩, false), (⟨"p/b.py"⟩, false)] := by decide +kernel
  have hboth :
    (attempted ((optimization noAuxiliaries none).execute { input := ⟨"p"⟩, output := ⟨"out"⟩ } >>=
      (packaging noAuxiliaries.packaging).execute) rebuilt).1.isOk = true := by decide +kernel
  rcases hoptimize : attempted ((optimization noAuxiliaries none).execute
      { input := ⟨"p"⟩, output := ⟨"out"⟩ }) rebuilt with ⟨problem | optimized, between⟩
  · rw [hoptimize] at houtcomes
    cases houtcomes
  rw [attempted_bind, hoptimize] at hboth
  rw [hoptimize] at houtcomes
  rcases hpackage : attempted ((packaging noAuxiliaries.packaging).execute optimized) between with
    ⟨problem | packaged, left⟩
  · dsimp only at hboth
    rw [hpackage] at hboth
    cases hboth
  refine ⟨optimized, between, packaged, left, rfl, hpackage, Option.some.inj houtcomes, ?_⟩
  intro source emitted counts houtcome
  obtain ⟨summary, file, turn, -, -, -, hturn, -, hreport⟩ :=
    failed_ships_emitted_iff (by simp) hplain hproject hoptimize hpackage houtcome
  exact ⟨turn, hturn, hreport⟩

/-- An old compiled file is shipped, and reported, for a source whose compilation has failed. -/
theorem old_compiled_shipped :
    ∃ output left, attempted (cythonize noAuxiliaries none ⟨"p"⟩ ⟨"out"⟩) rebuilt =
      (.ok output, left) ∧
      output.outcomes.map (fun o => (o.source, o.isCompiled)) =
        [(⟨"p/a.py"⟩, false), (⟨"p/b.py"⟩, false)] ∧
      output.package.map Summary.files = some
        [{ source := ⟨"p/a.py"⟩, output := ⟨"out/a.so"⟩, kind := .compiled },
          { source := ⟨"p/b.py"⟩, output := ⟨"out/b.py"⟩, kind := .emitted }] ∧
      FileTree.Access.holds left.files left.here ⟨"out/a.py"⟩ = false ∧
      output.outcomes.map (fun outcome => (lineOf output outcome).status) =
        [.compiled, .source] := by
  have hrun :
    (attempted (cythonize noAuxiliaries none ⟨"p"⟩ ⟨"out"⟩) rebuilt).1.toOption.map (fun output =>
      (output.outcomes.map (fun o => (o.source, o.isCompiled)), output.package.map Summary.files,
        output.outcomes.map (fun outcome => (lineOf output outcome).status))) =
      some ([(⟨"p/a.py"⟩, false), (⟨"p/b.py"⟩, false)],
        some [{ source := ⟨"p/a.py"⟩, output := ⟨"out/a.so"⟩, kind := .compiled },
          { source := ⟨"p/b.py"⟩, output := ⟨"out/b.py"⟩, kind := .emitted }],
        [.compiled, .source]) := by decide +kernel
  have hleft :
    FileTree.Access.holds (attempted (cythonize noAuxiliaries none ⟨"p"⟩ ⟨"out"⟩) rebuilt).2.files
      (attempted (cythonize noAuxiliaries none ⟨"p"⟩ ⟨"out"⟩) rebuilt).2.here
        ⟨"out/a.py"⟩ = false := by
    decide +kernel
  rcases hresult : attempted (cythonize noAuxiliaries none ⟨"p"⟩ ⟨"out"⟩) rebuilt with
    ⟨problem | output, left⟩
  · rw [hresult] at hrun
    cases hrun
  · rw [hresult] at hrun hleft
    simp only [Except.toOption, Option.map_some, Option.some.injEq, Prod.mk.injEq] at hrun
    exact ⟨output, left, rfl, hrun.1, hrun.2.1, hleft, hrun.2.2⟩

end Cythonizer.Proofs.Pipeline.Failures
