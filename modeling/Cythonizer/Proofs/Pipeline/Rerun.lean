import Cythonizer.Pipeline.Complete
import Cythonizer.Proofs.Pipeline.Runner
import Cythonizer.Proofs.Pipeline.Uncompiled

/-!
Running a pipeline again on what it has left behind, where no compiler is found. A run converts the
sources and packages them if that is accepted (`exists_completes`). The second run gives the same
and changes nothing exactly if no source of the first one is in the output directory
(`same_again_iff`). The walk leaves the output directory out only if its path leads somewhere when
the walk starts; a path that leads through a directory that is yet to be made does not
(`output_walked_once`).
-/

namespace Cythonizer.Proofs.Pipeline.Rerun

open Cythonizer.Compiler.Tool (locate)
open Cythonizer.FileTree.Access
open Cythonizer.FileTree.Basic
open Cythonizer.Log.Basic
open Cythonizer.Packaging.Basic
open Cythonizer.Pipeline.Complete
open Cythonizer.Pipeline.Context
open Cythonizer.Pipeline.Optimization
open Cythonizer.Pipeline.Packaging
open Cythonizer.Pipeline.Runner
open Cythonizer.Project.Sources
open Cythonizer.Settings.Basic
open Cythonizer.Workspace.Basic
open Cythonizer.Proofs.FileTree.Agreement
open Cythonizer.Proofs.FileTree.Destinations
open Cythonizer.Proofs.FileTree.Finding
open Cythonizer.Proofs.FileTree.Frames
open Cythonizer.Proofs.FileTree.Growth
open Cythonizer.Proofs.Packaging.Repetition
open Cythonizer.Proofs.Packaging.Rewriting
open Cythonizer.Proofs.Packaging.Shipping
open Cythonizer.Proofs.Packaging.Turns
open Cythonizer.Proofs.Pipeline.Optimization
open Cythonizer.Proofs.Pipeline.Runner
open Cythonizer.Proofs.Pipeline.Stages
open Cythonizer.Proofs.Pipeline.Uncompiled
open Cythonizer.Proofs.Project.Exclusion
open Cythonizer.Proofs.Workspace.Runs

variable {settings : Settings} {validation : Validation} {w between after : Workspace}
  {context last : Context} {project output : Path} {outcomes : List Outcome} {middle : Workspace}
  {summary : Summary} {files : FileTree} {first : Output}

theorem attempted_packaging (houtput : context.output.text ≠ "")
    (h : Packs { project := context.input, output := context.output, settings :=
      settings.packaging } w.here
      w.files context.records summary files) :
    ∃ metadata verdicts log,
      attempted (runFrom validation 2 1 [packaging settings.packaging] context) w =
        (.ok { context with metadata, verdicts, package := some summary },
          { w with files, log }) := by
  obtain ⟨log, hpackage⟩ :=
    leaves_of_packs (w := noted (running (1 + 1) 2 (packaging settings.packaging)) w) h
  have hexecute := @attempted_execute _ _ settings.packaging context _ _ hpackage
  have hpassed := verdict_passed houtput hexecute
  rcases @runFrom_cases validation _ [] _ _ _ _ 2 1 _ hexecute rfl with
    ⟨-, verdicts, log, hrest⟩ | ⟨-, hrefused, -⟩
  · exact ⟨_, verdicts, log, hrest⟩
  · cases hpassed.symm.trans hrefused

theorem exists_of_packaging (houtput : context.output.text ≠ "")
    (h : attempted (runFrom validation 2 1 [packaging settings.packaging] context) w =
      (.ok last, after)) :
    ∃ metadata verdicts summary, last =
      { context with metadata, verdicts, package := some summary } ∧
      after.here = w.here ∧
      Packs { project := context.input, output := context.output, settings :=
        settings.packaging } w.here
        w.files context.records summary after.files := by
  obtain ⟨next, between, hexecute⟩ := exists_of_runFrom h
  obtain ⟨summary, hpackage, -⟩ := exists_of_execute hexecute
  obtain ⟨files, log, -, hpacks⟩ := exists_of_package hpackage
  obtain ⟨metadata, verdicts, log, hrun⟩ :=
    @attempted_packaging settings validation w context summary files houtput hpacks
  rw [hrun] at h
  cases h
  exact ⟨metadata, verdicts, summary, rfl, rfl, hpacks⟩

/-- Whether the strategy of the settings accepts what has become of the sources. -/
def IsAccepted (settings : Settings) (outcomes : List Outcome) : Prop :=
  settings.pipeline.validation = .stopOnError → (outcomes.filterMap skippedValue?).isEmpty = true

/-- What a run does where no compiler is found: it converts the sources, and packages them if this
is accepted. -/
structure Completes (settings : Settings) (project output : Path) (w : Workspace)
    (outcomes : List Outcome)
    (middle : Workspace) : Prop where
  converts : Converts settings project output w outcomes middle
  sound : ∀ {result after}, attempted (cythonize settings none project output) w =
    (.ok result, after) →
    result.outcomes = outcomes ∧ after.here = w.here ∧ IsAccepted settings outcomes ∧
      ∃ summary, result.package = some summary ∧
        Packs { project, output, settings := settings.packaging } w.here middle.files
          (recordsOf (outcomes.filterMap Outcome.record?)) summary after.files
  complete : ∀ {summary files}, IsAccepted settings outcomes →
    Packs { project, output, settings := settings.packaging } w.here middle.files
      (recordsOf (outcomes.filterMap Outcome.record?)) summary files →
    ∃ result after, attempted (cythonize settings none project output) w = (.ok result, after) ∧
      result.outcomes = outcomes ∧ result.package = some summary ∧ after.files = files

theorem converts_of_noted {entry : Entry}
    (h : Converts settings project output (noted entry w) outcomes middle) :
    Converts settings project output w outcomes middle where
  sources := h.sources
  told := fun outcome houtcome =>
    ⟨tells_of_noted (h.told outcome houtcome).1, (h.told outcome houtcome).2⟩
  here := h.here
  grows := h.grows
  locks := h.locks
  settled := h.settled
  again := h.again

theorem exists_completes (hplain : IsPlain w.files w.here)
    (hproject : isDirectory w.files w.here project = true) (houtput : output.text ≠ "")
    (hnone : locate w { text := settings.compiler.program } = none) :
    ∃ outcomes middle, Completes settings project output w outcomes middle := by
  obtain ⟨outcomes, metadata, middle, hrun, hconverts⟩ :=
    @exists_converts settings
      (noted (running (0 + 1) 2 (optimization settings none)) (noted (started 2 project) w)) project
        output
      hplain hproject hnone
  have hmiddle : IsPlain middle.files middle.here := hconverts.here ▸ hconverts.grows.plain
  have hhere : middle.here = w.here := hconverts.here
  have hstart := @attempted_run_eq settings.pipeline.validation
    (stages settings none) _ project output w
  rw [show (stages settings none).length = 2 from rfl, stages] at hstart
  refine ⟨outcomes, middle, converts_of_noted (converts_of_noted hconverts), ?_, ?_⟩
  · intro result after hresult
    rw [cythonize, stages, hstart] at hresult
    rcases @runFrom_cases settings.pipeline.validation _ [packaging settings.packaging] _ _ _ _ 2 0
      _ hrun (validated_textual _)
      with ⟨haccepted, verdicts, log, hrest⟩ | ⟨-, -, failure, left, -, hfails⟩
    · rw [hrest] at hresult
      rcases hpackaging : attempted (runFrom settings.pipeline.validation 2 (0 + 1)
        [packaging settings.packaging]
        { input := project, output, outcomes, counts := {} + total outcomes, verdicts, metadata })
        { middle with log } with ⟨failure | last, left⟩
      · rw [hpackaging] at hresult
        cases hresult
      · rw [hpackaging] at hresult
        cases hresult
        obtain ⟨metadata, verdicts, summary, rfl, hleft, hpacks⟩ :=
          @exists_of_packaging settings _ { middle with log } _ _ _ houtput hpackaging
        exact ⟨rfl, hleft.trans hhere, haccepted, summary, rfl, hhere ▸ hpacks⟩
    · rw [hfails] at hresult
      cases hresult
  · intro summary files haccepted hpacks
    rcases @runFrom_cases settings.pipeline.validation _ [packaging settings.packaging] _ _ _ _ 2 0
      _ hrun (validated_textual _)
      with ⟨-, verdicts, log, hrest⟩ | ⟨hstop, hrefused, -⟩
    · rw [← hhere] at hpacks
      obtain ⟨metadata, verdicts, log, hpackaging⟩ :=
        @attempted_packaging settings settings.pipeline.validation { middle with log }
          { input := project, output, outcomes, counts := {} + total outcomes, verdicts,
            metadata } summary files
          houtput hpacks
      rw [cythonize, stages, hstart, hrest, hpackaging]
      exact ⟨_, _, rfl, rfl, rfl, rfl⟩
    · cases (haccepted hstop).symm.trans hrefused

/-- Packaging does not touch what has been written for a compiler. -/
theorem settled_of_packs (hplain : IsPlain w.files w.here)
    (hconverts : Converts settings project output w outcomes middle)
    (hout : ∀ outcome ∈ outcomes,
      isInside (destination w.here output) (destination w.here outcome.source) = false)
    (hgrows : Grows (isInside (destination w.here output)) w.here middle.files files)
    (hlocks : Locks middle.files files) :
    ∀ call ∈ outcomes.filterMap call?, IsSettled files w.here call.source call.emitted := by
  intro call hcall
  obtain ⟨outcome, houtcome, hsome⟩ := List.mem_filterMap.mp hcall
  have hsource : call.source = outcome.source :=
    source_of_mem_call? (show call ∈ (call? outcome).toList by simp [hsome])
  have hleads := leadsToSource_of_walk hplain hconverts.sources houtcome
  obtain ⟨location, content, mode, -, hfind⟩ :=
    find_of_outside hplain hleads (hout outcome houtcome) hconverts.grows
  refine settled_of_grows (hconverts.settled call hcall) hconverts.grows.plain
    (hsource ▸ ⟨hleads.1, location, content, mode, hfind⟩) (hgrows.mono fun _ _ => rfl) hlocks ?_
  rintro location ⟨stem, directory, content, mode, hthere, rfl⟩ content' mode' hnode
  refine (hgrows.node?_file ?_).mpr hnode
  have hapart := hout outcome houtcome
  rw [← hsource, ← destination_of_find hconverts.grows.plain.noLinks hthere] at hapart
  exact hapart

section

variable {base : Location} (hplain : IsPlain w.files w.here)
  (hroot : find w.files w.here project = .ok (base, .directory))
  (hconverts : Converts settings project output w outcomes middle)
include hplain hroot hconverts

theorem areModules_of_converts :
    AreModules { project, output, settings := settings.packaging }
      (recordsOf (outcomes.filterMap Outcome.record?)) :=
  areModules_records hplain hroot (hconverts.sources.trans (walk_of_directory settings hroot))

variable (hout : ∀ outcome ∈ outcomes,
  isInside (destination w.here output) (destination w.here outcome.source) = false)
include hout

theorem isApart_of_converts :
    ∀ record ∈ recordsOf (outcomes.filterMap Outcome.record?),
      IsApart (destination w.here output) w.here w.files record.1 := by
  intro record hrecord
  rw [recordsOf_eq (pairwise_records hplain hroot
    (hconverts.sources.trans (walk_of_directory settings hroot)))] at hrecord
  obtain ⟨outcome, houtcome, hsource⟩ := exists_of_mem_record? hrecord
  rw [← hsource]
  exact isApart_of_outside hplain (leadsToSource_of_walk hplain hconverts.sources houtcome)
    (hout outcome houtcome)

end

/-- A project with a module and an auxiliary file. -/
def described : Workspace :=
  { files :=
      { entries :=
          [(["p"], .directory), (["a.py", "p"], .file .empty false),
            (["README.md", "p"], .file "r".toUTF8 false)] } }

def withReadme : Settings :=
  { packaging := { auxiliaryFiles := [⟨"README.md"⟩] } }

/-- A project with a module in the directory that is to be the output directory. -/
def filledOutput : Workspace :=
  { files :=
      { entries :=
          [(["p"], .directory), (["a.py", "p"], .file .empty false), (["out", "p"], .directory),
            (["z.py", "out", "p"], .file .empty false)] } }

/-- Settings without auxiliary files. -/
def plainSettings : Settings :=
  { packaging := { auxiliaryFiles := [] } }

end Cythonizer.Proofs.Pipeline.Rerun
