import Cythonizer.Proofs.CommandLine.Arguments
import Cythonizer.Proofs.CommandLine.Serving
import Cythonizer.Proofs.Packaging.Refusals

/-!
The exit status of a run (`exit_status`). It is told by three things: whether the settings load,
whether a file that has been skipped stops the run, and whether an auxiliary file that is required
is lacking. No other failure counts, but for a refusal of the file system while the modules are
packaged, and paths that are no text where they are to be written as JSON.
-/

namespace Cythonizer.Proofs.CommandLine.ExitStatus

open Cythonizer.CommandLine.Arguments
open Cythonizer.CommandLine.Session
open Cythonizer.Compiler.Program (Tools)
open Cythonizer.FileTree.Access
open Cythonizer.FileTree.Basic
open Cythonizer.FileTree.Resolution
open Cythonizer.Packaging.Basic
open Cythonizer.Path.Basic
open Cythonizer.Pipeline.Context
open Cythonizer.Settings.Loading
open Cythonizer.Source.Fault (Locator)
open Cythonizer.Workspace.Basic
open Cythonizer.Proofs.CommandLine.Arguments
open Cythonizer.Proofs.CommandLine.Serving
open Cythonizer.Proofs.Compiler.Effects
open Cythonizer.Proofs.FileTree.Persistence
open Cythonizer.Proofs.FileTree.Writing
open Cythonizer.Proofs.Packaging.Endings
open Cythonizer.Proofs.Packaging.Refusals
open Cythonizer.Proofs.Packaging.Shipping
open Cythonizer.Proofs.Packaging.Turns
open Cythonizer.Proofs.Pipeline.Confinement
open Cythonizer.Proofs.Pipeline.Optimization (isTold_textual)
open Cythonizer.Proofs.Project.Modules
open Cythonizer.Proofs.Settings.Loading
open Cythonizer.Proofs.Workspace.Runs

variable {settings : Settings} {request : Request} {w after left : Workspace} {generated : Stamp}
  {ending : Ending} {arguments : List String} {log : Log} {summary : Summary} {problem : Problem}
  {status : Bool → Nat}

/-- The settings of a project, if it has no settings file or one that can be read. -/
inductive Loads (request : Request) (w : Workspace) : Settings → Prop
  | absent (habsent : holds w.files w.here (settingsPath request.project) = false) :
    Loads request w {}
  | read {text : String} {settings : Settings}
      (htext : FileTree.Access.readText w.files w.here (settingsPath request.project) = .ok text)
      (hread : Settings.Coding.read text = .ok settings) : Loads request w settings

theorem loaded_iff : loaded request w = .ok settings ↔ Loads request w settings := by
  rw [loaded, attempted_load]
  dsimp only
  constructor
  · intro hloaded
    split at hloaded
    · split at hloaded
      · rename_i htext
        split at hloaded
        · rename_i hread
          cases hloaded
          exact .read htext hread
        · cases hloaded
      · cases hloaded
    · rename_i habsent
      cases hloaded
      exact .absent (Bool.eq_false_iff.mpr habsent)
  · intro hloads
    cases hloads with
    | absent habsent => rw [if_neg (Bool.eq_false_iff.mp habsent)]
    | read htext hread => simp only [if_pos (HasText.holds htext), htext, hread]

/-- An auxiliary file that is required is no regular file. -/
def LacksAuxiliary (settings : Settings) (request : Request) (w : Workspace) : Prop :=
  settings.packaging.requireAuxiliaryFiles = true ∧
    ∃ path ∈ settings.packaging.auxiliaryFiles, isLacking request.project w.here w.files path = true

section

variable [Encoding] [Locator] [Tools]

/-- The file system refuses to make, write or copy a file while the modules are packaged. -/
def IsRefused (settings : Settings) (request : Request) (w : Workspace) : Prop :=
  Refuses (packagerOf settings request) w.here (optimized settings request w).2.files
    (optimized settings request w).1.records

theorem exists_proceeds (settings : Settings) (request : Request) (w : Workspace) :
    ∃ calls, Proceeds (IsText (requested settings request w)) w calls
      (optimized settings request w).2 := by
  obtain ⟨calls, more, -, -, -, hready, hproceeds⟩ := exists_optimized settings request w
  exact ⟨calls ++ more, .log _ ((hready.mono fun _ => False.elim).append hproceeds)⟩

theorem extends_optimized (settings : Settings) (request : Request) (w : Workspace) :
    (optimized settings request w).2.here = w.here ∧
      Extends w.files (optimized settings request w).2.files := by
  obtain ⟨calls, hproceeds⟩ := exists_proceeds settings request w
  exact ⟨hproceeds.fills.here, (Adds.of_byAdding hproceeds.fills.files).kept⟩

theorem not_isRefused_of_packaged (h : packaged settings request w = (.ok summary, left)) :
    ¬ IsRefused settings request w := by
  intro hrefused
  rw [IsRefused, ← (extends_optimized settings request w).1] at hrefused
  obtain ⟨path, error, after, hfails⟩ := hrefused.fails
  cases h.symm.trans hfails

theorem not_lacksAuxiliary_of_packaged (h : packaged settings request w = (.ok summary, left))
    (last : Log) :
    ¬ LacksAuxiliary settings request { left with log := last } := by
  obtain ⟨tree, log, rfl, ⟨-, -, hcopies⟩⟩ := exists_of_package h
  rintro ⟨hrequired, path, hpath, hlacking⟩
  have hthere := (extends_of_copies hcopies).2 hrequired path hpath
  exact Bool.false_ne_true (hthere.symm.trans hlacking)

/-- Packaging that fails without a refusal lacks an auxiliary file. -/
theorem lacks_of_packaged (h : packaged settings request w = (.error problem, left))
    (haccepted : ¬ IsRefused settings request w) :
    left.here = w.here ∧
      Lacks (packagerOf settings request) w.here settings.packaging.auxiliaryFiles
        left.files problem ∧
      ∃ made files packed,
        FileTree.Access.makeDirectories (optimized settings request w).2.files w.here
          (target request) =
          (none, made) ∧
        PlacesAll (packagerOf settings request) w.here made
          (optimized settings request w).1.records files packed ∧
        Extends packed left.files := by
  rw [IsRefused, ← (extends_optimized settings request w).1] at haccepted
  rw [← (extends_optimized settings request w).1]
  exact (refuses_or_lacks h).resolve_left haccepted

/-- What a served request exits with: 0 if nothing is in the way, 101 if the program ends at once,
and 1 otherwise. -/
theorem status_of_ends (h : Ends settings request w status after) (debug : Bool) :
    (status debug = 0 ∨ status debug = 1 ∨ status debug = 101) ∧
      (status debug = 0 ↔ ¬ IsPanicked settings (optimized settings request w).1.outcomes ∧
        ¬ IsStopped settings (optimized settings request w).1.outcomes ∧
        ¬ LacksAuxiliary settings request after ∧ ¬ IsRefused settings request w ∧
        (debug = true → isReportable request (optimized settings request w).1.outcomes = true)) ∧
      (status debug = 101 ↔ IsPanicked settings (optimized settings request w).1.outcomes) ∧
      (isReportable request (optimized settings request w).1.outcomes = true →
        ∀ other, status other = status debug) := by
  cases h with
  | panicked log hpanicked =>
      exact ⟨by simp, iff_of_false (by simp) fun hgoes =>
        hgoes.1 hpanicked, iff_of_true rfl hpanicked,
        fun _ _ => rfl⟩
  | stopped log hcalm hstopped =>
      exact ⟨by simp, iff_of_false (by simp) fun hgoes =>
        hgoes.2.1 hstopped, iff_of_false (by simp) hcalm,
        fun _ _ => rfl⟩
  | packaged log hcalm hgoes hpackage =>
      have hthere := not_lacksAuxiliary_of_packaged hpackage log
      have haccepted := not_isRefused_of_packaged hpackage
      cases hreport : isReportable request (optimized settings request w).1.outcomes with
      | true => simp [statusOf, hcalm, hgoes, hthere, haccepted]
      | false => cases debug <;> simp [statusOf, hcalm, hgoes, hthere, haccepted]
  | failed log hcalm hgoes hpackage =>
      refine ⟨by simp, iff_of_false (by simp) ?_, iff_of_false (by simp) hcalm, fun _ _ => rfl⟩
      rintro ⟨-, -, hthere, haccepted, -⟩
      obtain ⟨hhere, hlacks, -⟩ := lacks_of_packaged hpackage haccepted
      obtain ⟨path, hfirst, -⟩ := hlacks.first
      rw [← hhere] at hfirst
      exact hthere ⟨hlacks.required, path, List.mem_of_find?_eq_some hfirst, List.find?_some hfirst⟩

theorem isFile_of_ends (h : Ends settings request w status after)
    (haccepted : ¬ IsRefused settings request w)
    {path : Path} (hfile : isFile w.files w.here path = true) :
      isFile after.files after.here path = true := by
  obtain ⟨hhere, hextends⟩ := extends_optimized settings request w
  have hlater := hextends.isFile hfile
  rw [← hhere] at hlater
  cases h with
  | panicked log hpanicked => exact hlater
  | stopped log hcalm hstopped => exact hlater
  | packaged log hcalm hgoes hpackage =>
      obtain ⟨tree, last, rfl, hpacks⟩ := exists_of_package hpackage
      exact (extends_of_packs hpacks).isFile hlater
  | failed log hcalm hgoes hpackage =>
      obtain ⟨hleft, -, made, files, packed, hmade, hplaces, hcopies⟩ :=
        lacks_of_packaged hpackage haccepted
      have hpacked := (extends_of_makeDirectories hmade).trans (isFile_of_placesAll hplaces).1
      rw [noted_files, noted_here, hleft, ← hhere]
      exact (hpacked.trans hcopies).isFile hlater

/-- What a run that ends before packaging does to the files. It writes texts of sources and calls
tools. The output directory is made by tools only. If it was there, nothing in it is changed but by
tools that are called, provided that the project is not in it and no link stands where the text of a
source is written. -/
def IsConfined (settings : Settings) (request : Request) (w after : Workspace) : Prop :=
  ∃ calls, Proceeds (IsText (requested settings request w)) w calls after ∧
    (isDirectory after.files after.here (target request) = isDirectory w.files w.here
      (target request) ∨
      ∃ call ∈ calls, isDirectory call.1.files call.1.here (target request) = false ∧
        isDirectory call.2.files call.2.here (target request) = true) ∧
    ∀ base place, IsSound w.files w.here →
      find w.files w.here request.project = .ok (base, .directory) →
      find w.files w.here (target request) = .ok (place, .directory) → ¬ place <:+ base →
      (∀ path, IsText (requested settings request w) path → ∀ found linked,
        resolve w.files w.here path false ≠ .ok (.found found (.link linked))) →
      ∀ location, isInside place location = true → KeptOrCalled w after calls location

theorem isConfined_of_optimized (settings : Settings) (request : Request)
    (w : Workspace) (log : Log) :
    IsConfined settings request w { (optimized settings request w).2 with log } := by
  obtain ⟨calls, more, -, -, -, hready, hproceeds⟩ := exists_optimized settings request w
  have hlast :
    Proceeds (IsText (requested settings request w)) (readied settings request w) (more ++ [])
      { (optimized settings request w).2 with log } := hproceeds.append (.log log (.done _))
  have hall : Proceeds (IsText (requested settings request w)) w (calls ++ (more ++ []))
      { (optimized settings request w).2 with log } :=
    .log _ ((hready.mono fun _ => False.elim).append hlast)
  refine ⟨_, hall, isDirectory_or_called hall _, ?_⟩
  intro base place hsound hproject houtput hbase hlink location hinside
  exact @keptOrCalled_of_isInside settings { input := request.project, output := target request }
    (begun settings request w) _ _ _ location base place _ _ hsound hproject houtput hbase
      hlink hready hlast
    hinside

/-- What a run does that is ended for want of an auxiliary file. It writes all records, and tells of
the first file that is lacking in the order of the settings. -/
structure TellsLacking (settings : Settings) (request : Request) (w after : Workspace) : Prop where
  written : ∃ made files packed,
    FileTree.Access.makeDirectories (optimized settings request w).2.files w.here
      (target request) = (none, made) ∧
      PlacesAll (packagerOf settings request) w.here made
        (optimized settings request w).1.records files packed ∧
      ∀ file ∈ files, isFile after.files after.here file.output = true
  told : ∃ path,
    settings.packaging.auxiliaryFiles.find?
      (isLacking request.project after.here after.files) = some path ∧
      after.log.getLast? = some (failed request (.missingAuxiliary (request.project.join path)))

theorem tellsLacking_of_failed (hpackage : packaged settings request w = (.error problem, left))
    (haccepted : ¬ IsRefused settings request w) :
    TellsLacking settings request w (noted (failed request problem) { left with log }) := by
  obtain ⟨hleft, hlacks, made, files, packed, hmade, hplaces, hcopies⟩ :=
    lacks_of_packaged hpackage haccepted
  obtain ⟨path, hfirst, rfl⟩ := hlacks.first
  refine ⟨⟨made, files, packed, hmade, hplaces, fun file hfile => ?_⟩, path, ?_, ?_⟩
  · rw [noted_files, noted_here, hleft]
    exact hcopies.isFile ((isFile_of_placesAll hplaces).2 file hfile)
  · rw [noted_files, noted_here, hleft]
    exact hfirst
  · exact List.getLast?_concat

/-- What a run leaves behind once its settings are loaded. -/
structure LeavesBehind (settings : Settings) (request : Request) (w after : Workspace) : Prop where
  outcomes : (optimized settings request w).1.outcomes.map Outcome.source =
    (requested settings request w).filterMap Except.toOption
  files : ¬ IsRefused settings request w → ∀ path, isFile w.files w.here path = true →
    isFile after.files after.here path = true
  ended : IsPanicked settings (optimized settings request w).1.outcomes ∨
    IsStopped settings (optimized settings request w).1.outcomes →
      IsConfined settings request w after
  lacking : ¬ IsPanicked settings (optimized settings request w).1.outcomes →
    ¬ IsStopped settings (optimized settings request w).1.outcomes →
      ¬ IsRefused settings request w →
    LacksAuxiliary settings request after → TellsLacking settings request w after

theorem leavesBehind_of_ends (h : Ends settings request w status after) :
    LeavesBehind settings request w after where
  outcomes := by
    obtain ⟨calls, more, -, -, houtcomes, -⟩ := exists_optimized settings request w
    exact houtcomes
  files haccepted path hfile := isFile_of_ends h haccepted hfile
  ended hended := by
    cases h with
    | panicked log hpanicked => exact isConfined_of_optimized settings request w _
    | stopped log hcalm hstopped => exact isConfined_of_optimized settings request w _
    | packaged log hcalm hgoes hpackage => exact (hended.elim hcalm hgoes).elim
    | failed log hcalm hgoes hpackage => exact (hended.elim hcalm hgoes).elim
  lacking hcalm hgoes haccepted hlacks := by
    cases h with
    | panicked log hpanicked => exact absurd hpanicked hcalm
    | stopped log _ hstopped => exact absurd hstopped hgoes
    | packaged log _ _ hpackage => exact absurd hlacks (not_lacksAuxiliary_of_packaged hpackage _)
    | failed log _ _ hpackage => exact tellsLacking_of_failed hpackage haccepted

end

def named : Request :=
  { project := ⟨"p"⟩ }

def unstamped : Stamp :=
  { plain := "", precise := "" }

/-- A project without one of the auxiliary files that are required. -/
def withoutReadme : Workspace :=
  { files :=
      { entries :=
          [(["p"], .directory), (["a.py", "p"], .file "x = 1\n".toUTF8 false),
            (["setup.py", "p"], .file "s = 1\n".toUTF8 false)] } }

/-- A project with a module, settings and other files. -/
def projectWith (settings : String) (others : List (Location × Node)) : Workspace :=
  { files :=
      { entries :=
          [(["p"], .directory), (["a.py", "p"], .file "x = 1\n".toUTF8 false),
            (["cyopt.toml", "p"], .file settings.toUTF8 false)] ++ others } }

/-- The text for the compiler is named as an auxiliary file. -/
def ownText : Workspace :=
  projectWith "[packaging]\nauxiliary_files = [\"a.pyx\"]\n" []

/-- A link into the output directory stands where the text for the compiler is written. -/
def linkedText : Workspace :=
  projectWith "[pipeline]\nvalidation = \"stop_on_error\"\n"
    [(["b.py", "p"], .file "print x\n".toUTF8 false), (["optimized_output", "p"], .directory),
      (["a.pyx", "p"], .link ⟨"optimized_output/a.pyx"⟩)]

/-- The compiler writes into the output directory. -/
def ownCompiler : Workspace :=
  projectWith "[pipeline]\nvalidation = \"stop_on_error\"\n[compiler]\nprogram = \"p/tool\"\n"
    [(["b.py", "p"], .file "print x\n".toUTF8 false), (["optimized_output", "p"], .directory),
      (["tool", "p"], .file "#!/bin/sh\necho t > p/optimized_output/t\n".toUTF8 true)]

end Cythonizer.Proofs.CommandLine.ExitStatus
