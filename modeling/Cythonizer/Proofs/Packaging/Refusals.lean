import Cythonizer.Proofs.Packaging.Endings

/-!
How packaging fails. Either the file system refuses to make, write or copy something (`Refuses`), or
an auxiliary file that is required is not there (`Lacks`). In the second case all records have their
files, and the failure names the first such file in the order of the settings (`refuses_or_lacks`).
-/

namespace Cythonizer.Proofs.Packaging.Refusals

open Cythonizer.FileTree.Access
open Cythonizer.FileTree.Basic
open Cythonizer.Packaging.Artifact
open Cythonizer.Packaging.Basic
open Cythonizer.Path.Basic
open Cythonizer.Workspace.Basic
open Cythonizer.Proofs.FileTree.Persistence
open Cythonizer.Proofs.Packaging.Endings
open Cythonizer.Proofs.Packaging.Turns
open Cythonizer.Proofs.Workspace.Runs

variable {packager : Packager} {here : Location} {w left : Workspace} {tree : FileTree}
  {source : Path} {emitted : String} {records : List (Path × String)} {auxiliaries : List Path}
  {summary : Summary} {problem : Problem}

/-- An auxiliary file that is there cannot be copied, when all of those before it have been. -/
inductive RefusesCopy (packager : Packager) (here : Location) : FileTree → List Path → Prop
  | first {tree : FileTree} {path : Path} {rest : List Path} {name : String} {error : FileError}
      (hname : path.fileName? = some name)
      (hfile : isFile tree here (packager.project.join path) = true)
      (hcopy : FileTree.Access.copy tree here (packager.project.join path)
        (packager.output.join ⟨name⟩) =
        .error error) :
      RefusesCopy packager here tree (path :: rest)
  | nameless {tree : FileTree} {path : Path} {rest : List Path} (hname : path.fileName? = none)
      (later : RefusesCopy packager here tree rest) : RefusesCopy packager here tree (path :: rest)
  | copied {tree between : FileTree} {path : Path} {rest : List Path} {name : String}
      (hname : path.fileName? = some name)
      (hcopied : copied? tree here (packager.project.join path)
        (packager.output.join ⟨name⟩) = some between)
      (later : RefusesCopy packager here between rest) :
        RefusesCopy packager here tree (path :: rest)

/-- Packaging is stopped for want of an auxiliary file, the first in the order of the settings. -/
structure Lacks (packager : Packager) (here : Location) (auxiliaries : List Path) (after : FileTree)
    (problem : Problem) : Prop where
  required : packager.settings.requireAuxiliaryFiles = true
  first : ∃ path, auxiliaries.find? (isLacking packager.project here after) = some path ∧
    problem = .missingAuxiliary (packager.project.join path)

variable [Encoding]

theorem RefusesCopy.fails (h : RefusesCopy packager here tree auxiliaries) (hhere : w.here = here)
    (htree : w.files = tree) (hrequired : packager.settings.requireAuxiliaryFiles = true)
    (summary : Summary) :
    ∃ path error left,
      attempted (packager.copyAuxiliaries auxiliaries summary) w =
        (.error (.file path error), left) := by
  induction h generalizing w summary with
  | @first tree path rest name error hname hfile hcopy =>
      subst hhere htree
      have hnone :
        copied? w.files w.here (packager.project.join path)
          (packager.output.join ⟨name⟩) = none := by
        rw [copied?, if_pos hfile, hcopy]
        rfl
      obtain ⟨problem, hproblem, hcause⟩ := attempted_copyAuxiliary_none hnone
      obtain ⟨-, refusal, -, rfl⟩ := hcause.resolve_left (by simp [hfile])
      rw [attempted_copyAuxiliaries_cons hname, hproblem]
      dsimp only
      rw [if_pos hrequired]
      exact ⟨_, _, _, rfl⟩
  | nameless hname later ih =>
      rw [copyAuxiliaries_nameless hname]
      exact ih hhere htree summary
  | @copied tree between path rest name hname hcopied later ih =>
      subst hhere htree
      rw [attempted_copyAuxiliaries_cons hname, attempted_copyAuxiliary_some hcopied]
      exact ih (w := { w with files := between }) rfl rfl _

/-- Copying the auxiliary files fails if one of them cannot be copied, or where one is required that
is not there. -/
theorem refuses_or_lacks_of_copyAuxiliaries
    (h : attempted (packager.copyAuxiliaries auxiliaries summary) w = (.error problem, left)) :
    packager.settings.requireAuxiliaryFiles = true ∧ left.here = w.here ∧
      Extends w.files left.files ∧
      (RefusesCopy packager w.here w.files auxiliaries ∨
        Lacks packager w.here auxiliaries left.files problem) := by
  induction auxiliaries generalizing w summary with
  | nil => cases h
  | cons path rest ih =>
      cases hname : path.fileName? with
      | none =>
          rw [copyAuxiliaries_nameless hname] at h
          obtain ⟨hrequired, hhere, hextends, hends⟩ := ih h
          refine ⟨hrequired, hhere, hextends,
            hends.imp (.nameless hname) fun hlacks => ⟨hlacks.required, ?_⟩⟩
          rw [List.find?_cons_of_neg (by simp [isLacking, hname])]
          exact hlacks.first
      | some name =>
          rw [attempted_copyAuxiliaries_cons hname] at h
          cases hcopied :
            copied? w.files w.here (packager.project.join path) (packager.output.join ⟨name⟩) with
          | some between =>
              rw [attempted_copyAuxiliary_some hcopied] at h
              obtain ⟨hrequired, hhere, hextends, hends⟩ := ih h
              obtain ⟨hfirst, hfile⟩ := extends_of_copied hcopied
              refine ⟨hrequired, hhere, hfirst.trans hextends,
                hends.imp (.copied hname hcopied) fun hlacks => ⟨hlacks.required, ?_⟩⟩
              rw [List.find?_cons_of_neg]
              · exact hlacks.first
              · rw [isLacking_of_name hname, hextends.isFile hfile]
                simp
          | none =>
              obtain ⟨found, hfound, hcause⟩ := attempted_copyAuxiliary_none hcopied
              rw [hfound] at h
              dsimp only at h
              split at h
              · rename_i hrequired
                cases h
                refine ⟨hrequired, rfl, .refl _, ?_⟩
                rcases hcause with ⟨hmissing, rfl⟩ | ⟨hfile, error, hcopy, -⟩
                · refine .inr ⟨hrequired, path, List.find?_cons_of_pos ?_, rfl⟩
                  rw [isLacking_of_name hname, hmissing]
                  rfl
                · exact .inl (.first hname hfile hcopy)
              · rename_i hallowed
                obtain ⟨hrequired, -⟩ := ih h
                exact absurd hrequired hallowed

/-- The file system refuses to write the text of a record whose directory is ready, and a compiled
file, if there is one, cannot be copied either. -/
structure RefusesFile (packager : Packager) (here : Location) (source : Path) (emitted : String)
    (ready : FileTree) : Prop where
  uncopied : ∀ artifact, artifact? ready here source = some artifact →
    ∃ error, FileTree.Access.copy ready here artifact (compiledPath packager source) = .error error
  unwritten : ∃ error, write ready here (packager.packaged source) emitted.toUTF8 = .error error

/-- The file system refuses to make the directory for a record, or a file in it. -/
inductive RefusesRecord (packager : Packager) (here : Location) (source : Path) (emitted : String)
    (tree : FileTree) : Prop
  | directory {parent : Path} {error : FileError} {made : FileTree}
      (hparent : (packager.packaged source).parent? = some parent)
      (hmake : FileTree.Access.makeDirectories tree here parent = (some error, made)) :
      RefusesRecord packager here source emitted tree
  | file {ready : FileTree} (hready : Prepares packager here source tree ready)
      (hfile : RefusesFile packager here source emitted ready) :
      RefusesRecord packager here source emitted tree

/-- A record is refused, when all of those before it have got their files. -/
inductive RefusesRecords (packager : Packager) (here : Location) :
    FileTree → List (Path × String) → Prop
  | first {source : Path} {emitted : String} {tree : FileTree} {rest : List (Path × String)}
      (h : RefusesRecord packager here source emitted tree) :
      RefusesRecords packager here tree ((source, emitted) :: rest)
  | later {source : Path} {emitted : String} {tree ready between : FileTree}
    {rest : List (Path × String)}
      {file : PackagedFile} (hready : Prepares packager here source tree ready)
      (hplaces : Places packager here source emitted ready file between)
      (h : RefusesRecords packager here between rest) :
      RefusesRecords packager here tree ((source, emitted) :: rest)

/-- The file system refuses to make the output directory, to write a record, or to copy an auxiliary
file that is required and there. -/
inductive Refuses (packager : Packager) (here : Location) (tree : FileTree)
    (records : List (Path × String)) :
    Prop
  | output {error : FileError} {made : FileTree}
      (hmake : FileTree.Access.makeDirectories tree here packager.output = (some error, made)) :
      Refuses packager here tree records
  | record {made : FileTree}
    (hmade : FileTree.Access.makeDirectories tree here packager.output = (none, made))
      (hrecords : RefusesRecords packager here made records) : Refuses packager here tree records
  | auxiliary {made packed : FileTree} {files : List PackagedFile}
      (hmade : FileTree.Access.makeDirectories tree here packager.output = (none, made))
      (hplaces : PlacesAll packager here made records files packed)
      (hrequired : packager.settings.requireAuxiliaryFiles = true)
      (hcopies : RefusesCopy packager here packed packager.settings.auxiliaryFiles) :
      Refuses packager here tree records

theorem RefusesFile.fails (h : RefusesFile packager w.here source emitted w.files) :
    ∃ path error left, attempted (place packager source emitted) w =
      (.error (.file path error), left) := by
  obtain ⟨error, hwrite⟩ := h.unwritten
  unfold place
  rw [attempted_bind, attempted_get]
  dsimp only
  cases hartifact : artifact? w.files w.here source with
  | none =>
      dsimp only
      rw [attempted_bind, attempted_writeEmitted, hwrite]
      exact ⟨_, _, _, rfl⟩
  | some artifact =>
      obtain ⟨refusal, hcopy⟩ := h.uncopied artifact hartifact
      dsimp only
      rw [attempted_bind, attempted_settle, attempted_copy, hcopy]
      dsimp only
      rw [attempted_bind, attempted_report]
      dsimp only
      rw [attempted_bind, attempted_writeEmitted, noted_files, noted_here, hwrite]
      exact ⟨_, _, _, rfl⟩

theorem refusesFile_of_place (h : attempted (place packager source emitted) w =
    (.error problem, left)) :
    RefusesFile packager w.here source emitted w.files := by
  unfold place at h
  rw [attempted_bind, attempted_get] at h
  dsimp only at h
  cases hartifact : artifact? w.files w.here source with
  | none =>
      rw [hartifact] at h
      dsimp only at h
      rw [attempted_bind, attempted_writeEmitted] at h
      refine ⟨fun artifact hsome => (by cases hartifact.symm.trans hsome), ?_⟩
      cases hwrite : write w.files w.here (packager.packaged source) emitted.toUTF8 with
      | error error => exact ⟨error, rfl⟩
      | ok files =>
          rw [hwrite] at h
          cases h
  | some artifact =>
      rw [hartifact] at h
      dsimp only at h
      rw [attempted_bind, attempted_settle, attempted_copy] at h
      cases hcopy : FileTree.Access.copy w.files w.here artifact (compiledPath packager source) with
      | ok files =>
          rw [hcopy] at h
          cases h
      | error error =>
          rw [hcopy] at h
          dsimp only at h
          rw [attempted_bind, attempted_report] at h
          dsimp only at h
          rw [attempted_bind, attempted_writeEmitted, noted_files, noted_here] at h
          refine ⟨fun other hsome => ?_, ?_⟩
          · cases hartifact.symm.trans hsome
            exact ⟨error, hcopy⟩
          · cases hwrite : write w.files w.here (packager.packaged source) emitted.toUTF8 with
            | error error => exact ⟨error, rfl⟩
            | ok files =>
                rw [hwrite] at h
                cases h

theorem RefusesRecord.fails (h : RefusesRecord packager w.here source emitted w.files) :
    ∃ path error left, attempted (packager.packageFile source emitted) w =
      (.error (.file path error), left) := by
  unfold Packager.packageFile
  cases h with
  | directory hparent hmake =>
      rw [hparent]
      dsimp only
      rw [attempted_bind, attempted_onPath, attempted_makeDirectories, hmake]
      exact ⟨_, _, _, rfl⟩
  | file hready hfile =>
      cases hready with
      | made hparent hmade =>
          rw [hparent]
          dsimp only
          rw [attempted_bind, attempted_onPath, attempted_makeDirectories, hmade]
          exact RefusesFile.fails (w := { w with files := _ }) hfile
      | kept hparent =>
          rw [hparent]
          exact hfile.fails

theorem refusesRecord_of_packageFile
    (h : attempted (packager.packageFile source emitted) w = (.error problem, left)) :
    RefusesRecord packager w.here source emitted w.files := by
  unfold Packager.packageFile at h
  split at h
  · rename_i parent hparent
    rw [attempted_bind, attempted_onPath, attempted_makeDirectories] at h
    rcases hmade : FileTree.Access.makeDirectories w.files w.here parent with ⟨_ | error, ready⟩
    · rw [hmade] at h
      exact .file (.made hparent hmade) (refusesFile_of_place (w := { w with files := ready }) h)
    · exact .directory hparent hmade
  · rename_i hparent
    exact .file (.kept hparent) (refusesFile_of_place h)

theorem RefusesRecords.fails (h : RefusesRecords packager here tree records) (hhere : w.here = here)
    (htree : w.files = tree) :
    ∃ path error left, attempted (packageFiles packager records) w =
      (.error (.file path error), left) := by
  induction h generalizing w with
  | first hrecord =>
      subst hhere htree
      obtain ⟨path, error, left, hfails⟩ := hrecord.fails
      rw [attempted_packageFiles_cons, hfails]
      exact ⟨_, _, _, rfl⟩
  | @later source emitted tree ready between rest file hready hplaces hrest ih =>
      subst hhere htree
      obtain ⟨log, hfirst⟩ := leaves_of_prepares hready hplaces
      obtain ⟨path, error, left, hfails⟩ := @ih { w with files := between, log } rfl rfl
      rw [attempted_packageFiles_cons, hfirst]
      dsimp only
      rw [hfails]
      exact ⟨_, _, _, rfl⟩

theorem refusesRecords_of_packageFiles
    (h : attempted (packageFiles packager records) w = (.error problem, left)) :
    RefusesRecords packager w.here w.files records := by
  induction records generalizing w problem left with
  | nil => cases h
  | cons record rest ih =>
      obtain ⟨source, emitted⟩ := record
      rw [attempted_packageFiles_cons] at h
      rcases hfirst : attempted (packager.packageFile source emitted) w with ⟨_ | file, between⟩
      · exact .first (refusesRecord_of_packageFile hfirst)
      · obtain ⟨ready, placed, hready, hplaces⟩ := exists_of_packageFile hfirst
        obtain ⟨log, hleft⟩ := leaves_of_prepares hready hplaces
        rw [hleft] at h
        dsimp only at h
        rcases hrest : attempted (packageFiles packager rest) { w with files := placed, log } with
          ⟨_ | others, last⟩
        · exact .later hready hplaces (ih (w := { w with files := placed, log }) hrest)
        · rw [hrest] at h
          cases h

theorem Refuses.fails (h : Refuses packager w.here w.files records) :
    ∃ path error left, attempted (packager.package records) w =
      (.error (.file path error), left) := by
  rw [attempted_package, attempted_onPath, attempted_makeDirectories]
  cases h with
  | output hmake =>
      rw [hmake]
      exact ⟨_, _, _, rfl⟩
  | @record made hmade hrecords =>
      obtain ⟨path, error, left, hfails⟩ := hrecords.fails (w := { w with files := made }) rfl rfl
      rw [hmade]
      dsimp only [Except.mapError]
      rw [hfails]
      exact ⟨_, _, _, rfl⟩
  | @auxiliary made packed files hmade hplaces hrequired hcopies =>
      obtain ⟨log, hfiles⟩ := leaves_of_placesAll (w := { w with files := made }) hplaces rfl rfl
      obtain ⟨path, error, left, hfails⟩ :=
        hcopies.fails (w := { w with files := packed, log }) rfl rfl hrequired { files }
      rw [hmade]
      dsimp only [Except.mapError]
      rw [hfiles]
      dsimp only
      rw [hfails]
      exact ⟨_, _, _, rfl⟩

/-- Packaging fails only if the file system refuses something, or where an auxiliary file is
required that is not there. Then all records have their files. -/
theorem refuses_or_lacks (h : attempted (packager.package records) w = (.error problem, left)) :
    Refuses packager w.here w.files records ∨
      left.here = w.here ∧
        Lacks packager w.here packager.settings.auxiliaryFiles left.files problem ∧
        ∃ made files packed, FileTree.Access.makeDirectories w.files w.here packager.output =
          (none, made) ∧
          PlacesAll packager w.here made records files packed ∧ Extends packed left.files := by
  rw [attempted_package, attempted_onPath, attempted_makeDirectories] at h
  rcases hmade : FileTree.Access.makeDirectories w.files w.here packager.output with
    ⟨_ | error, made⟩
  · rw [hmade] at h
    dsimp only [Except.mapError] at h
    rcases hplace : attempted (packageFiles packager records) { w with files := made } with
      ⟨error | files, packed⟩
    · exact .inl
        (.record hmade (refusesRecords_of_packageFiles (w := { w with files := made }) hplace))
    · obtain ⟨tree, hplaces⟩ := exists_of_packageFiles hplace
      obtain ⟨log, hleft⟩ := leaves_of_placesAll (w := { w with files := made }) hplaces rfl rfl
      rw [hleft] at h
      dsimp only at h
      rcases hcopy : attempted (packager.copyAuxiliaries packager.settings.auxiliaryFiles { files })
          { w with files := tree, log } with ⟨error | summary, after⟩
      · rw [hcopy] at h
        cases h
        obtain ⟨hrequired, hhere, hextends, hends⟩ := refuses_or_lacks_of_copyAuxiliaries hcopy
        refine hends.imp (.auxiliary hmade hplaces hrequired) fun hlacks => ?_
        exact ⟨hhere, hlacks, made, files, tree, rfl, hplaces, hextends⟩
      · rw [hcopy] at h
        cases h
  · exact .inl (.output hmade)

end Cythonizer.Proofs.Packaging.Refusals
