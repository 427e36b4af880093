import Cythonizer.Packaging.Basic
import Cythonizer.Proofs.Workspace.Runs

namespace Cythonizer.Proofs.Packaging.Turns

open Cythonizer.FileTree.Access
open Cythonizer.FileTree.Basic
open Cythonizer.Packaging.Artifact
open Cythonizer.Packaging.Basic
open Cythonizer.Path.Basic
open Cythonizer.Workspace.Basic
open Cythonizer.Proofs.Workspace.Runs

variable {packager : Packager} {here : Location} {w : Workspace}
    {tree ready between after : FileTree}
  {path source output : Path} {emitted : String} {file : PackagedFile} {files : List PackagedFile}
  {records : List (Path × String)} {auxiliaries : List Path} {summary result : Summary}

/-- How the directory for the place of a source is made. -/
inductive Prepares (packager : Packager) (here : Location) (source : Path) (tree : FileTree) :
    FileTree → Prop
  | made {parent : Path} {ready : FileTree}
    (hparent : (packager.packaged source).parent? = some parent)
      (hmade : FileTree.Access.makeDirectories tree here parent = (none, ready)) :
      Prepares packager here source tree ready
  | kept (hparent : (packager.packaged source).parent? = none) :
      Prepares packager here source tree tree

/-- The tree with an auxiliary file copied, if there is such a file and it can be copied. -/
def copied? (tree : FileTree) (here : Location) (source destination : Path) : Option FileTree :=
  if isFile tree here source then
    (FileTree.Access.copy tree here source destination).toOption else none

theorem isFile_of_copied? (h : copied? tree here source path = some after) :
    isFile tree here source = true ∧ FileTree.Access.copy tree here source path = .ok after := by
  unfold copied? at h
  split at h
  · rename_i hfile
    refine ⟨hfile, ?_⟩
    cases hcopy : FileTree.Access.copy tree here source path with
    | error error =>
        rw [hcopy] at h
        cases h
    | ok copied =>
        rw [hcopy] at h
        cases h
        rfl
  · cases h

/-- Auxiliary files are copied one after another. -/
inductive Copies (packager : Packager) (here : Location) :
    FileTree → List Path → Summary → Summary → FileTree → Prop
  | done (tree : FileTree) (summary : Summary) : Copies packager here tree [] summary summary tree
  | nameless {tree after : FileTree} {file : Path} {files : List Path} {summary result : Summary}
      (hname : file.fileName? = none)
      (rest : Copies packager here tree files summary result after) :
      Copies packager here tree (file :: files) summary result after
  | copied {tree between after : FileTree} {file : Path} {files : List Path}
    {summary result : Summary}
      {name : String} (hname : file.fileName? = some name)
      (hcopied : copied? tree here (packager.project.join file)
        (packager.output.join ⟨name⟩) = some between)
      (rest : Copies packager here between files
        { summary with
          auxiliaryCopied := summary.auxiliaryCopied ++ [packager.output.join ⟨name⟩] } result
            after) :
      Copies packager here tree (file :: files) summary result after
  | missing {tree after : FileTree} {file : Path} {files : List Path} {summary result : Summary}
      {name : String} (hname : file.fileName? = some name)
      (hmissing : copied? tree here (packager.project.join file)
        (packager.output.join ⟨name⟩) = none)
      (hallowed : packager.settings.requireAuxiliaryFiles = false)
      (rest : Copies packager here tree files
        { summary with
          auxiliaryMissing := summary.auxiliaryMissing ++ [packager.project.join file] } result
            after) :
      Copies packager here tree (file :: files) summary result after

theorem files_of_copies (h : Copies packager here tree auxiliaries summary result after) :
    result.files = summary.files := by
  induction h with
  | done tree summary => rfl
  | nameless hname rest ih => exact ih
  | copied hname hcopied rest ih => exact ih
  | missing hname hmissing hallowed rest ih => exact ih

/-- An attempt that gives a result and changes the files and the log of a workspace only. -/
def Leaves {ε α : Type} (attempt : Attempt ε α) (w : Workspace) (a : α) (files : FileTree) : Prop :=
  ∃ log, attempted attempt w = (.ok a, { w with files, log })

theorem attempted_writeEmitted (kind : Kind) :
    attempted (writeEmitted source output emitted kind) w =
      match write w.files w.here output emitted.toUTF8 with
      | .ok files => (.ok { source, output, kind }, { w with files })
      | .error error => (.error (.file output error), w) := by
  rw [writeEmitted, attempted_bind, attempted_onPath, attempted_writeText]
  cases write w.files w.here output emitted.toUTF8 with
  | ok files => rfl
  | error error => rfl

theorem attempted_copyAuxiliary_some {source destination : Path}
    (h : copied? w.files w.here source destination = some after) :
    attempted (copyAuxiliary source destination) w = (.ok (), { w with files := after }) := by
  unfold copied? at h
  split at h
  · rename_i hfile
    rw [copyAuxiliary, attempted_bind, attempted_get]
    dsimp only
    rw [if_pos hfile, attempted_onPath, attempted_copy]
    cases hcopy : FileTree.Access.copy w.files w.here source destination with
    | ok files =>
        rw [hcopy] at h
        cases h
        rfl
    | error error =>
        rw [hcopy] at h
        cases h
  · cases h

theorem attempted_copyAuxiliary_none {source destination : Path}
    (h : copied? w.files w.here source destination = none) :
    ∃ problem, attempted (copyAuxiliary source destination) w = (.error problem, w) ∧
      (isFile w.files w.here source = false ∧ problem = .missingAuxiliary source ∨
        isFile w.files w.here source = true ∧
          ∃ error, FileTree.Access.copy w.files w.here source destination = .error error ∧
            problem = .file source error) := by
  unfold copied? at h
  rw [copyAuxiliary, attempted_bind, attempted_get]
  dsimp only
  split at h
  · rename_i hfile
    rw [if_pos hfile, attempted_onPath, attempted_copy]
    cases hcopy : FileTree.Access.copy w.files w.here source destination with
    | ok files =>
        rw [hcopy] at h
        cases h
    | error error => exact ⟨_, rfl, .inr ⟨hfile, error, rfl, rfl⟩⟩
  · rename_i hfile
    rw [if_neg hfile]
    exact ⟨_, rfl, .inl ⟨by simpa using hfile, rfl⟩⟩

variable [Encoding]

/-- What a record becomes in a tree where its directory is ready. -/
inductive Places (packager : Packager) (here : Location) (source : Path) (emitted : String)
    (ready : FileTree) : PackagedFile → FileTree → Prop
  | emitted {after : FileTree} (hnone : artifact? ready here source = none)
      (hwrite : write ready here (packager.packaged source) emitted.toUTF8 = .ok after) :
      Places packager here source emitted ready
        { source, output := packager.packaged source, kind := .emitted } after
  | compiled {artifact : Path} {after : FileTree}
    (hartifact : artifact? ready here source = some artifact)
      (hcopy : FileTree.Access.copy ready here artifact
        (compiledPath packager source) = .ok after) :
      Places packager here source emitted ready
        { source, output := compiledPath packager source, kind := .compiled } after
  | fallback {artifact : Path} {error : FileError} {after : FileTree}
      (hartifact : artifact? ready here source = some artifact)
      (hcopy : FileTree.Access.copy ready here artifact
        (compiledPath packager source) = .error error)
      (hwrite : write ready here (packager.packaged source) emitted.toUTF8 = .ok after) :
      Places packager here source emitted ready
        { source, output := packager.packaged source, kind := .copyFallback } after

/-- Records get their files one after another. -/
inductive PlacesAll (packager : Packager) (here : Location) :
    FileTree → List (Path × String) → List PackagedFile → FileTree → Prop
  | done (tree : FileTree) : PlacesAll packager here tree [] [] tree
  | next {source : Path} {emitted : String} {tree ready between after : FileTree}
      {records : List (Path × String)} {file : PackagedFile} {files : List PackagedFile}
      (hready : Prepares packager here source tree ready)
      (hplaces : Places packager here source emitted ready file between)
      (rest : PlacesAll packager here between records files after) :
      PlacesAll packager here tree ((source, emitted) :: records) (file :: files) after

/-- From the tree before to the one that packaging leaves behind. -/
inductive Packs (packager : Packager) (here : Location) (tree : FileTree)
    (records : List (Path × String)) (summary : Summary) (after : FileTree) : Prop
  | intro {made packed : FileTree} {files : List PackagedFile}
      (hmade : FileTree.Access.makeDirectories tree here packager.output = (none, made))
      (hplaces : PlacesAll packager here made records files packed)
      (hcopies : Copies packager here packed packager.settings.auxiliaryFiles
        { files } summary after)

theorem leaves_of_places (h : Places packager w.here source emitted w.files file after) :
    Leaves (place packager source emitted) w file after := by
  unfold Leaves place
  rw [attempted_bind, attempted_get]
  dsimp only
  cases h with
  | emitted hnone hwrite =>
      rw [hnone]
      dsimp only
      rw [attempted_bind, attempted_writeEmitted, hwrite]
      exact ⟨_, rfl⟩
  | compiled hartifact hcopy =>
      rw [hartifact]
      dsimp only
      rw [attempted_bind, attempted_settle, attempted_copy, hcopy]
      exact ⟨_, rfl⟩
  | fallback hartifact hcopy hwrite =>
      rw [hartifact]
      dsimp only
      rw [attempted_bind, attempted_settle, attempted_copy, hcopy]
      dsimp only
      rw [attempted_bind, attempted_report]
      dsimp only
      rw [attempted_bind, attempted_writeEmitted, noted_files, noted_here, hwrite]
      exact ⟨_, rfl⟩

theorem exists_of_place {w' : Workspace}
    (h : attempted (place packager source emitted) w = (.ok file, w')) :
    ∃ after, Places packager w.here source emitted w.files file after := by
  unfold place at h
  rw [attempted_bind, attempted_get] at h
  dsimp only at h
  cases hartifact : artifact? w.files w.here source with
  | none =>
      rw [hartifact] at h
      dsimp only at h
      rw [attempted_bind, attempted_writeEmitted] at h
      cases hwrite : write w.files w.here (packager.packaged source) emitted.toUTF8 with
      | error error =>
          rw [hwrite] at h
          cases h
      | ok files =>
          rw [hwrite] at h
          cases h
          exact ⟨files, .emitted hartifact hwrite⟩
  | some artifact =>
      rw [hartifact] at h
      dsimp only at h
      rw [attempted_bind, attempted_settle, attempted_copy] at h
      cases hcopy : FileTree.Access.copy w.files w.here artifact (compiledPath packager source) with
      | ok files =>
          rw [hcopy] at h
          cases h
          exact ⟨files, .compiled hartifact hcopy⟩
      | error error =>
          rw [hcopy] at h
          dsimp only at h
          rw [attempted_bind, attempted_report] at h
          dsimp only at h
          rw [attempted_bind, attempted_writeEmitted, noted_files, noted_here] at h
          cases hwrite : write w.files w.here (packager.packaged source) emitted.toUTF8 with
          | error error =>
              rw [hwrite] at h
              cases h
          | ok files =>
              rw [hwrite] at h
              cases h
              exact ⟨files, .fallback hartifact hcopy hwrite⟩

theorem leaves_of_prepares (hready : Prepares packager w.here source w.files ready)
    (hplaces : Places packager w.here source emitted ready file after) :
    Leaves (packager.packageFile source emitted) w file after := by
  unfold Leaves Packager.packageFile
  cases hready with
  | made hparent hmade =>
      rw [hparent]
      dsimp only
      rw [attempted_bind, attempted_onPath, attempted_makeDirectories, hmade]
      exact leaves_of_places (w := { w with files := ready }) hplaces
  | kept hparent =>
      rw [hparent]
      exact leaves_of_places hplaces

theorem exists_of_packageFile {w' : Workspace}
    (h : attempted (packager.packageFile source emitted) w = (.ok file, w')) :
    ∃ ready after, Prepares packager w.here source w.files ready ∧
      Places packager w.here source emitted ready file after := by
  unfold Packager.packageFile at h
  split at h
  · rename_i parent hparent
    rw [attempted_bind, attempted_onPath, attempted_makeDirectories] at h
    rcases hmade : FileTree.Access.makeDirectories w.files w.here parent with ⟨_ | error, ready⟩
    · rw [hmade] at h
      obtain ⟨after, hplaces⟩ := exists_of_place (w := { w with files := ready }) h
      exact ⟨ready, after, .made hparent hmade, hplaces⟩
    · rw [hmade] at h
      cases h
  · rename_i hparent
    obtain ⟨after, hplaces⟩ := exists_of_place h
    exact ⟨w.files, after, .kept hparent, hplaces⟩

def packageFiles (packager : Packager) (records : List (Path × String)) :
    Attempt Problem (List PackagedFile) :=
  records.mapM fun (source, emitted) => packager.packageFile source emitted

theorem attempted_packageFiles_cons :
    attempted (packageFiles packager ((source, emitted) :: records)) w =
      match attempted (packager.packageFile source emitted) w with
      | (.ok file, between) =>
        match attempted (packageFiles packager records) between with
        | (.ok files, after) => (.ok (file :: files), after)
        | (.error problem, after) => (.error problem, after)
      | (.error problem, after) => (.error problem, after) := by
  rw [packageFiles, List.mapM_cons, ← packageFiles, attempted_bind]
  rcases attempted (packager.packageFile source emitted) w with ⟨_ | file, between⟩
  · rfl
  · dsimp only
    rw [attempted_bind]
    rcases attempted (packageFiles packager records) between with ⟨_ | files, after⟩ <;> rfl

theorem leaves_of_placesAll (h : PlacesAll packager here tree records files after)
    (hhere : w.here = here) (htree : w.files = tree) :
    Leaves (packageFiles packager records) w files after := by
  induction h generalizing w with
  | done tree =>
      subst htree
      exact ⟨w.log, rfl⟩
  | @next source emitted tree ready between after records file files hready hplaces rest ih =>
      subst hhere htree
      obtain ⟨log, hfirst⟩ := leaves_of_prepares hready hplaces
      obtain ⟨last, hrest⟩ := @ih { w with files := between, log } rfl rfl
      rw [Leaves, attempted_packageFiles_cons, hfirst]
      dsimp only
      rw [hrest]
      exact ⟨last, rfl⟩

theorem exists_of_packageFiles {w' : Workspace}
    (h : attempted (packageFiles packager records) w =
      (.ok files, w')) :
    ∃ after, PlacesAll packager w.here w.files records files after := by
  induction records generalizing w files w' with
  | nil =>
      have hnil : (Except.ok [], w) = (Except.ok files, w') := h
      cases hnil
      exact ⟨w.files, .done w.files⟩
  | cons record rest ih =>
      obtain ⟨source, emitted⟩ := record
      rw [attempted_packageFiles_cons] at h
      rcases hfirst : attempted (packager.packageFile source emitted) w with ⟨_ | file, between⟩
      · rw [hfirst] at h
        cases h
      · obtain ⟨ready, placed, hready, hplaces⟩ := exists_of_packageFile hfirst
        obtain ⟨log, hleft⟩ := leaves_of_prepares hready hplaces
        rw [hleft] at hfirst h
        cases hfirst
        dsimp only at h
        rcases hrest : attempted (packageFiles packager rest)
          { w with files := placed, log } with ⟨_ | others, last⟩
        · rw [hrest] at h
          cases h
        · rw [hrest] at h
          dsimp only at h
          rw [Prod.mk.injEq, Except.ok.injEq] at h
          obtain ⟨rfl, -⟩ := h
          obtain ⟨after, hafter⟩ := ih hrest
          exact ⟨after, .next hready hplaces hafter⟩

theorem copyAuxiliaries_nameless (h : path.fileName? = none) (rest : List Path)
    (summary : Summary) :
    packager.copyAuxiliaries (path :: rest) summary = packager.copyAuxiliaries rest summary := by
  rw [Packager.copyAuxiliaries, h]

theorem attempted_copyAuxiliaries_cons {name : String} (h : path.fileName? = some name)
    (rest : List Path) (summary : Summary) :
    attempted (packager.copyAuxiliaries (path :: rest) summary) w =
      match attempted
        (copyAuxiliary (packager.project.join path) (packager.output.join ⟨name⟩)) w with
      | (.ok _, between) =>
        attempted (packager.copyAuxiliaries rest
          { summary with
            auxiliaryCopied := summary.auxiliaryCopied ++ [packager.output.join ⟨name⟩] }) between
      | (.error problem, between) =>
        if packager.settings.requireAuxiliaryFiles then (.error problem, between)
        else
          attempted (packager.copyAuxiliaries rest
            { summary with
              auxiliaryMissing := summary.auxiliaryMissing ++ [packager.project.join path] })
            (noted { level := .error, message :=
              "Skipping auxiliary file", cause := some problem.failure }
              between) := by
  rw [Packager.copyAuxiliaries, h]
  dsimp only
  rw [attempted_bind, attempted_settle]
  dsimp only
  rcases attempted (copyAuxiliary (packager.project.join path) (packager.output.join ⟨name⟩)) w with
    ⟨problem | _, between⟩
  · dsimp only
    split
    · rfl
    · rw [attempted_bind, attempted_report]
  · rfl

theorem leaves_of_copies (h : Copies packager here tree auxiliaries summary result after)
    (hhere : w.here = here) (htree : w.files = tree) :
    Leaves (packager.copyAuxiliaries auxiliaries summary) w result after := by
  induction h generalizing w with
  | done tree summary =>
      subst htree
      exact ⟨w.log, rfl⟩
  | nameless hname rest ih =>
      rw [copyAuxiliaries_nameless hname]
      exact ih hhere htree
  | @copied tree between after path rest summary result name hname hcopied hrest ih =>
      subst hhere htree
      obtain ⟨last, hlast⟩ := @ih { w with files := between } rfl rfl
      refine ⟨last, ?_⟩
      rw [attempted_copyAuxiliaries_cons hname, attempted_copyAuxiliary_some hcopied]
      exact hlast
  | @missing tree after path rest summary result name hname hmissing hallowed hrest ih =>
      subst hhere htree
      obtain ⟨problem, hproblem, -⟩ := attempted_copyAuxiliary_none hmissing
      obtain ⟨last, hlast⟩ := @ih
        (noted { level := .error, message :=
          "Skipping auxiliary file", cause := some problem.failure } w)
        rfl rfl
      refine ⟨last, ?_⟩
      rw [attempted_copyAuxiliaries_cons hname, hproblem]
      dsimp only
      rw [if_neg (by simp [hallowed])]
      exact hlast

theorem exists_of_copyAuxiliaries {w' : Workspace}
    (h : attempted (packager.copyAuxiliaries auxiliaries summary) w = (.ok result, w')) :
    ∃ after, Copies packager w.here w.files auxiliaries summary result after := by
  induction auxiliaries generalizing w summary w' with
  | nil =>
      have hnil : (Except.ok summary, w) = (Except.ok result, w') := h
      cases hnil
      exact ⟨w.files, .done _ _⟩
  | cons path rest ih =>
      cases hname : path.fileName? with
      | none =>
          rw [copyAuxiliaries_nameless hname] at h
          obtain ⟨after, hrest⟩ := ih h
          exact ⟨after, .nameless hname hrest⟩
      | some name =>
          rw [attempted_copyAuxiliaries_cons hname] at h
          cases hcopied :
            copied? w.files w.here (packager.project.join path) (packager.output.join ⟨name⟩) with
          | some between =>
              rw [attempted_copyAuxiliary_some hcopied] at h
              obtain ⟨after, hrest⟩ := ih h
              exact ⟨after, .copied hname hcopied hrest⟩
          | none =>
              obtain ⟨problem, hproblem, -⟩ := attempted_copyAuxiliary_none hcopied
              rw [hproblem] at h
              dsimp only at h
              split at h
              · cases h
              · rename_i hallowed
                obtain ⟨after, hrest⟩ := ih h
                exact ⟨after, .missing hname hcopied (by simpa using hallowed) hrest⟩

theorem source_of_places (h : Places packager here source emitted ready file after) :
    file.source = source := by
  cases h <;> rfl

theorem sources_of_placesAll (h : PlacesAll packager here tree records files after) :
    files.map PackagedFile.source = records.map Prod.fst := by
  induction h with
  | done tree => rfl
  | next hready hplaces rest ih => rw [List.map_cons, List.map_cons, source_of_places hplaces, ih]

theorem length_of_placesAll (h : PlacesAll packager here tree records files after) :
    files.length = records.length := by
  have hlength := congrArg List.length (sources_of_placesAll h)
  rwa [List.length_map, List.length_map] at hlength

theorem attempted_package :
    attempted (packager.package records) w =
      match attempted (onPath packager.output (makeDirectories packager.output)) w with
      | (.error problem, made) => (.error problem, made)
      | (.ok _, made) =>
        match attempted (packageFiles packager records) made with
        | (.error problem, packed) => (.error problem, packed)
        | (.ok files, packed) =>
          match attempted
            (packager.copyAuxiliaries packager.settings.auxiliaryFiles { files }) packed with
          | (.error problem, after) => (.error problem, after)
          | (.ok summary, after) =>
            (.ok summary, noted
              { level := .info
                message :=
                  "You can now include this directory in your CI/CD pipeline for further processing or " ++
                    "deployment." }
              (noted { level := .info, message := "Optimized package created at: " ++
                packager.output.shown }
                after)) := by
  rw [Packager.package, ← packageFiles, attempted_bind]
  rcases attempted (onPath packager.output (makeDirectories packager.output)) w with ⟨_ | _, made⟩
  · rfl
  · dsimp only
    rw [attempted_bind]
    rcases attempted (packageFiles packager records) made with
      ⟨_ | files, packed⟩
    · rfl
    · dsimp only
      rw [attempted_bind]
      rcases attempted
        (packager.copyAuxiliaries packager.settings.auxiliaryFiles { files }) packed with
        ⟨_ | summary, after⟩ <;> rfl

theorem leaves_of_packs (h : Packs packager w.here w.files records summary after) :
    Leaves (packager.package records) w summary after := by
  obtain ⟨hmade, hplaces, hcopies⟩ := h
  rename_i made packed files
  obtain ⟨log, hfiles⟩ := leaves_of_placesAll (w := { w with files := made }) hplaces rfl rfl
  obtain ⟨last, hsummary⟩ := leaves_of_copies (w := { w with files := packed, log }) hcopies rfl rfl
  rw [Leaves, attempted_package, attempted_onPath, attempted_makeDirectories, hmade]
  dsimp only [Except.mapError]
  rw [hfiles]
  dsimp only
  rw [hsummary]
  exact ⟨_, rfl⟩

theorem exists_of_package {w' : Workspace}
    (h : attempted (packager.package records) w = (.ok summary, w')) :
    ∃ after log, w' = { w with files := after, log } ∧
      Packs packager w.here w.files records summary after := by
  suffices hpacks : ∃ after, Packs packager w.here w.files records summary after by
    obtain ⟨after, hafter⟩ := hpacks
    obtain ⟨log, hleft⟩ := leaves_of_packs hafter
    rw [hleft] at h
    cases h
    exact ⟨after, log, rfl, hafter⟩
  rw [attempted_package, attempted_onPath, attempted_makeDirectories] at h
  rcases hmade : FileTree.Access.makeDirectories w.files w.here packager.output with
    ⟨_ | error, made⟩
  · rw [hmade] at h
    dsimp only [Except.mapError] at h
    rcases hfiles : attempted (packageFiles packager records)
      { w with files := made } with ⟨_ | files, packed⟩
    · rw [hfiles] at h
      cases h
    · obtain ⟨tree, hplaces⟩ := exists_of_packageFiles hfiles
      obtain ⟨log, hleft⟩ := leaves_of_placesAll (w := { w with files := made }) hplaces rfl rfl
      rw [hleft] at hfiles h
      cases hfiles
      dsimp only at h
      rcases hsummary :
        attempted (packager.copyAuxiliaries packager.settings.auxiliaryFiles { files })
        { w with files := tree, log } with ⟨_ | result, last⟩
      · rw [hsummary] at h
        cases h
      · rw [hsummary] at h
        dsimp only at h
        rw [Prod.mk.injEq, Except.ok.injEq] at h
        obtain ⟨rfl, -⟩ := h
        obtain ⟨after, hcopies⟩ := exists_of_copyAuxiliaries hsummary
        exact ⟨after, hmade, hplaces, hcopies⟩
  · rw [hmade] at h
    cases h

end Cythonizer.Proofs.Packaging.Turns
