import Cythonizer.Proofs.FileTree.Persistence
import Cythonizer.Proofs.Packaging.Turns
import Cythonizer.Proofs.Workspace.Logs

namespace Cythonizer.Proofs.Packaging.Endings

open Cythonizer.FileTree.Access
open Cythonizer.FileTree.Basic
open Cythonizer.Packaging.Basic
open Cythonizer.Path.Basic
open Cythonizer.Workspace.Basic
open Cythonizer.Proofs.FileTree.Persistence
open Cythonizer.Proofs.Packaging.Turns
open Cythonizer.Proofs.Workspace.Logs

variable {packager : Packager} {here : Location} {w left : Workspace} {tree ready after : FileTree}
  {source output : Path} {emitted : String} {file : PackagedFile}
    {files : List PackagedFile} {kind : Kind}
  {records : List (Path × String)} {auxiliaries : List Path} {summary result : Summary}
    {problem : Problem}

section Successes

theorem extends_of_prepares (h : Prepares packager here source tree ready) :
    Extends tree ready := by
  cases h with
  | made hparent hmade => exact extends_of_makeDirectories hmade
  | kept hparent => exact .refl tree

theorem extends_of_copied {destination : Path}
    (h : copied? tree here source destination = some after) :
    Extends tree after ∧ isFile after here source = true := by
  obtain ⟨hfile, hcopy⟩ := isFile_of_copied? h
  exact ⟨(extends_of_copy hcopy).1, (extends_of_copy hcopy).1.isFile hfile⟩

/-- Whether a path has a file name and leads to no regular file from a project. -/
def isLacking (project : Path) (here : Location) (tree : FileTree) (path : Path) : Bool :=
  path.fileName?.isSome && !isFile tree here (project.join path)

theorem isLacking_of_name {project path : Path} {name : String}
    (hname : path.fileName? = some name) :
    isLacking project here tree path = !isFile tree here (project.join path) := by
  simp [isLacking, hname]

theorem extends_of_copies (h : Copies packager here tree auxiliaries summary result after) :
    Extends tree after ∧ (packager.settings.requireAuxiliaryFiles = true →
      ∀ path ∈ auxiliaries, isLacking packager.project here after path = false) := by
  induction h with
  | done tree summary => exact ⟨.refl tree, by simp⟩
  | nameless hname rest ih =>
      refine ⟨ih.1, fun hrequired => List.forall_mem_cons.mpr ⟨?_, ih.2 hrequired⟩⟩
      simp [isLacking, hname]
  | copied hname hcopied rest ih =>
      obtain ⟨hfirst, hfile⟩ := extends_of_copied hcopied
      refine ⟨hfirst.trans ih.1, fun hrequired => List.forall_mem_cons.mpr ⟨?_, ih.2 hrequired⟩⟩
      rw [isLacking_of_name hname, ih.1.isFile hfile]
      rfl
  | missing hname hmissing hallowed rest ih =>
      refine ⟨ih.1, fun hrequired => ?_⟩
      rw [hallowed] at hrequired
      cases hrequired

variable [Encoding]

theorem extends_of_places (h : Places packager here source emitted ready file after) :
    Extends ready after ∧ isFile after here file.output = true := by
  cases h with
  | emitted hnone hwrite => exact extends_of_write hwrite
  | compiled hartifact hcopy => exact extends_of_copy hcopy
  | fallback hartifact hcopy hwrite => exact extends_of_write hwrite

theorem isFile_of_placesAll (h : PlacesAll packager here tree records files after) :
    Extends tree after ∧ ∀ file ∈ files, isFile after here file.output = true := by
  induction h with
  | done tree => exact ⟨.refl tree, by simp⟩
  | next hready hplaces rest ih =>
      obtain ⟨hplaced, hfile⟩ := extends_of_places hplaces
      obtain ⟨hlater, hfiles⟩ := ih
      refine ⟨(extends_of_prepares hready).trans (hplaced.trans hlater), fun other hother => ?_⟩
      rcases List.mem_cons.mp hother with rfl | hother
      · exact hlater.isFile hfile
      · exact hfiles other hother

theorem extends_of_packs (h : Packs packager here tree records summary after) :
    Extends tree after := by
  obtain ⟨hmade, hplaces, hcopies⟩ := h
  exact (extends_of_makeDirectories hmade).trans
    ((isFile_of_placesAll hplaces).1.trans (extends_of_copies hcopies).1)

theorem isDirectory_of_packs (h : Packs packager here tree records summary after)
    (houtput : packager.output.text ≠ "") :
    isDirectory after here packager.output = true ∧
      ∀ file ∈ summary.files, isFile after here file.output = true := by
  obtain ⟨hmade, hplaces, hcopies⟩ := h
  obtain ⟨hpacked, hfiles⟩ := isFile_of_placesAll hplaces
  have hcopied := (extends_of_copies hcopies).1
  refine ⟨(hpacked.trans hcopied).isDirectory (isDirectory_of_makeDirectories hmade houtput), ?_⟩
  rw [files_of_copies hcopies]
  exact fun file hfile => hcopied.isFile (hfiles file hfile)

end Successes

section Logs

theorem writeEmitted_ignoresLog (source output : Path) (emitted : String) (kind : Kind) :
    IgnoresLog (writeEmitted source output emitted kind) :=
  .bind (.adapt _ (.writeText _ _)) fun _ => .pure _

theorem copyAuxiliary_ignoresLog (source destination : Path) :
    IgnoresLog (copyAuxiliary source destination) := by
  refine .get (fun w => ?_) fun _ _ => rfl
  split
  · exact .adapt _ (.copy _ _)
  · exact .throw _

variable [Encoding]

theorem place_ignoresLog (packager : Packager) (source : Path) (emitted : String) :
    IgnoresLog (place packager source emitted) := by
  refine .get (fun w => ?_) fun _ _ => rfl
  split
  · exact .bind (writeEmitted_ignoresLog _ _ _ _) fun _ => .bind (.log _) fun _ => .pure _
  · refine .bind (.settle (.copy _ _)) fun result => ?_
    split
    · exact .bind (.log _) fun _ => .pure _
    · exact .bind (.log _) fun _ => .bind (writeEmitted_ignoresLog _ _ _ _) fun _ =>
        .bind (.log _) fun _ => .pure _

theorem packageFile_ignoresLog (packager : Packager) (source : Path) (emitted : String) :
    IgnoresLog (packager.packageFile source emitted) := by
  unfold Packager.packageFile
  split
  · exact .bind (.adapt _ (.makeDirectories _)) fun _ => place_ignoresLog _ _ _
  · exact place_ignoresLog _ _ _

theorem packageFiles_ignoresLog (packager : Packager) (records : List (Path × String)) :
    IgnoresLog (packageFiles packager records) := by
  induction records with
  | nil => exact .pure _
  | cons record rest ih =>
      rw [packageFiles, List.mapM_cons]
      exact .bind (packageFile_ignoresLog _ _ _) fun _ => .bind ih fun _ => .pure _

theorem copyAuxiliaries_ignoresLog (packager : Packager) (auxiliaries : List Path)
    (summary : Summary) :
    IgnoresLog (packager.copyAuxiliaries auxiliaries summary) := by
  induction auxiliaries generalizing summary with
  | nil => exact .pure _
  | cons path rest ih =>
      unfold Packager.copyAuxiliaries
      split
      · exact ih summary
      · refine .bind (.settle (copyAuxiliary_ignoresLog _ _)) fun result => ?_
        split
        · exact ih _
        · split
          · exact .bind (.throw _) fun _ => .bind (.log _) fun _ => ih _
          · exact .bind (.log _) fun _ => ih _

theorem package_ignoresLog (packager : Packager) (records : List (Path × String)) :
    IgnoresLog (packager.package records) :=
  .bind (.adapt _ (.makeDirectories _)) fun _ => .bind (packageFiles_ignoresLog _ _) fun _ =>
    .bind (copyAuxiliaries_ignoresLog _ _ _) fun _ => .bind (.log _) fun _ =>
      .bind (.log _) fun _ => .pure _

end Logs

end Cythonizer.Proofs.Packaging.Endings
