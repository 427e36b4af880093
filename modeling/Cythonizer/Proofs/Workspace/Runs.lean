import Cythonizer.Workspace.Basic

namespace Cythonizer.Proofs.Workspace.Runs

open Cythonizer.FileTree.Basic
open Cythonizer.Log.Basic
open Cythonizer.Problem.Basic
open Cythonizer.Workspace.Basic

variable {ε α β : Type} {w : Workspace}

/-- Run an attempt in a workspace. -/
def attempted (attempt : Attempt ε α) (w : Workspace) : Except ε α × Workspace :=
  attempt.run.run w

/-- Run an action in a workspace. -/
def acted (action : Action α) (w : Workspace) : α × Workspace :=
  action.run w

/-- The workspace with one more entry in its log. -/
def noted (entry : Entry) (w : Workspace) : Workspace :=
  { w with log := w.log ++ [entry] }

@[simp]
theorem noted_files (entry : Entry) : (noted entry w).files = w.files := rfl

@[simp]
theorem noted_here (entry : Entry) : (noted entry w).here = w.here := rfl

@[simp]
theorem acted_pure (a : α) : acted (pure a) w = (a, w) := rfl

theorem acted_bind (action : Action α) (next : α → Action β) :
    acted (action >>= next) w = acted (next (acted action w).1) (acted action w).2 := rfl

@[simp]
theorem acted_run (attempt : Attempt ε α) : acted attempt.run w = attempted attempt w := rfl

@[simp]
theorem acted_get : acted get w = (w, w) := rfl

@[simp]
theorem acted_info (message : String) :
    acted (info message) w = ((), noted { level := .info, message } w) :=
  rfl

@[simp]
theorem acted_debug (message : String) :
    acted (debug message) w = ((), noted { level := .debug, message } w) :=
  rfl

@[simp]
theorem acted_report (message : String) (cause : Failure) :
    acted (report message cause) w =
      ((), noted { level := .error, message, cause := some cause } w) :=
  rfl

@[simp]
theorem attempted_pure (a : α) : attempted (pure a : Attempt ε α) w = (.ok a, w) := rfl

@[simp]
theorem attempted_throw (error : ε) : attempted (throw error : Attempt ε α) w = (.error error, w) :=
    rfl

@[simp]
theorem attempted_get : attempted (get : Attempt ε Workspace) w = (.ok w, w) := rfl

@[simp]
theorem attempted_lift (action : Action α) :
    attempted (ExceptT.lift action : Attempt ε α) w =
      (.ok (acted action w).1, (acted action w).2) :=
  rfl

theorem attempted_bind (attempt : Attempt ε α) (next : α → Attempt ε β) :
    attempted (attempt >>= next) w =
      match attempted attempt w with
      | (.ok a, after) => attempted (next a) after
      | (.error error, after) => (.error error, after) := by
  change (ExceptT.bindCont next (attempted attempt w).1).run (attempted attempt w).2 = _
  cases h : attempted attempt w with
  | mk result after =>
      cases result with
      | ok a => rfl
      | error error => rfl

@[simp]
theorem attempted_adapt {ε ε' α : Type} (f : ε → ε') (attempt : Attempt ε α) :
    attempted (attempt.adapt f) w = ((attempted attempt w).1.mapError f, (attempted attempt w).2) :=
  rfl

@[simp]
theorem attempted_info {ε : Type} (message : String) :
    attempted (ε := ε) (info message) w = (.ok (), noted { level := .info, message } w) :=
  rfl

@[simp]
theorem attempted_debug {ε : Type} (message : String) :
    attempted (ε := ε) (debug message) w = (.ok (), noted { level := .debug, message } w) :=
  rfl

@[simp]
theorem attempted_report {ε : Type} (message : String) (cause : Failure) :
    attempted (ε := ε) (report message cause) w =
      (.ok (), noted { level := .error, message, cause := some cause } w) :=
  rfl

@[simp]
theorem attempted_readText (path : Path) :
    attempted (readText path) w = (FileTree.Access.readText w.files w.here path, w) := by
  unfold readText
  rw [attempted_bind, attempted_get]
  dsimp only
  cases FileTree.Access.readText w.files w.here path with
  | ok text => rfl
  | error error => rfl

@[simp]
theorem attempted_writeText (path : Path) (text : String) :
    attempted (writeText path text) w =
      match FileTree.Access.write w.files w.here path text.toUTF8 with
      | .ok files => (.ok (), { w with files })
      | .error error => (.error error, w) := by
  unfold writeText
  rw [attempted_bind, attempted_get]
  dsimp only
  cases FileTree.Access.write w.files w.here path text.toUTF8 with
  | ok files => rfl
  | error error => rfl

@[simp]
theorem attempted_copy (source target : Path) :
    attempted (copy source target) w =
      match FileTree.Access.copy w.files w.here source target with
      | .ok files => (.ok (), { w with files })
      | .error error => (.error error, w) := by
  unfold copy
  rw [attempted_bind, attempted_get]
  dsimp only
  cases FileTree.Access.copy w.files w.here source target with
  | ok files => rfl
  | error error => rfl

@[simp]
theorem attempted_makeDirectories (path : Path) :
    attempted (makeDirectories path) w =
      match FileTree.Access.makeDirectories w.files w.here path with
      | (some error, files) => (.error error, { w with files })
      | (none, files) => (.ok (), { w with files }) := by
  unfold makeDirectories
  rw [attempted_bind, attempted_get]
  dsimp only
  cases FileTree.Access.makeDirectories w.files w.here path with
  | mk error files =>
      cases error with
      | none => rfl
      | some error => rfl

@[simp]
theorem attempted_settle {ε' : Type} (attempt : Attempt ε α) :
    attempted (settle attempt : Attempt ε' (Except ε α)) w =
      (.ok (attempted attempt w).1, (attempted attempt w).2) :=
  rfl

@[simp]
theorem attempted_onPath (path : Path) (attempt : Attempt FileError α) :
    attempted (onPath path attempt) w =
      ((attempted attempt w).1.mapError (Problem.file path), (attempted attempt w).2) :=
  rfl

end Cythonizer.Proofs.Workspace.Runs
