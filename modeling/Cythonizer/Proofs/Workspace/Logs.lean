import Cythonizer.Proofs.Workspace.Runs

namespace Cythonizer.Proofs.Workspace.Logs

open Cythonizer.FileTree.Basic
open Cythonizer.Log.Basic
open Cythonizer.Workspace.Basic
open Cythonizer.Proofs.Workspace.Runs

variable {ε ε' α β : Type} {attempt : Attempt ε α}

/-- An attempt that gives the same and leaves the same behind with any log, but for the log itself.
-/
def IgnoresLog (attempt : Attempt ε α) : Prop :=
  ∀ w log, ∃ last,
    attempted attempt { w with log } =
      ((attempted attempt w).1, { (attempted attempt w).2 with log := last })

theorem IgnoresLog.pure (a : α) : IgnoresLog (Pure.pure a : Attempt ε α) :=
  fun _ log => ⟨log, rfl⟩

theorem IgnoresLog.throw (error : ε) : IgnoresLog (MonadExcept.throw error : Attempt ε α) :=
  fun _ log => ⟨log, rfl⟩

theorem IgnoresLog.log (entry : Entry) : IgnoresLog (record entry : Attempt ε Unit) :=
  fun _ log => ⟨log ++ [entry], rfl⟩

theorem IgnoresLog.bind {next : α → Attempt ε β} (h : IgnoresLog attempt)
    (hnext : ∀ a, IgnoresLog (next a)) :
    IgnoresLog (attempt >>= next) := by
  intro w log
  obtain ⟨first, hfirst⟩ := h w log
  rw [attempted_bind, attempted_bind, hfirst]
  rcases attempted attempt w with ⟨error | a, between⟩
  · exact ⟨first, rfl⟩
  · exact hnext a between first

theorem IgnoresLog.get {next : Workspace → Attempt ε α} (hnext : ∀ w, IgnoresLog (next w))
    (hsame : ∀ w log, next { w with log } = next w) : IgnoresLog (MonadState.get >>= next) := by
  intro w log
  obtain ⟨last, hlast⟩ := hnext w w log
  refine ⟨last, ?_⟩
  rw [attempted_bind, attempted_bind]
  change attempted (next { w with log }) { w with log } = _
  rw [hsame]
  exact hlast

theorem IgnoresLog.adapt (f : ε → ε') (h : IgnoresLog attempt) : IgnoresLog (attempt.adapt f) := by
  intro w log
  obtain ⟨last, hlast⟩ := h w log
  exact ⟨last, by rw [attempted_adapt, attempted_adapt, hlast]⟩

theorem IgnoresLog.settle (h : IgnoresLog attempt) :
    IgnoresLog (Workspace.Basic.settle attempt : Attempt ε' (Except ε α)) := by
  intro w log
  obtain ⟨last, hlast⟩ := h w log
  exact ⟨last, by rw [attempted_settle, attempted_settle, hlast]⟩

theorem IgnoresLog.keep (changed : Except FileError FileTree) :
    IgnoresLog (Workspace.Basic.keep changed) := by
  cases changed with
  | ok files => exact fun _ log => ⟨log, rfl⟩
  | error error => exact .throw error

theorem IgnoresLog.writeText (path : Path) (text : String) :
    IgnoresLog (Workspace.Basic.writeText path text) :=
  .get (fun _ => .keep _) fun _ _ => rfl

theorem IgnoresLog.copy (source target : Path) : IgnoresLog (Workspace.Basic.copy source target) :=
  .get (fun _ => .keep _) fun _ _ => rfl

theorem IgnoresLog.makeDirectories (path : Path) :
    IgnoresLog (Workspace.Basic.makeDirectories path) := by
  intro w log
  refine ⟨log, ?_⟩
  rw [attempted_makeDirectories, attempted_makeDirectories]
  rcases FileTree.Access.makeDirectories w.files w.here path with ⟨_ | error, files⟩ <;> rfl

end Cythonizer.Proofs.Workspace.Logs
