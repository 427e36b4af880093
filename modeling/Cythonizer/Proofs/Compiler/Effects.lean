import Cythonizer.Compiler.Basic
import Cythonizer.Proofs.FileTree.Writing
import Cythonizer.Proofs.Workspace.Runs

namespace Cythonizer.Proofs.Compiler.Effects

open Cythonizer.Compiler.Basic
open Cythonizer.Compiler.Command
open Cythonizer.Compiler.Program
open Cythonizer.Compiler.Tool
open Cythonizer.Log.Basic
open Cythonizer.Path.Basic
open Cythonizer.Settings.Basic
open Cythonizer.Workspace.Basic
open Cythonizer.Proofs.FileTree.Growth
open Cythonizer.Proofs.FileTree.Writing
open Cythonizer.Proofs.Workspace.Runs

variable {ε ε' α β : Type} {w between after : Workspace} {texts : Path → Prop}
  {calls : List (Workspace × Workspace)}

/-- From one workspace to another without removing anything. -/
structure Advances (w after : Workspace) : Prop where
  here : after.here = w.here
  grows : Grows (fun _ => true) w.here w.files after.files

theorem Advances.plain (h : Advances w after) : IsPlain after.files after.here :=
  h.here ▸ h.grows.plain

theorem Advances.refl (h : IsPlain w.files w.here) : Advances w w :=
  ⟨rfl, .refl _ h⟩

theorem Advances.trans (h : Advances w between) (hrest : Advances between after) :
    Advances w after :=
  ⟨hrest.here.trans h.here, h.grows.trans (h.here ▸ hrest.grows)⟩

/-- From one workspace to another by writing files and making directories. -/
structure Fills (w after : Workspace) : Prop where
  here : after.here = w.here
  files : ByAdding w.here w.files after.files

theorem Fills.refl (w : Workspace) : Fills w w :=
  ⟨rfl, .refl⟩

theorem Fills.trans (h : Fills w between) (hrest : Fills between after) : Fills w after :=
  ⟨hrest.here.trans h.here, h.files.trans (h.here ▸ hrest.files)⟩

theorem Fills.advances (h : Fills w after) (hplain : IsPlain w.files w.here) : Advances w after :=
  ⟨h.here, grows_of_byAdding hplain h.files⟩

theorem Fills.sound (h : Fills w after) (hsound : IsSound w.files w.here) :
    IsSound after.files after.here :=
  h.here ▸ hsound.byAdding h.files

section

variable [Tools]

/-- From one workspace to another with texts that are written at some paths and calls of tools,
which are listed with the workspaces before and after them. The log may change. -/
inductive Proceeds (texts : Path → Prop) : Workspace → List (Workspace × Workspace) →
    Workspace → Prop
  | done (w : Workspace) : Proceeds texts w [] w
  | log {w after : Workspace} {calls : List (Workspace × Workspace)} (log : Log)
      (rest : Proceeds texts { w with log } calls after) : Proceeds texts w calls after
  | text {w after : Workspace} {calls : List (Workspace × Workspace)} {path : Path}
    {content : ByteArray}
      {files : FileTree} (hpath : texts path)
      (hwrite : FileTree.Access.write w.files w.here path content = .ok files)
      (rest : Proceeds texts { w with files } calls after) : Proceeds texts w calls after
  | call {w after : Workspace} {calls : List (Workspace × Workspace)} (program : String)
      (arguments : List String) (environment : List (String × String))
      (rest : Proceeds texts (attempted (call program arguments environment) w).2 calls after) :
      Proceeds texts w ((w, (attempted (call program arguments environment) w).2) :: calls) after

theorem Proceeds.append {more : List (Workspace × Workspace)} (h : Proceeds texts w calls between)
    (hrest : Proceeds texts between more after) : Proceeds texts w (calls ++ more) after := by
  induction h with
  | done w => exact hrest
  | log log rest ih => exact .log log (ih hrest)
  | text hpath hwrite rest ih => exact .text hpath hwrite (ih hrest)
  | call program arguments environment rest ih =>
    exact .call program arguments environment (ih hrest)

theorem Proceeds.mono {texts' : Path → Prop} (h : Proceeds texts w calls after)
    (hsub : ∀ path, texts path → texts' path) : Proceeds texts' w calls after := by
  induction h with
  | done w => exact .done w
  | log log rest ih => exact .log log ih
  | text hpath hwrite rest ih => exact .text (hsub _ hpath) hwrite ih
  | call program arguments environment rest ih => exact .call program arguments environment ih

theorem call_fills (program : String) (arguments : List String)
    (environment : List (String × String))
    (w : Workspace) : Fills w (attempted (call program arguments environment) w).2 := by
  unfold call
  rw [attempted_bind, attempted_get]
  dsimp only
  cases effectOf w program arguments environment with
  | error error => exact .refl w
  | ok effect => exact ⟨rfl, byAdding_applyAll effect.changes⟩

theorem Proceeds.fills (h : Proceeds texts w calls after) : Fills w after := by
  induction h with
  | done w => exact .refl w
  | log log rest ih => exact ⟨ih.here, ih.files⟩
  | @text w after calls path content files hpath hwrite rest ih =>
      have hfirst : Fills w { w with files } := ⟨rfl, .of_write hwrite⟩
      exact hfirst.trans ih
  | call program arguments environment rest ih =>
    exact (call_fills program arguments environment _).trans ih

/-- An action that does nothing to the files but write texts at some paths and call tools. -/
def Works (texts : Path → Prop) (action : Action α) : Prop :=
  ∀ w, ∃ calls, Proceeds texts w calls (acted action w).2

/-- An attempt that does nothing to the files but write texts at some paths and call tools, whether
it succeeds or not. -/
def Tries (texts : Path → Prop) (attempt : Attempt ε α) : Prop :=
  ∀ w, ∃ calls, Proceeds texts w calls (attempted attempt w).2

theorem Works.pure (a : α) : Works texts (Pure.pure a : Action α) :=
  fun w => ⟨[], .done w⟩

theorem Works.get : Works texts MonadState.get :=
  fun w => ⟨[], .done w⟩

theorem Works.log (entry : Entry) : Works texts (record entry) :=
  fun w => ⟨[], .log _ (.done (noted entry w))⟩

theorem Works.bind {action : Action α} {next : α → Action β} (h : Works texts action)
    (hnext : ∀ a, Works texts (next a)) : Works texts (action >>= next) := by
  intro w
  rw [acted_bind]
  obtain ⟨calls, hfirst⟩ := h w
  obtain ⟨more, hrest⟩ := hnext (acted action w).1 (acted action w).2
  exact ⟨calls ++ more, hfirst.append hrest⟩

theorem Works.run {attempt : Attempt ε α} (h : Tries texts attempt) : Works texts attempt.run :=
  h

theorem Tries.pure (a : α) : Tries texts (Pure.pure a : Attempt ε α) :=
  fun w => ⟨[], .done w⟩

theorem Tries.throw (error : ε) : Tries texts (MonadExcept.throw error : Attempt ε α) :=
  fun w => ⟨[], .done w⟩

theorem Tries.get : Tries texts (MonadState.get : Attempt ε Workspace) :=
  fun w => ⟨[], .done w⟩

theorem Tries.log (entry : Entry) : Tries texts (record entry : Attempt ε Unit) :=
  fun w => ⟨[], .log _ (.done (noted entry w))⟩

theorem Tries.adapt {attempt : Attempt ε α} (f : ε → ε') (h : Tries texts attempt) :
    Tries texts (attempt.adapt f) := by
  intro w
  rw [attempted_adapt]
  exact h w

theorem Tries.bind {attempt : Attempt ε α} {next : α → Attempt ε β} (h : Tries texts attempt)
    (hnext : ∀ a, Tries texts (next a)) : Tries texts (attempt >>= next) := by
  intro w
  rw [attempted_bind]
  obtain ⟨calls, hfirst⟩ := h w
  rcases hrun : attempted attempt w with ⟨_ | a, between⟩
  · rw [hrun] at hfirst
    exact ⟨calls, hfirst⟩
  · rw [hrun] at hfirst
    obtain ⟨more, hrest⟩ := hnext a between
    exact ⟨calls ++ more, hfirst.append hrest⟩

theorem writeText_tries {path : Path} (hpath : texts path) (text : String) :
    Tries texts (writeText path text) := by
  intro w
  rw [attempted_writeText]
  split
  · rename_i hwrite
    exact ⟨[], .text hpath hwrite (.done _)⟩
  · exact ⟨[], .done w⟩

theorem call_tries (program : String) (arguments : List String)
    (environment : List (String × String)) :
    Tries texts (call program arguments environment) :=
  fun _ => ⟨_, .call program arguments environment (.done _)⟩

theorem runTool_tries (program : String) (arguments : List String)
    (environment : List (String × String)) :
      Tries texts (runTool program arguments environment) := by
  refine .bind (.adapt _ (call_tries _ _ _)) fun outcome => ?_
  split
  · exact .pure _
  · exact .throw _

theorem versionOf_works (program : String) : Works texts (versionOf program) := by
  refine .bind (.run (call_tries _ _ _)) fun result => ?_
  split
  · exact .pure _
  · exact .pure _

theorem detectTool_works [Encoding] (program : String) : Works texts (detectTool program) := by
  refine .bind .get fun w => ?_
  split
  · exact .bind (versionOf_works _) fun version => .pure _
  · exact .pure _

theorem discoverHeaders_tries (python : String) : Tries texts (discoverHeaders python) := by
  refine .bind (runTool_tries _ _ _) fun output => ?_
  dsimp only
  split
  · exact .throw _
  · exact .pure _

theorem findHeaders_works [Encoding] (settings : CompilerSettings) (tool : Option Tool) :
    Works texts (findHeaders settings tool) := by
  unfold findHeaders
  split
  · exact .pure _
  · exact .pure _
  · refine .bind (.run (discoverHeaders_tries _)) fun result => ?_
    split
    · exact .bind (.log _) fun _ => .pure _
    · exact .bind (.log _) fun _ => .pure _

theorem detect_works [Encoding] (settings : CompilerSettings) : Works texts (detect settings) := by
  refine .bind (detectTool_works _) fun tool => ?_
  dsimp only
  split
  · exact .bind (.log _) fun _ => .bind (findHeaders_works _ _) fun _ => .pure _
  · exact .bind (.log _) fun _ => .bind (findHeaders_works _ _) fun _ => .pure _

theorem compile_tries [Encoding] (compiler : CythonCompiler) (source : Path) (emitted : String) :
    Tries (· = intermediate source) (compiler.toCompiler.compile source emitted) := by
  refine .bind (.adapt _ (@writeText_tries (· = intermediate source) _ _ rfl _)) fun _ => ?_
  cases compiler.tool with
  | none => exact .throw _
  | some tool =>
      refine .bind (.log _) fun _ => .bind .get fun w =>
        .bind (.adapt _ (runTool_tries _ _ _)) fun _ => ?_
      exact .pure _

end

/-- An attempt that removes nothing and makes no links, whether it succeeds or not. -/
def KeepsTrying (attempt : Attempt ε α) : Prop :=
  ∀ w, IsPlain w.files w.here → Advances w (attempted attempt w).2

/-- A compiler whose calls remove nothing and make no links. -/
def OnlyAdds (compiler : Compiler) : Prop :=
  ∀ source emitted, KeepsTrying (compiler.compile source emitted)

theorem onlyAdds_toCompiler [Encoding] [Tools] (compiler : CythonCompiler) :
    OnlyAdds compiler.toCompiler :=
  fun source emitted w hplain =>
    have ⟨_, hproceeds⟩ := compile_tries compiler source emitted w
    hproceeds.fills.advances hplain

end Cythonizer.Proofs.Compiler.Effects
