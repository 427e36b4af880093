import Mathlib.Algebra.GroupWithZero.Nat
import Mathlib.Data.List.Forall2
import Mathlib.Logic.Function.Iterate
import Cythonizer.Proofs.Outline.Counting

/-!
Changing the functions and the loops that are reached in an outline. Conversion is such a change
(`convert_eq`), so that it reaches what the outline is said to hold and counts it
(`conversion_counted`).
-/

namespace Cythonizer.Proofs.Outline.Traversal

open Cythonizer.Outline.Basic
open Cythonizer.Outline.Conversion
open Cythonizer.Settings.Basic
open Cythonizer.Proofs.Outline.Counting

section

variable (onFunction : Function → Function) (onLoop : Loop → Loop)

mutual

/-- Change the functions and the loops that are reached without entering a function or a loop. -/
def changeStatement : Statement → Statement
  | .function f => .function (onFunction f)
  | .loop l => .loop (onLoop l)
  | .compound fragments => .compound (changeFragments fragments)
  | s => s

def changeFragments : List Fragment → List Fragment
  | [] => []
  | .text text :: rest => .text text :: changeFragments rest
  | .statement s :: rest => .statement (changeStatement s) :: changeFragments rest

end

def change (outline : Outline) : Outline :=
  { statements := outline.statements.map (changeStatement onFunction onLoop) }

mutual

theorem reached_changeStatement (s : Statement) :
    (changeStatement onFunction onLoop s).functions = s.functions.map onFunction ∧
      (changeStatement onFunction onLoop s).loops = s.loops.map onLoop :=
  match s with
  | .importNames text => ⟨rfl, rfl⟩
  | .importFrom text => ⟨rfl, rfl⟩
  | .other text => ⟨rfl, rfl⟩
  | .function f => ⟨rfl, rfl⟩
  | .loop l => ⟨rfl, rfl⟩
  | .compound fragments => by
      rw [changeStatement, Statement.functions, Statement.loops, Statement.functions,
        Statement.loops]
      exact reached_changeFragments fragments

theorem reached_changeFragments (fragments : List Fragment) :
    functionsOf (changeFragments onFunction onLoop fragments) =
      (functionsOf fragments).map onFunction ∧
      loopsOf (changeFragments onFunction onLoop fragments) = (loopsOf fragments).map onLoop :=
  match fragments with
  | [] => ⟨rfl, rfl⟩
  | .text text :: rest => by
      rw [changeFragments, functionsOf, loopsOf, functionsOf, loopsOf]
      exact reached_changeFragments rest
  | .statement s :: rest => by
      obtain ⟨hfunctions, hloops⟩ := reached_changeStatement s
      obtain ⟨hmore, hothers⟩ := reached_changeFragments rest
      rw [changeFragments, functionsOf, loopsOf, functionsOf, loopsOf, hfunctions,
        hloops, hmore, hothers,
        List.map_append, List.map_append]
      exact ⟨rfl, rfl⟩

end

theorem functions_change (outline : Outline) :
    (change onFunction onLoop outline).functions = outline.functions.map onFunction := by
  rw [change, Outline.functions, Outline.functions, List.flatMap_map, List.map_flatMap]
  exact List.flatMap_congr fun s _ => (reached_changeStatement onFunction onLoop s).1

theorem loops_change (outline : Outline) :
    (change onFunction onLoop outline).loops = outline.loops.map onLoop := by
  rw [change, Outline.loops, Outline.loops, List.flatMap_map, List.map_flatMap]
  exact List.flatMap_congr fun s _ => (reached_changeStatement onFunction onLoop s).2

end

section

variable (onFunction onFunction' : Function → Function) (onLoop onLoop' : Loop → Loop)

mutual

theorem changeStatement_changeStatement (s : Statement) :
    changeStatement onFunction onLoop (changeStatement onFunction' onLoop' s) =
      changeStatement (onFunction ∘ onFunction') (onLoop ∘ onLoop') s :=
  match s with
  | .importNames text => rfl
  | .importFrom text => rfl
  | .other text => rfl
  | .function f => rfl
  | .loop l => rfl
  | .compound fragments => by
      rw [changeStatement, changeStatement, changeStatement, changeFragments_changeFragments]

theorem changeFragments_changeFragments (fragments : List Fragment) :
    changeFragments onFunction onLoop (changeFragments onFunction' onLoop' fragments) =
      changeFragments (onFunction ∘ onFunction') (onLoop ∘ onLoop') fragments :=
  match fragments with
  | [] => rfl
  | .text text :: rest => by
      rw [changeFragments, changeFragments, changeFragments, changeFragments_changeFragments]
  | .statement s :: rest => by
      rw [changeFragments, changeFragments, changeFragments, changeStatement_changeStatement,
        changeFragments_changeFragments]

end

theorem change_change (outline : Outline) :
    change onFunction onLoop (change onFunction' onLoop' outline) =
      change (onFunction ∘ onFunction') (onLoop ∘ onLoop') outline := by
  rw [change, change, change, List.map_map]
  exact congrArg Outline.mk
    (List.map_congr_left fun s _ =>
      changeStatement_changeStatement onFunction onFunction' onLoop onLoop' s)

end

/-- Convert a function unless it is `async`. -/
def converted (settings : ConversionSettings) (f : Function) : Function :=
  if f.isAsync then f else convertFunction settings f

section

variable (settings : ConversionSettings)

mutual

theorem convertStatement_eq (s : Statement) :
    convertStatement settings s = changeStatement (converted settings) (convertLoop settings) s :=
  match s with
  | .importNames text => rfl
  | .importFrom text => rfl
  | .other text => rfl
  | .function f => rfl
  | .loop l => rfl
  | .compound fragments => by rw [convertStatement, changeStatement, convertFragments_eq]

theorem convertFragments_eq (fragments : List Fragment) :
    convertFragments settings fragments =
      changeFragments (converted settings) (convertLoop settings) fragments :=
  match fragments with
  | [] => rfl
  | .text text :: rest => by rw [convertFragments, changeFragments, convertFragments_eq]
  | .statement s :: rest => by
      rw [convertFragments, changeFragments, convertStatement_eq, convertFragments_eq]

end

theorem convert_eq : convert settings = change (converted settings) (convertLoop settings) := by
  funext outline
  rw [convert, change]
  exact congrArg Outline.mk (List.map_congr_left fun s _ => convertStatement_eq settings s)

end

theorem isTyped_iff (p : Parameter) :
    isTyped p = true ↔ ∃ name type default, p = .positional name (some (.name type)) default := by
  constructor
  · intro h
    cases p with
    | positional name hint default =>
        rcases hint with _ | type | text
        · cases h
        · exact ⟨name, type, default, rfl⟩
        · cases h
    | positionalOnlyMarker => cases h
    | verbatim text => cases h
  · rintro ⟨name, type, default, rfl⟩
    rfl

theorem isTyped_foldHint (p : Parameter) : isTyped (foldHint p) = false := by
  rcases p with ⟨name, _ | _ | _, default⟩ | _ | text <;> rfl

theorem sum_definitionCounts (settings : ConversionSettings) (functions : List Function) :
    (functions.map (definitionCounts settings)).sum =
      { functions := .ofNat (functions.countP fun f => !f.isAsync)
        strictFunctions :=
          .ofNat (functions.countP fun f => !f.isAsync && modeOf settings f == .strict)
        renamedParameters :=
          .ofNat ((functions.filter fun f => !f.isAsync).map fun f =>
            f.parameters.countP isTyped).sum } := by
  induction functions with
  | nil => rfl
  | cons f rest ih =>
      rw [List.map_cons, List.sum_cons, ih, definitionCounts]
      by_cases hasync : f.isAsync = true
      · rw [if_pos hasync]
        simp [Counts.add_def, Counts.add, hasync]
      · rw [if_neg hasync, functionCounts]
        by_cases hstrict : modeOf settings f = .strict
        · simp [Counts.add_def, Counts.add, hasync, hstrict, UInt64.add_comm]
        · simp [Counts.add_def, Counts.add, hasync, hstrict, UInt64.add_comm]

theorem sum_loopCounts (loops : List Loop) :
    (loops.map loopCounts).sum =
      { parallelLoops := .ofNat (loops.countP fun l => Iterable.isRange l.iterable) } := by
  induction loops with
  | nil => rfl
  | cons l rest ih =>
      rw [List.map_cons, List.sum_cons, ih, loopCounts]
      by_cases hrange : Iterable.isRange l.iterable = true
      · simp [Counts.add_def, Counts.add, hrange, UInt64.add_comm]
      · simp [Counts.add_def, Counts.add, hrange]

theorem counts_eq_countP (settings : ConversionSettings) (outline : Outline) :
    counts settings outline =
      { functions := .ofNat (outline.functions.countP fun f => !f.isAsync)
        strictFunctions :=
          .ofNat (outline.functions.countP fun f => !f.isAsync && modeOf settings f == .strict)
        renamedParameters :=
          .ofNat ((outline.functions.filter fun f => !f.isAsync).map fun f =>
            f.parameters.countP isTyped).sum
        parallelLoops := .ofNat (outline.loops.countP fun l => Iterable.isRange l.iterable) } := by
  rw [counts_eq, countsOf, sum_definitionCounts, sum_loopCounts]
  simp [Counts.add_def, Counts.add]

/-- A function before and after conversion. -/
structure Converts (f g : Function) : Prop where
  name : g.name = f.name
  isAsync : g.isAsync = f.isAsync
  kept : f.isAsync = true → g = f
  cleared : f.isAsync = false → g.decorators = [] ∧ g.returns = none ∧
    ∀ name type default, .positional name (some (.name type)) default ∉ g.parameters
  injected : f.isAsync = false → ∃ s, g.body = { f.body with injected := s :: f.body.injected }

theorem converts (settings : ConversionSettings) (f : Function) :
    Converts f (converted settings f) := by
  unfold converted
  by_cases hasync : f.isAsync = true
  · rw [if_pos hasync]
    exact ⟨rfl, rfl, fun _ => rfl, by simp [hasync], by simp [hasync]⟩
  · rw [if_neg hasync]
    refine ⟨rfl, rfl, fun h => absurd h hasync, fun _ => ⟨rfl, rfl, ?_⟩, fun _ => ⟨_, rfl⟩⟩
    intro name type default hmem
    obtain ⟨p, -, hp⟩ := List.mem_map.mp hmem
    have htyped : isTyped (foldHint p) = true := (isTyped_iff _).mpr ⟨name, type, default, hp⟩
    rw [isTyped_foldHint] at htyped
    cases htyped

/-- A loop before and after conversion. -/
structure LoopConverts (settings : ConversionSettings) (l k : Loop) : Prop where
  head : k.head = l.head
  tail : k.tail = l.tail
  iterable : (∃ arguments, l.iterable = .call boundedRange arguments ∧
      k.iterable = .call settings.parallelRange arguments) ∨
    (Iterable.isRange l.iterable = false ∧ k.iterable = l.iterable)

theorem loopConverts (settings : ConversionSettings) (l : Loop) :
    LoopConverts settings l (convertLoop settings l) := by
  obtain ⟨head, iterable, tail⟩ := l
  cases iterable with
  | other text => exact ⟨rfl, rfl, .inr ⟨rfl, rfl⟩⟩
  | call callee arguments =>
      unfold convertLoop
      dsimp only
      by_cases hrange : callee = boundedRange
      · rw [if_pos hrange]
        exact ⟨rfl, rfl, .inl ⟨arguments, by rw [hrange], rfl⟩⟩
      · rw [if_neg hrange]
        exact ⟨rfl, rfl, .inr ⟨by simpa [Iterable.isRange] using hrange, rfl⟩⟩

theorem forall₂_map {α : Type} {R : α → α → Prop} {f : α → α} (h : ∀ a, R a (f a)) (as : List α) :
    List.Forall₂ R as (as.map f) :=
  List.forall₂_map_right_iff.mpr (List.forall₂_same.mpr fun a _ => h a)

/-- What conversion counts is what is reached before it, and what is reached after it are the same
functions and loops in the same order, converted unless they are `async`. -/
theorem conversion_counted (settings : ConversionSettings) (outline : Outline) :
    counts settings outline =
        { functions := .ofNat (outline.functions.countP fun f => !f.isAsync)
          strictFunctions :=
            .ofNat (outline.functions.countP fun f => !f.isAsync && modeOf settings f == .strict)
          renamedParameters :=
            .ofNat ((outline.functions.filter fun f => !f.isAsync).map fun f =>
              f.parameters.countP isTyped).sum
          parallelLoops := .ofNat (outline.loops.countP fun l => Iterable.isRange l.iterable) } ∧
      List.Forall₂ Converts outline.functions (convert settings outline).functions ∧
      List.Forall₂ (LoopConverts settings) outline.loops (convert settings outline).loops := by
  refine ⟨counts_eq_countP settings outline, ?_, ?_⟩
  · rw [convert_eq, functions_change]
    exact forall₂_map (converts settings) _
  · rw [convert_eq, loops_change]
    exact forall₂_map (loopConverts settings) _

end Cythonizer.Proofs.Outline.Traversal
