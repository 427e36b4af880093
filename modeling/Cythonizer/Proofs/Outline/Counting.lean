import Mathlib.Algebra.BigOperators.Group.List.Basic
import Cythonizer.Outline.Conversion

namespace Cythonizer.Proofs.Outline.Counting

open Cythonizer.Outline.Basic
open Cythonizer.Outline.Conversion
open Cythonizer.Settings.Basic

theorem Counts.add_def (a b : Counts) : a + b = Counts.add a b := rfl

instance : Zero Counts := ⟨{}⟩

instance : AddCommMonoid Counts where
  add_assoc a b c := by simp [Counts.add_def, Counts.add, UInt64.add_assoc]
  add_comm a b := by simp [Counts.add_def, Counts.add, UInt64.add_comm]
  zero_add a := by
    change ({} : Counts) + a = a
    simp [Counts.add_def, Counts.add]
  add_zero a := by
    change a + ({} : Counts) = a
    simp [Counts.add_def, Counts.add]
  nsmul := nsmulRec

/-- What a function adds to the counts. -/
def definitionCounts (settings : ConversionSettings) (f : Function) : Counts :=
  if f.isAsync then {} else functionCounts settings f

/-- The counts of functions and loops. -/
def countsOf (settings : ConversionSettings) (functions : List Function) (loops : List Loop) :
    Counts :=
  (functions.map (definitionCounts settings)).sum + (loops.map loopCounts).sum

theorem countsOf_nil (settings : ConversionSettings) : countsOf settings [] [] = {} := rfl

theorem countsOf_append (settings : ConversionSettings) (functions functions' : List Function)
    (loops loops' : List Loop) :
    countsOf settings (functions ++ functions') (loops ++ loops') =
      countsOf settings functions loops + countsOf settings functions' loops' := by
  simp only [countsOf, List.map_append, List.sum_append]
  exact add_add_add_comm _ _ _ _

mutual

theorem statementCounts_eq (settings : ConversionSettings) (s : Statement) :
    statementCounts settings s = countsOf settings s.functions s.loops :=
  match s with
  | .importNames text => rfl
  | .importFrom text => rfl
  | .other text => rfl
  | .function f => by
      change definitionCounts settings f = countsOf settings [f] []
      simp [countsOf]
  | .loop l => by
      change loopCounts l = countsOf settings [] [l]
      simp [countsOf]
  | .compound fragments => by
      rw [statementCounts, Statement.functions, Statement.loops, fragmentCounts_eq]

theorem fragmentCounts_eq (settings : ConversionSettings) (fragments : List Fragment) :
    fragmentCounts settings fragments = countsOf settings (functionsOf fragments)
      (loopsOf fragments) :=
  match fragments with
  | [] => by rw [fragmentCounts, functionsOf, loopsOf, countsOf_nil]
  | .text text :: rest => by rw [fragmentCounts, functionsOf, loopsOf, fragmentCounts_eq]
  | .statement s :: rest => by
      rw [fragmentCounts, functionsOf, loopsOf, countsOf_append, statementCounts_eq,
        fragmentCounts_eq]

end

theorem counts_eq (settings : ConversionSettings) (outline : Outline) :
    counts settings outline = countsOf settings outline.functions outline.loops := by
  obtain ⟨statements⟩ := outline
  unfold counts Outline.functions Outline.loops
  induction statements with
  | nil => rfl
  | cons s rest ih =>
      rw [List.foldr_cons, List.flatMap_cons, List.flatMap_cons, countsOf_append,
        statementCounts_eq, ← ih]

end Cythonizer.Proofs.Outline.Counting
