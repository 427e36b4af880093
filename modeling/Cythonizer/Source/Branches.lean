import Cythonizer.Source.Reader

/-!
Reading on in several ways at once. A line may belong to the statement before it or begin one of its
own, and only later text tells. All ways are kept until they fail or come to the same place.
-/

namespace Cythonizer.Source.Branches

open Cythonizer.Source.Reader

/-- The ways that a reader found, a preferred one first, and the fewest characters left where a way
failed. -/
structure Ways (source : List Char) (α : Type) where
  found : List (α × Cursor source)
  failed : Option Nat

def Branching (source : List Char) (α : Type) : Type :=
  Cursor source → Ways source α

variable {source : List Char} {α β : Type}

/-- Of two places where ways failed the one further on. -/
def further : Option Nat → Option Nat → Option Nat
  | none, b => b
  | a, none => a
  | some a, some b => some (min a b)

def Ways.append (a b : Ways source α) : Ways source α where
  found := a.found ++ b.found
  failed := further a.failed b.failed

def Ways.bind (ways : Ways source α) (next : α → Branching source β) : Ways source β :=
  match ways with
  | ⟨[(value, c)], none⟩ => next value c
  | ⟨found, failed⟩ =>
    found.foldl (fun ways (value, c) => ways.append (next value c)) { found := [], failed }

instance : Monad (Branching source) where
  pure value := fun c => { found := [(value, c)], failed := none }
  bind reader next := fun c => (reader c).bind next

instance : MonadLift (Parser source) (Branching source) where
  monadLift p := fun c =>
    match p c with
    | .ok way => { found := [way], failed := none }
    | .error left => { found := [], failed := some left }

instance : Reading source (Branching source) where
  step p := monadLift p

def both (first second : Branching source α) : Branching source α := fun c =>
  (first c).append (second c)

/-- Whether two cursors are at the same place of the text with the same blocks open. -/
def atSamePlace (a b : Cursor source) : Bool :=
  a.left == b.left && a.layout == b.layout

/-- Of the ways with the same value at the same place keep the first one. -/
def settled (ways : List (Bool × Cursor source)) : List (Bool × Cursor source) :=
  ways.foldr (fun way others =>
    way :: others.filter fun other => !(other.1 == way.1 && atSamePlace other.2 way.2)) []

/-- Repeat a step while it says so. The ways that are furthest behind go on first, so that ways that
come to the same place meet there. -/
def repeated (step : Branching source Bool) : Branching source Unit := fun c =>
  go (c.left + 2) [(true, c)] none
where
  go : Nat → List (Bool × Cursor source) → Option Nat → Ways source Unit
    | 0, ways, failed => { found := ways.map fun way => ((), way.2), failed }
    | fuel + 1, ways, failed =>
      match (ways.filter (·.1)).map (·.2.left) with
      | [] => { found := ways.map fun way => ((), way.2), failed }
      | left :: lefts =>
        let most := lefts.foldl max left
        let advanced := ways.map fun way =>
          if way.1 && way.2.left == most then step way.2 else { found := [way], failed := none }
        go fuel (settled (advanced.flatMap (·.found)))
          (advanced.foldl (fun failed ways => further failed ways.failed) failed)

end Cythonizer.Source.Branches
