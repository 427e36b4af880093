import Cythonizer.Outline.OfTree
import Cythonizer.Source.Fault
import Cythonizer.Text.Positions

namespace Cythonizer.Outline.Reading

open Cythonizer.Outline.OfTree
open Cythonizer.Source.Fault
open Cythonizer.Source.Trees
open Cythonizer.Text.Positions

inductive Fault
  | syntaxError (position : Position)
  | incomplete (defect : Defect)
  deriving DecidableEq, Repr

mutual

/-- The number of characters before the first `print` or `exec` statement of a tree. -/
def legacyIn : Tree → Option Nat
  | .gap _ _ => none
  | .leaf _ _ => none
  | .node .legacy _ => some 0
  | .node _ children => legacyAmong children

def legacyAmong : List Tree → Option Nat
  | [] => none
  | t :: rest =>
    match legacyIn t with
    | some before => some before
    | none => (legacyAmong rest).map (· + (spell t).length)

end

def read [Locator] (source : List Char) : Except Fault Outline := do
  let refused (before : Nat) : Fault := .syntaxError (after (source.take before))
  match Source.Syntax.ofSource source with
  | .error reached => throw (refused (Locator.locate source reached))
  | .ok trees =>
    match legacyAmong trees with
    | some before => throw (refused before)
    | none =>
      match ofTrees trees with
      | .ok outline => return outline
      | .error defect => throw (.incomplete defect)

end Cythonizer.Outline.Reading
