import Cythonizer.Source.Reader

namespace Cythonizer.Source.Rules.Phrases

open Cythonizer.Source.Reader
open Cythonizer.Source.Keywords
open Cythonizer.Source.Lexemes

/-- The phrases that may contain one another. `after` is what may follow the phrase. -/
inductive Phrase
  /-- An expression, with a conditional at its top only if it may be `conditional`. -/
  | expression (after : Expect) (conditional : Bool)
  /-- An expression without `and`, `or`, `as` and conditional at its top. -/
  | clause (after : Expect) (conditional : Bool)
  | operand (after : Expect)
  /-- Targets of an assignment, separated by commas. What may follow the first one is `after`, what
  may follow the others is `own`. Where they are `bare`, no other expression may stand. -/
  | targets (after own : Expect) (bare : Bool)
  /-- Targets in brackets. -/
  | bracketed (bare : Bool)
  /-- A `yield` or a list of expressions. -/
  | values (after : Expect)
  /-- A format specification in a format string. -/
  | specification
  /-- A type, with the types that bound it if it may be `bounded`. -/
  | typeForm (after : Expect) (bounded : Bool)
  | pattern (after : Expect)
  | iterated (after : Expect)
  | alternatives (after : Expect)
  deriving DecidableEq, Repr

/-- The form of an expression, as far as its place in a statement depends on it. -/
inductive Shape
  | name
  /-- An attribute or an item. -/
  | place
  /-- Several phrases with commas. -/
  | several
  /-- A lone starred item in brackets. -/
  | unpacked
  | other
  deriving DecidableEq, Repr

/-- Whether a star may stand before an expression of the form. -/
def Shape.isPlace : Shape → Bool
  | .name | .place => true
  | _ => false

/-- A reader of every phrase. -/
abbrev Grammar (source : List Char) := Phrase → Parser source Shape

def operandStart : Expect := { quote := true, ellipsis := true }

def operandEnd (after : Expect) : Expect := { after with power := true }

/-- What may follow an expression inside of a statement. An `else` may follow everywhere an
expression that is neither in brackets nor at the end, as it may follow the condition of a
conditional. -/
def innerEnd : Expect := { words := [.kwElse] }

def startsExpression (next : Next) : Bool :=
  match next.lexeme.category with
  | .name | .number | .quote => true
  | .symbol =>
    [['('], ['['], ['\x7b'], ['+'], ['-'], ['~'], ['*'], ['.', '.', '.']].contains next.text
  | _ => false

/-- Keywords that may follow every operand. -/
def operandWords : List Keyword :=
  [.kwIn, .kwIs, .kwAnd, .kwOr, .kwIf, .kwNot, .kwAs]

/-- What may stand after a keyword that could also be a name. -/
def softEnd (after : Expect) : Expect :=
  operandStart.union (operandEnd after)

/-- Whether the next lexeme begins an operand after a keyword that could also be a name. The word
`async` does, even where it may follow an operand. -/
def startsOperand (after : Expect) (next : Next) : Bool :=
  let words := if after.target then operandWords else operandWords ++ after.words
  startsExpression next && (next.isWord .kwAsync || !words.any next.isWord)

/-- Read the rest of a comma-separated list after its first item, and tell whether it has a comma.
`after` is what may follow the list and `start` what an item may begin with. A comma without an item
after it ends the list. -/
def moreItems {source : List Char} (after start : Expect) (starts : Next → Bool)
    (item : Parser source Unit) : Parser source Bool := do
  let (several, _) ← loop (fun (_, ended) => do
    if ended || !(← peek (operandEnd after)).isSign [','] then return none
    take .sign
    if starts (← peek (start.union after)) then
      item
      return some (true, false)
    else return some (true, true)) (false, false)
  return several

end Cythonizer.Source.Rules.Phrases
