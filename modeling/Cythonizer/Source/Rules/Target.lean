import Cythonizer.Source.Rules.Operand

namespace Cythonizer.Source.Rules.Target

open Cythonizer.Source.Reader
open Cythonizer.Source.Rules.Collection
open Cythonizer.Source.Rules.Operand
open Cythonizer.Source.Rules.Phrases
open Cythonizer.Source.Keywords
open Cythonizer.Source.Lexemes
open Cythonizer.Source.Trees

variable {source : List Char}

/-- A name, an attribute or an item, perhaps with stars. -/
def place (g : Grammar source) (after : Expect) (bare : Bool) : Parser source Unit := do
  if !(← starred g after 0 bare).isPlace then fail

/-- A target, and whether it is told from other expressions by what it contains. What may follow it
is `own` then and `after` otherwise, but no line end where it is told. -/
def target (g : Grammar source) (after own : Expect) (bare : Bool) : Parser source Bool := do
  let next ← peek operandStart
  if next.isSign ['('] || next.isSign ['['] then
    either
      (do
        let told := (← g (.bracketed false)) == .several
        let following ← peek (operandEnd (if told then { own with lineEnd := false } else after))
        if [['.'], ['('], ['[']].any following.isSign then fail
        return told)
      (do
        place g after bare
        return false)
  else
    if !bare && [Keyword.kwNot, .kwLambda, .kwYield].any next.isWord then fail
    place g after bare
    return false

def targets (g : Grammar source) (after own : Expect) (bare : Bool) : Parser source Shape := do
  let _ ← target g after own bare
  if !(← peek {}).isSign [','] then return .other
  let starts (next : Next) := startsExpression next && !own.words.any next.isWord
  let _ ← moreItems own { operandStart with powerUpdate := true } starts do
    let _ ← target g own own true
  return .several

def bracketed (g : Grammar source) (bare : Bool) : Parser source Shape := do
  let close := if (← peek operandStart).isSign ['('] then [')'] else [']']
  if !(← atSign operandStart [['('], ['[']]) then fail
  take .sign
  let none := (← peek itemStart).isSign close
  if !none then
    if !bare && (← atStarredWord) then fail
    let _ ← g (.targets itemEnd itemEnd bare)
  sign itemEnd close
  return if none then .other else .several

end Cythonizer.Source.Rules.Target
