import Cythonizer.Source.Rules.Collection
import Cythonizer.Source.Rules.Literal

namespace Cythonizer.Source.Rules.Operand

open Cythonizer.Source.Reader
open Cythonizer.Source.Rules.Collection
open Cythonizer.Source.Rules.Literal
open Cythonizer.Source.Rules.Phrases
open Cythonizer.Source.Keywords
open Cythonizer.Source.Lexemes

variable {source : List Char}

def atom (g : Grammar source) (after : Expect) : Parser source Shape := do
  let next ← peek operandStart
  match next.lexeme.category with
  | .name =>
    if [Keyword.kwNone, .kwTrue, .kwFalse].any next.isWord then
      take .word
      return .other
    name {}
    return .name
  | .number =>
    take .literal
    return .other
  | .quote =>
    strings g after
    return .other
  | .symbol =>
    if next.text == ['('] then return ← round g
    if next.text == ['['] then square g
    else if next.text == ['\x7b'] then braces g
    else if next.text == ['.', '.', '.'] then take .sign
    else fail
    return .other
  | _ => fail

/-- The attributes, calls and items after an atom. The result tells how many stars could stand
before it: each needs a name, an attribute or an item of its own that it ends with. As long as there
are fewer than `stars` of them, or the whole is no place where it has to be `bare`, nothing else may
follow. -/
def trailers (g : Grammar source) (after : Expect) (stars : Nat) (bare : Bool) (since : Nat)
    (head : Shape) : Parser source (Shape × Nat) :=
  loop (fun (shape, most) => do
    let following := if most < stars || bare && !shape.isPlace then {} else after
    let next ← peek { operandEnd following with binding := after.binding && shape == .name }
    if next.isSign ['.'] then
      take .sign
      name {}
      return some (.place, most + 1)
    else if next.isSign ['('] then
      arguments g true
      wrap .call since
      return some (.other, most)
    else if next.isSign ['['] then
      subscript g
      return some (.place, most + 1)
    else return none) (head, if head == .name then 1 else 0)

/-- An atom with its trailers, or an operand after `await`. A number of stars stand before it. A
lone starred item in brackets that begins an item in brackets is the whole of it. -/
def primary (g : Grammar source) (after : Expect) (stars : Nat) (bare : Bool) :
    Parser source Shape := do
  let since ← mark operandStart
  let head ←
    if ← atWord operandStart .kwAwait then
      name {}
      if startsOperand after (← peek (softEnd after)) then
        let _ ← g (.operand after.later)
        if 0 < stars then fail
        return .other
      pure .name
    else atom g (if 0 < stars || bare then {} else after)
  if after.item && head == .unpacked then
    if ← atSign itemEnd [[','], [')'], [']'], ['\x7d']] then return .unpacked
    fail
  let (shape, most) ← trailers g after stars bare since head
  if most < stars then fail
  return shape

/-- Stars with what they stand before, after a number of stars that were read already. -/
def starred (g : Grammar source) (after : Expect) (stars : Nat) (bare : Bool) :
    Parser source Shape := do
  let stars ← loop (fun stars => do
    if !(← peek operandStart).isSign ['*'] then return none
    take .sign
    return some (stars + 1)) stars
  primary g after.later stars bare

def operand (g : Grammar source) (after : Expect) : Parser source Shape := do
  let next ← peek operandStart
  if [['+'], ['-'], ['~']].any next.isSign then
    take .sign
    let _ ← g (.operand after.later)
    return .other
  if next.isSign ['*'] then
    let _ ← starred g after 0 false
    return .other
  primary g after 0 false

end Cythonizer.Source.Rules.Operand
