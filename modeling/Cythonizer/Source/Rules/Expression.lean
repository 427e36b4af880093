import Cythonizer.Source.Rules.Operand

namespace Cythonizer.Source.Rules.Expression

open Cythonizer.Source.Reader
open Cythonizer.Source.Rules.Phrases
open Cythonizer.Source.Keywords
open Cythonizer.Source.Lexemes

variable {source : List Char}

def operators : List (List Char) :=
  [['+'], ['-'], ['*'], ['/'], ['%'], ['@'], ['&'], ['|'], ['^'], ['*', '*'],
    ['/', '/'], ['<', '<'],
    ['>', '>']]

def arithmetic (g : Grammar source) (after : Expect) : Parser source Shape := do
  let first ← g (.operand after)
  loop (fun _ => do
    if ← atSign (operandEnd after) operators then
      take .sign
      let _ ← g (.operand after.later)
      return some .other
    else return none) first

def comparators : List (List Char) :=
  [['<'], ['<', '='], ['=', '='], ['!', '='], ['>', '='], ['>'], ['<', '>']]

/-- Take a sign or words of comparison, if one comes next. -/
def comparator (after : Expect) : Parser source Bool := do
  let next ← peek (operandEnd after)
  if comparators.any next.isSign then
    take .sign
    return true
  else if next.isWord .kwIn then
    take .word
    return true
  else if next.isWord .kwNot then
    take .word
    keyword {} .kwIn
    return true
  else if next.isWord .kwIs then
    take .word
    if ← atWord operandStart .kwNot then take .word
    return true
  else return false

def comparison (g : Grammar source) (after : Expect) : Parser source Shape := do
  let first ← arithmetic g { after with binding := true }
  loop (fun _ => do
    if ← comparator after then
      let _ ← arithmetic g after.later
      return some .other
    else return none) first

/-- The parts of an expression that `and`, `or`, `as` and conditionals join. -/
def clause (g : Grammar source) (parameters : Parser source Unit) (after : Expect)
    (conditional : Bool) : Parser source Shape := do
  let next ← peek operandStart
  if next.isWord .kwNot then
    take .word
    let _ ← g (.clause after.later conditional)
    return .other
  if next.isWord .kwLambda then
    take .word
    parameters
    sign {} [':']
    let _ ← g (.expression after.later true)
    return .other
  let shape ← comparison g after
  if shape == .name && (← peek (operandEnd after)).isSign [':', '='] then
    take .sign
    let _ ← g (.expression after.later conditional)
    return .other
  return shape

def expression (g : Grammar source) (after : Expect) (conditional : Bool) : Parser source Shape :=
  node .expression operandStart do
    let first ← g (.clause after conditional)
    loop (fun _ => do
      let next ← peek (operandEnd after)
      if [Keyword.kwAnd, .kwOr, .kwAs].any next.isWord then
        take .word
        let _ ← g (.clause after.later conditional)
        return some .other
      else if conditional && next.isWord .kwIf then
        take .word
        let _ ← g (.expression innerEnd true)
        keyword {} .kwElse
        let _ ← g (.clause after.later conditional)
        return some .other
      else return none) first

/-- What a `for` in brackets iterates over: an expression without a conditional at its top, or a
lambda of one. -/
def iterated (g : Grammar source) (parameters : Parser source Unit) (after : Expect) :
    Parser source Shape := do
  if ← atWord operandStart .kwLambda then
    take .word
    parameters
    sign {} [':']
    g (.iterated after)
  else g (.expression after false)

end Cythonizer.Source.Rules.Expression
