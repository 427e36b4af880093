import Cythonizer.Source.Rules.Collection
import Cythonizer.Source.Rules.Literal

namespace Cythonizer.Source.Rules.Pattern

open Cythonizer.Source.Reader
open Cythonizer.Source.Rules.Collection
open Cythonizer.Source.Rules.Literal
open Cythonizer.Source.Rules.Phrases
open Cythonizer.Source.Keywords
open Cythonizer.Source.Lexemes

variable {source : List Char}

def patternStart : Expect := { quote := true, power := true }

def startsPattern (next : Next) : Bool :=
  [Category.name, .number, .quote].any next.is ||
    [['('], ['['], ['\x7b'], ['-'], ['*'], ['*', '*']].any next.isSign

def patterns (after : Expect) (item : Parser source Unit) : Parser source Unit := do
  let starts (next : Next) := startsPattern next && !after.words.any next.isWord
  item
  let _ ← moreItems after patternStart starts item

/-- Patterns separated by commas, if there are any, up to a closing bracket. -/
def enclosed (item : Parser source Unit) (close : List Char) : Parser source Unit := do
  if startsPattern (← peek { patternStart with closer := true }) then patterns itemEnd item
  sign itemEnd close

def inner (g : Grammar source) : Parser source Unit := do
  let _ ← g (.pattern itemEnd)

def pair (g : Grammar source) : Parser source Unit := do
  let starred ← atSign patternStart [['*'], ['*', '*']]
  let after : Expect := if starred then itemEnd else {}
  let key ← g (.alternatives after)
  if !starred || key == .several || (← peek after).isSign [':'] then
    sign after [':']
    inner g

def number (after : Expect) : Parser source Unit := do
  if !(← peek {}).is .number then fail
  take .literal
  if ← atSign after [['+'], ['-']] then
    take .sign
    if !(← peek {}).is .number then fail
    take .literal

/-- The rest of a dotted name or of a class pattern after its first name. The result tells whether
there is none. -/
def dotted (g : Grammar source) (after : Expect) : Parser source Bool := do
  let plain ← loop (fun _ => do
    if !(← peek after).isSign ['.'] then return none
    take .sign
    name {}
    return some false) true
  if (← peek after).isSign ['('] then
    take .sign
    enclosed (inner g) [')']
    return false
  return plain

/-- A pattern without alternatives. -/
def closed (g : Grammar source) (after : Expect) : Parser source Shape := do
  let next ← peek patternStart
  match next.lexeme.category with
  | .name =>
    if next.text == ['_'] || [Keyword.kwNone, .kwTrue, .kwFalse].any next.isWord then take .word
    else
      name {}
      if ← dotted g after then return .name
  | .number => number after
  | .quote => strings g after
  | .symbol =>
    if !startsPattern next then fail
    take .sign
    if next.text == ['*'] || next.text == ['*', '*'] then name {}
    else if next.text == ['-'] then number after
    else if next.text == ['('] then enclosed (inner g) [')']
    else if next.text == ['['] then enclosed (inner g) [']']
    else enclosed (pair g) ['\x7d']
  | _ => fail
  return .other

def alternatives (g : Grammar source) (after : Expect) : Parser source Shape := do
  let first ← closed g after
  loop (fun _ => do
    if !(← peek after).isSign ['|'] then return none
    take .sign
    let _ ← closed g after
    return some .several) first

/-- A pattern, with the keyword it is for and the names it is bound to. -/
def pattern (g : Grammar source) (after : Expect) : Parser source Shape := do
  let first ← g (.alternatives after)
  if first == .name && (← peek after).isSign ['='] then
    take .sign
    let _ ← g (.alternatives after)
  loopWhile do
    if !(← peek after).isWord .kwAs then return false
    take .word
    name {}
    return true
  return .other

end Cythonizer.Source.Rules.Pattern
