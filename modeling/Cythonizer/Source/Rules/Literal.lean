import Cythonizer.Source.Rules.Phrases

namespace Cythonizer.Source.Rules.Literal

open Cythonizer.Source.Reader
open Cythonizer.Source.Gaps
open Cythonizer.Source.Rules.Phrases
open Cythonizer.Source.Lexemes
open Cythonizer.Source.Quote

variable {source : List Char}

def fieldEnd : Expect := { closer := true }

/-- Move on by a gap, if it has a width. -/
def passGap (gap : Gap) (width : Nat) : Parser source Unit :=
  modify fun c => if width == 0 then c else c.pass [(gap, width)]

/-- The blanks at the start of a text in a format specification and the width of the joined lines
after them, zero if there are none. -/
def specificationJoin (text : List Char) : Nat × Nat :=
  let blanks := (text.takeWhile fun c => isSpace c && c != '\n').length
  (blanks, continuationWidth (text.drop blanks))

/-- The plain characters of a format specification, if there are any. Line ends before them and
joined lines do not count. -/
def specificationText : Parser source Bool := do
  let lines := ((← get).rest.takeWhile (· == '\n')).length
  passGap .blank lines
  let text := (← get).rest
  let (blanks, joined) := specificationJoin text
  if 0 < joined then
    passGap .blank blanks
    passGap .continuation joined
    return true
  let width := (text.takeWhile fun c => !(['\x7b', '\x7d', '\n', '\x00'].contains c)).length
  if width == 0 then return false
  modify fun c => c.shift (.leaf .literal) (fun _ => rfl) width
  return true

/-- The rest of a field after its expression: the `=`, the conversion, the specification, the brace.
-/
def fieldTail (g : Grammar source) : Parser source Unit := do
  if (← peek fieldEnd).isSign ['='] then take .sign
  let next ← peek fieldEnd
  if next.is .symbol && next.text.head? == some '!' && next.text != ['!', '='] then take .sign
  if (← peek fieldEnd).isSign [':'] then
    take .sign
    let _ ← g .specification
  sign fieldEnd ['\x7d']

def field (g : Grammar source) : Parser source Unit :=
  either
    (do
      let _ ← g (.values fieldEnd)
      fieldTail g)
    (do
      if (← g (.targets fieldEnd fieldEnd false)) != .several then fail
      fieldTail g)

def specification (g : Grammar source) : Parser source Shape := do
  loopWhile do
    if ← specificationText then return true
    if (← peek { closer := true }).isSign ['\x7b'] then
      take .sign
      field g
      return true
    return false
  return .other

/-- The pieces of a string literal after its opening, up to its closing mark. -/
def pieces (g : Grammar source) (d : Delimiter) : Parser source Unit :=
  loopWhile do
    let c ← get
    match piece d (c.left + 1) c.rest with
    | none => throw c.left
    | some (blanks, kind, width) =>
      passGap .blank blanks
      match kind with
      | .content =>
        modify fun c => c.shift (.leaf .literal) (fun _ => rfl) width
        return true
      | .gap gap =>
        passGap gap width
        return true
      | .field =>
        modify fun c => c.shift (.leaf .sign) (fun _ => rfl) width
        field g
        return true
      | .closing =>
        modify fun c =>
          let passed := c.shift (.leaf .literal) (fun _ => rfl) width
          let strings := c.layout.strings.drop 1
          { passed with layout := { c.layout with strings, inFormat := false } }
        return false

def string (g : Grammar source) : Parser source Unit :=
  node .string operandStart do
    take .literal
    match (← get).layout.strings with
    | d :: _ => pieces g d
    | [] => fail

def strings (g : Grammar source) (after : Expect) : Parser source Unit := do
  string g
  loopWhile do
    if (← peek { operandEnd after with quote := true, binding := false }).is .quote then
      string g
      return true
    return false

end Cythonizer.Source.Rules.Literal
