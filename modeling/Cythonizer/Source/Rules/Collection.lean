import Cythonizer.Source.Rules.Values

namespace Cythonizer.Source.Rules.Collection

open Cythonizer.Source.Reader
open Cythonizer.Source.Rules.Phrases
open Cythonizer.Source.Rules.Values
open Cythonizer.Source.Keywords
open Cythonizer.Source.Lexemes

variable {source : List Char}

def itemEnd : Expect := { closer := true }

/-- What may follow an item in brackets that an iteration may follow too. -/
def headEnd : Expect := { closer := true, words := [.kwFor, .kwAsync] }

/-- What may follow an iteration or a condition of a comprehension. -/
def iterationEnd : Expect := { closer := true, words := [.kwIf, .kwFor, .kwAsync] }

/-- What may stand where an item in brackets begins, or their end. -/
def itemStart : Expect := { operandStart with closer := true }

/-- What may stand where an entry of a dictionary or an argument begins. -/
def entryStart : Expect := { itemStart with power := true }

/-- What may follow the targets of an iteration. -/
def targetsEnd : Expect := { words := [.kwIn] }

/-- The iterations and conditions of a comprehension, from its first `for` on. -/
def comprehension (g : Grammar source) : Parser source Unit :=
  loopWhile do
    let next ← peek iterationEnd
    if next.isWord .kwIf then
      take .word
      let lambda ← atWord operandStart .kwLambda
      let _ ← g (.expression iterationEnd lambda)
      return true
    if next.isWord .kwAsync then take .word
    else if !next.isWord .kwFor then return false
    keyword {} .kwFor
    let _ ← g (.targets targetsEnd targetsEnd true)
    keyword targetsEnd .kwIn
    let item : Parser source Unit := do
      let _ ← g (.iterated iterationEnd)
    let starts (next : Next) := startsExpression next && !iterationEnd.words.any next.isWord
    item
    let _ ← moreItems iterationEnd operandStart starts item
    return true

def atComprehension : Parser source Bool := do
  let next ← peek headEnd
  return next.isWord .kwFor || next.isWord .kwAsync

/-- Whether an item in brackets, or the key of an entry, ends here. -/
def atItemEnd : Parser source Bool :=
  atSign (operandEnd itemEnd) [[','], [')'], [']'], ['\x7d'], [':']]

/-- Whether a star comes next with a word after it that begins an expression. It does so where the
star may stand before a whole item. -/
def atStarredWord : Parser source Bool := do
  let found ← ahead do
    sign operandStart ['*']
    let next ← peek operandStart
    return [Keyword.kwNot, .kwLambda].any next.isWord
  return found == some true

/-- Whether a star, `await` and `for` come next. The `for` is a keyword then, and cannot stand here.
-/
def atStarredAwait : Parser source Bool := do
  let found ← ahead do
    sign operandStart ['*']
    keyword operandStart .kwAwait
    atWord (softEnd headEnd) .kwFor
  return found == some true

/-- An item that begins with a star, and whether it is an expression: one if the star belongs to the
first operand, and none if it stands before the whole item. -/
def starredItem (g : Grammar source) (after : Expect) : Parser source Bool := do
  let binds ← ahead do
    take .sign
    if !(← peek operandStart).is .name then fail
    take .name
    return (← peek { after with binding := true }).isSign [':', '=']
  if !after.words.contains .kwFor && (← atStarredAwait) then fail
  let unpacked : Parser source Bool := do
    let since ← mark operandStart
    take .sign
    let _ ← g (.expression { after with words := [] } true)
    wrap .expression since
    return false
  if binds == some true || (← atStarredWord) then unpacked
  else
    either
      (do
        let _ ← g (.expression after true)
        if after.words.any (← peek (operandEnd after)).isWord then
          if (← ahead (comprehension g)).isNone then fail
        else if !(← atItemEnd) then fail
        return true)
      unpacked

/-- An item of a list, a set or a tuple: an expression, a starred one or a `yield`. It is told
whether it is an expression. -/
def element (g : Grammar source) (after : Expect) : Parser source Bool := do
  let next ← peek itemStart
  if next.isWord .kwYield then
    yieldPhrase g itemEnd
    return false
  if next.isSign ['*'] then starredItem g after
  else return (← g (.expression { after with item := true } true)) != .unpacked

def moreElements (g : Grammar source) : Parser source Unit := do
  let _ ← moreItems itemEnd operandStart startsExpression do
    let _ ← element g itemEnd

/-- What stands in round brackets: nothing, one expression, a lone starred item, a tuple or a
generator. -/
def round (g : Grammar source) : Parser source Shape := do
  let since ← mark operandStart
  sign operandStart ['(']
  let next ← peek itemStart
  if next.isSign [')'] then
    take .sign
    return .other
  let plain ← element g headEnd
  if plain && (← atComprehension) then
    comprehension g
    sign itemEnd [')']
    return .other
  if (← peek itemEnd).isSign [','] then
    moreElements g
    sign itemEnd [')']
    return .other
  sign itemEnd [')']
  if plain || next.isWord .kwYield then
    wrap .parenthesized since
    return .other
  return .unpacked

def square (g : Grammar source) : Parser source Unit := do
  sign operandStart ['[']
  if (← peek itemStart).isSign [']'] then take .sign
  else
    let plain ← element g headEnd
    if plain && (← atComprehension) then comprehension g else moreElements g
    sign itemEnd [']']

def entry (g : Grammar source) : Parser source Unit := do
  if (← peek entryStart).isSign ['*', '*'] then take .sign
  else
    let _ ← g (.expression innerEnd true)
    sign {} [':']
  let _ ← g (.expression itemEnd true)

def moreEntries (g : Grammar source) : Parser source Unit := do
  let starts (next : Next) := startsExpression next || next.isSign ['*', '*']
  let _ ← moreItems itemEnd { operandStart with power := true } starts (entry g)

def braces (g : Grammar source) : Parser source Unit := do
  sign operandStart ['\x7b']
  let next ← peek entryStart
  if next.isSign [','] then take .sign
  else if next.isSign ['*', '*'] then
    entry g
    moreEntries g
  else if !next.isSign ['\x7d'] then
    let plain ← element g headEnd
    if plain && (← peek itemEnd).isSign [':'] then
      take .sign
      let _ ← g (.expression headEnd true)
      if ← atComprehension then comprehension g else moreEntries g
    else if plain && (← atComprehension) then comprehension g
    else moreElements g
  sign itemEnd ['\x7d']

/-- An argument of a call. It is told whether it is an expression. -/
def argument (g : Grammar source) (after : Expect) : Parser source Bool := do
  let next ← peek entryStart
  if next.isSign ['*', '*'] then
    take .sign
    let _ ← g (.expression itemEnd true)
    return false
  if next.isSign ['*'] then starredItem g after
  else
    let shape ← g (.expression { after with item := true } true)
    if shape == .name && (← peek itemEnd).isSign ['='] then
      take .sign
      let _ ← g (.expression itemEnd true)
      return false
    return shape != .unpacked

/-- Arguments in their brackets. A generator may stand in their place if they are those of a call.
-/
def arguments (g : Grammar source) (ofCall : Bool) : Parser source Unit :=
  node .arguments {} do
    sign {} ['(']
    let next ← peek entryStart
    let starts (next : Next) := startsExpression next || next.isSign ['*', '*']
    if starts next then
      let plain ← argument g (if ofCall then headEnd else itemEnd)
      if ofCall && plain && (← atComprehension) then comprehension g
      else
        let _ ← moreItems itemEnd { operandStart with power := true } starts do
          let _ ← argument g itemEnd
    else if next.isSign [','] then take .sign
    sign itemEnd [')']

/-- An item of a subscript: an expression or a slice. -/
def subscriptItem (g : Grammar source) : Parser source Unit := do
  if !(← peek operandStart).isSign [':'] then
    let _ ← g (.expression itemEnd true)
  let bound : Parser source Bool := do
    if !(← peek itemEnd).isSign [':'] then return false
    take .sign
    if startsExpression (← peek itemStart) then
      let _ ← g (.expression itemEnd true)
    return true
  if ← bound then
    let _ ← bound

def subscript (g : Grammar source) : Parser source Unit := do
  sign {} ['[']
  subscriptItem g
  let starts (next : Next) := startsExpression next || next.isSign [':']
  let _ ← moreItems itemEnd operandStart starts (subscriptItem g)
  sign itemEnd [']']

end Cythonizer.Source.Rules.Collection
