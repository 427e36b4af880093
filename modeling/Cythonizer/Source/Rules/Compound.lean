import Cythonizer.Source.Rules.Expression
import Cythonizer.Source.Rules.Pattern
import Cythonizer.Source.Rules.Simple

namespace Cythonizer.Source.Rules.Compound

open Cythonizer.Source.Branches
open Cythonizer.Source.Reader
open Cythonizer.Source.Rules.Collection
open Cythonizer.Source.Rules.Parameter
open Cythonizer.Source.Rules.Pattern
open Cythonizer.Source.Rules.Phrases
open Cythonizer.Source.Rules.Simple
open Cythonizer.Source.Rules.Values
open Cythonizer.Source.Keywords
open Cythonizer.Source.Lexemes

variable {source : List Char} {m : Type → Type}

/-- The readers of what statements contain: phrases, and the statements of a block up to its end. -/
structure Parts (source : List Char) where
  phrase : Grammar source
  block : Branching source Unit

def statementStart (inBlock : Bool) : Expect := { operandStart with dedent := inBlock }

/-- What may stand after the colon before a block, which a type could follow too if `typed`. -/
def suiteStart (typed : Bool) : Expect :=
  { operandStart with lineEnd := true, indent := true, power := typed }

def suite (parts : Parts source) (typed : Bool) : Branching source Unit := do
  sign {} [':']
  match (← peek (suiteStart typed)).lexeme.category with
  | .indent =>
    take .layout
    node .block (statementStart true) parts.block
  | .lineEnd => node .block (suiteStart typed) (take .layout)
  | _ => node .block (suiteStart typed) (simpleStatements parts.phrase (suiteStart typed) typed)

/-- A clause with a block that begins with a keyword, and whether there is one. -/
def clause (e : Expect) (k : Keyword) (body : Branching source Unit) : Branching source Bool := do
  if !(← atWord e k) then return false
  node .clause e do
    take .word
    body
  return true

def elseClause (parts : Parts source) (e : Expect) : Branching source Unit := do
  let _ ← clause e .kwElse (suite parts false)

def finallyClause (parts : Parts source) (e : Expect) : Branching source Unit := do
  let _ ← clause e .kwFinally (suite parts false)

def guarded (parts : Parts source) : Branching source Unit := do
  let _ ← parts.phrase (.expression innerEnd true)
  suite parts false

def ifRest (parts : Parts source) (e : Expect) : Branching source Unit := do
  guarded parts
  repeated (clause e .kwElif (guarded parts))
  elseClause parts e

def forRest (parts : Parts source) (e : Expect) : Branching source Unit := do
  keyword {} .kwFor
  let _ ← parts.phrase (.targets targetsEnd targetsEnd true)
  keyword targetsEnd .kwIn
  node .iterable operandStart (expressions parts.phrase innerEnd [])
  suite parts false
  elseClause parts e

/-- The contexts of a `with`. In brackets they are read as a tuple if they can be. -/
def contexts (g : Grammar source) : Parser source Unit :=
  either
    (do
      expressions g innerEnd []
      if !(← atSign {} [[':']]) then fail)
    (do
      sign {} ['(']
      if (← atWord itemStart .kwYield) || (← atStarredWord) then fail
      let _ ← g (.expression { headEnd with item := true } true)
      let _ ← moreItems itemEnd operandStart startsExpression do
        let _ ← g (.expression itemEnd true)
      sign itemEnd [')'])

def withRest (parts : Parts source) : Branching source Unit := do
  keyword {} .kwWith
  contexts parts.phrase
  suite parts false

def handler (parts : Parts source) : Branching source Unit := do
  let g := parts.phrase
  if !(← atSign operandStart [[':']]) then
    let _ ← g (.expression innerEnd true)
    if ← atSign {} [[',']] then
      take .sign
      let _ ← g (.expression innerEnd true)
  suite parts false

def groupHandler (parts : Parts source) : Branching source Unit := do
  take .sign
  let _ ← parts.phrase (.expression innerEnd true)
  suite parts false

/-- Whether the next word is `except` with a star right after it. -/
def atGroup [Reading source m] : m Bool := Reading.step do
  let found ← ahead do
    take .word
    let next ← peek {}
    return next.isSign ['*'] && next.lexeme.gaps.isEmpty
  return found == some true

/-- The blocks of a `try`. Its handlers are all for groups or none is: a star after another `except`
belongs to what that catches. -/
def tryRest (parts : Parts source) (e : Expect) : Branching source Unit := do
  suite parts false
  let handlers : Expect := { handler := true }
  if ← atWord handlers .kwFinally then finallyClause parts handlers
  else
    if !(← atWord handlers .kwExcept) then fail
    let ofGroups ← atGroup
    repeated do
      let following := e.union handlers
      if !(← atWord following .kwExcept) then return false
      if ofGroups && !(← atGroup) then fail
      clause following .kwExcept (if ofGroups then groupHandler parts else handler parts)
    elseClause parts e
    finallyClause parts e

def functionRest (parts : Parts source) : Branching source Unit := do
  let g := parts.phrase
  keyword {} .kwDef
  name {}
  if ← atSign {} [['[']] then typeParameters g
  parameters g
  if ← atSign {} [['-', '>']] then
    take .sign
    typeHint g innerEnd false
    suite parts true
  else suite parts false

def classRest (parts : Parts source) : Branching source Unit := do
  let g := parts.phrase
  keyword {} .kwClass
  name {}
  if ← atSign {} [['[']] then typeParameters g
  if ← atSign {} [['(']] then arguments g false
  suite parts false

def asyncFunction (parts : Parts source) : Branching source Unit :=
  node .function {} do
    keyword {} .kwAsync
    functionRest parts

def decoratedRest (parts : Parts source) : Branching source Unit := do
  loopWhile do
    if !(← peek {}).isSign ['@'] then return false
    node .decorator {} do
      take .sign
      let _ ← parts.phrase (.expression valueEnd true)
      layoutMark simpleEnd .lineEnd
    return true
  if ← atWord {} .kwClass then node .compound {} (classRest parts)
  else if ← atWord {} .kwAsync then asyncFunction parts
  else node .function {} (functionRest parts)

def caseClause (parts : Parts source) : Branching source Unit :=
  node .clause {} do
    let following : Expect := { words := [.kwIf] }
    keyword {} .kwCase
    patterns following do
      let _ ← parts.phrase (.pattern following)
    if ← atWord following .kwIf then
      take .word
      let _ ← parts.phrase (.expression innerEnd true)
    suite parts false

def matchStatement (parts : Parts source) (e : Expect) : Branching source Unit :=
  node .compound e do
    keyword e .kwMatch
    if !(← atSoftRest) then fail
    expressions parts.phrase innerEnd []
    sign {} [':']
    let cases : Expect := { dedent := true }
    match (← peek { lineEnd := true, indent := true }).lexeme.category with
    | .indent =>
      node .block {} do
        take .layout
        repeated do
          if (← peek cases).is .dedent then
            take .layout
            return false
          caseClause parts
          return true
    | .lineEnd => node .block {} (take .layout)
    | _ => fail

/-- The keyword of the statement with a block that `async` begins, if it begins one here. -/
def asyncRest [Reading source m] (e : Expect) : m (Option Keyword) := Reading.step <|
  ahead do
    keyword e .kwAsync
    let next ← peek (operandEnd simpleEnd)
    match [Keyword.kwDef, .kwFor, .kwWith].find? next.isWord with
    | some k => return k
    | none => fail

def asyncStatement (parts : Parts source) (e : Expect) (k : Keyword) : Branching source Unit := do
  let since ← mark e
  keyword e .kwAsync
  if k == .kwDef then
    functionRest parts
    wrap .function since
  else if k == .kwFor then
    forRest parts e
    wrap .forLoop since
  else
    withRest parts
    wrap .compound since

def statement (parts : Parts source) (inBlock : Bool) : Branching source Unit := do
  let e := statementStart inBlock
  let next ← peek e
  let compound (body : Branching source Unit) : Branching source Unit :=
    node .compound e do
      take .word
      body
  let simple := simpleStatements parts.phrase e false
  match if next.is .name then ofSpelling? next.text else none with
  | some .kwIf => compound (ifRest parts e)
  | some .kwFor => node .forLoop e (forRest parts e)
  | some .kwWhile =>
    compound do
      guarded parts
      elseClause parts e
  | some .kwTry => compound (tryRest parts e)
  | some .kwWith => node .compound e (withRest parts)
  | some .kwDef => node .function e (functionRest parts)
  | some .kwClass => node .compound e (classRest parts)
  | some .kwMatch => both simple (matchStatement parts e)
  | some .kwAsync =>
    match ← asyncRest e with
    | some k => asyncStatement parts e k
    | none => simple
  | _ => if next.isSign ['@'] then node .decorated e (decoratedRest parts) else simple

def blockBody (parts : Parts source) : Branching source Unit :=
  repeated do
    if (← peek (statementStart true)).is .dedent then
      take .layout
      return false
    statement parts true
    return true

end Cythonizer.Source.Rules.Compound
