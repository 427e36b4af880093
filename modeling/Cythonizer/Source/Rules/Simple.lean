import Cythonizer.Source.Branches
import Cythonizer.Source.Rules.Parameter

namespace Cythonizer.Source.Rules.Simple

open Cythonizer.Source.Branches
open Cythonizer.Source.Reader
open Cythonizer.Source.Rules.Collection
open Cythonizer.Source.Rules.Literal
open Cythonizer.Source.Rules.Parameter
open Cythonizer.Source.Rules.Phrases
open Cythonizer.Source.Rules.Values
open Cythonizer.Source.Keywords
open Cythonizer.Source.Lexemes

variable {source : List Char} {m : Type → Type}

def simpleEnd : Expect := { lineEnd := true }

/-- What may follow a value at the end of a statement. A `from` may follow all of them, as it may
follow what a `raise` raises. -/
def valueEnd : Expect := { simpleEnd with words := [.kwFrom] }

/-- What may follow the values of a statement that begins with them or with targets. -/
def firstEnd : Expect := { valueEnd with target := true }

/-- Fail unless a statement ends here. -/
def atSimpleEnd [Reading source m] : m Unit := Reading.step do
  let next ← peek simpleEnd
  if next.is .lineEnd || next.isSign [';'] then return
  fail

def isAugmented (next : Next) : Bool :=
  next.is .symbol && [['+', '='], ['-', '='], ['*', '='], ['/', '='], ['@', '='], ['%', '='],
    ['&', '='], ['|', '='], ['^', '='], ['*', '*', '='], ['/', '/', '='], ['<', '<', '='],
    ['>', '>', '=']].contains next.text

mutual

/-- An assignment after its targets, up to the end of the statement. -/
def assigned (g : Grammar source) : Nat → Branching source Unit
  | 0 => do fail
  | fuel + 1 => do
    let next ← peek {}
    if next.isSign ['='] || isAugmented next then
      take .sign
      assignedValue g fuel
    else
      sign {} [':']
      typeHint g valueEnd true
      if ← atSign (operandEnd simpleEnd) [['=']] then
        take .sign
        assignedValue g fuel
      else atSimpleEnd

/-- What is assigned, up to the end of the statement: targets that are assigned to, or values. -/
def assignedValue (g : Grammar source) : Nat → Branching source Unit
  | 0 => do fail
  | fuel + 1 =>
    both
      (do
        let shape ← g (.targets simpleEnd simpleEnd false)
        if isAssigned (← peek {}) then assigned g fuel
        else if shape == .several then atSimpleEnd
        else fail)
      (do
        let _ ← g (.values firstEnd)
        atSimpleEnd)
where
  isAssigned (next : Next) : Bool :=
    next.isSign ['='] || next.isSign [':'] || isAugmented next

end

def assignment (g : Grammar source) (e : Expect) : Branching source Unit :=
  node .simple e do
    let _ ← g (.targets simpleEnd { powerUpdate := true } false)
    assigned g ((← left) + 2)

def valuesStatement (g : Grammar source) (e : Expect) : Parser source Unit :=
  node .simple e do
    if ← atWord e .kwYield then yieldPhrase g firstEnd else expressions g firstEnd []
    atSimpleEnd

def expressionStatement (g : Grammar source) (e : Expect) : Branching source Unit :=
  both (assignment g e) (valuesStatement g e)

def names : Parser source Unit := do
  name {}
  loopWhile do
    if !(← peek simpleEnd).isSign [','] then return false
    take .sign
    name {}
    return true

def dottedName (after : Expect) : Parser source Unit := do
  name {}
  loopWhile do
    if !(← peek after).isSign ['.'] then return false
    take .sign
    name {}
    return true

def importList (after : Expect) : Parser source Unit := do
  let item : Parser source Unit := do
    dottedName after
    if (← peek after).isWord .kwAs then
      take .word
      name {}
  item
  let _ ← moreItems after {} (·.is .name) item

def importedNames : Parser source Unit := do
  if (← peek {}).isSign ['('] then
    take .sign
    importList itemEnd
    sign itemEnd [')']
  else importList simpleEnd

def importFrom (e : Expect) : Parser source Unit := do
  let since ← mark e
  keyword e .kwFrom
  if (← peek {}).isWord .kwFuture then
    take .word
    keyword {} .kwImport
    importedNames
    wrap .importNames since
  else
    let relative := (← peek {}).isSign ['.']
    loopWhile do
      if !(← peek {}).isSign ['.'] then return false
      take .sign
      return true
    if !(relative && (← peek {}).isWord .kwImport) then dottedName {}
    keyword {} .kwImport
    if (← peek {}).isSign ['*'] then take .sign else importedNames
    wrap .importFrom since

def raiseRest (g : Grammar source) : Parser source Unit := do
  let next ← peek (operandStart.union valueEnd)
  if startsExpression next && !next.isWord .kwFrom then expressions g valueEnd valueEnd.words
  if ← atWord (operandEnd valueEnd) .kwFrom then
    take .word
    let _ ← g (.expression valueEnd true)

/-- Expressions separated by commas, without a comma at the end. -/
def strictExpressions (g : Grammar source) (after : Expect) : Parser source Unit := do
  let _ ← g (.expression after true)
  loopWhile do
    if !(← peek (operandEnd after)).isSign [','] then return false
    take .sign
    let _ ← g (.expression after true)
    return true

/-- Whether a statement goes on from here after a keyword that could also be a name. -/
def atSoftRest [Reading source m] : m Bool := Reading.step do
  let next ← peek (softEnd simpleEnd)
  return startsOperand simpleEnd next || next.isWord .kwNot

def printStatement (g : Grammar source) (e : Expect) (redirected : Bool) : Parser source Unit :=
  node .legacy e do
    keyword e .kwPrint
    if redirected then sign (softEnd simpleEnd) ['>', '>']
    else if !(← atSoftRest) then fail
    expressions g simpleEnd []
    atSimpleEnd

def execStatement (g : Grammar source) (e : Expect) : Parser source Unit :=
  node .legacy e do
    keyword e .kwExec
    let next ← peek (softEnd simpleEnd)
    if next.is .quote then string g
    else if next.is .name && startsOperand simpleEnd next then name {}
    else fail
    if ← atWord (operandEnd simpleEnd) .kwIn then
      take .word
      strictExpressions g simpleEnd
    atSimpleEnd

def typeAlias (g : Grammar source) (e : Expect) : Parser source Unit :=
  node .simple e do
    keyword e .kwType
    if !((← atSoftRest) || (← atSign (softEnd simpleEnd) [['*', '*']])) then fail
    let _ ← g (.typeForm innerEnd true)
    sign (operandEnd {}) ['=']
    let _ ← g (.typeForm valueEnd true)
    atSimpleEnd

def plainStatement (g : Grammar source) (e : Expect) (k : Keyword) : Parser source Unit := do
  let plain (body : Parser source Unit) : Parser source Unit :=
    node .simple e do
      take .word
      body
  match k with
  | .kwImport =>
    node .importNames e do
      take .word
      importList simpleEnd
  | .kwFrom => importFrom e
  | .kwAssert => plain (strictExpressions g valueEnd)
  | .kwDel => plain (expressions g valueEnd valueEnd.words)
  | .kwReturn =>
    plain do
      if startsExpression (← peek (operandStart.union valueEnd)) then
        expressions g valueEnd valueEnd.words
  | .kwRaise => plain (raiseRest g)
  | .kwGlobal | .kwNonlocal => plain names
  | _ => plain (return)
  atSimpleEnd

/-- A statement without a block. Where a type may come next, `typed`, none may begin like a type
that is no expression. -/
def simpleStatement (g : Grammar source) (e : Expect) (typed : Bool) : Branching source Unit := do
  let next ← peek e
  match if next.is .name then ofSpelling? next.text else none with
  | some .kwPrint =>
    let redirected ← (ahead do
      take .name
      atSign (softEnd simpleEnd) [['>', '>']] : Parser source (Option Bool))
    if redirected == some true then printStatement g e true
    else both (expressionStatement g e) (printStatement g e false : Parser source Unit)
  | some .kwExec => both (expressionStatement g e) (execStatement g e : Parser source Unit)
  | some .kwYield => expressionStatement g e
  | some k =>
    if [Keyword.kwImport, .kwFrom, .kwAssert, .kwDel, .kwReturn, .kwRaise, .kwPass, .kwBreak,
        .kwContinue, .kwGlobal, .kwNonlocal].contains k then
      plainStatement g e k
    else unlessType <|
      if k == .kwType then both (typeAlias g e : Parser source Unit) (expressionStatement g e)
      else expressionStatement g e
  | none => unlessType (expressionStatement g e)
where
  unlessType (reader : Branching source Unit) : Branching source Unit := do
    if typed && (← atPlainType simpleEnd) then fail
    reader

def simpleStatements (g : Grammar source) (e : Expect) (typed : Bool) : Branching source Unit := do
  simpleStatement g e typed
  repeated do
    if !(← peek simpleEnd).isSign [';'] then return false
    take .sign
    let following := operandStart.union simpleEnd
    if (← peek following).is .lineEnd then return false
    simpleStatement g following false
    return true
  layoutMark simpleEnd .lineEnd

end Cythonizer.Source.Rules.Simple
