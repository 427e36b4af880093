import Cythonizer.Source.Rules.Operand

namespace Cythonizer.Source.Rules.Parameter

open Cythonizer.Source.Reader
open Cythonizer.Source.Rules.Collection
open Cythonizer.Source.Rules.Operand
open Cythonizer.Source.Rules.Phrases
open Cythonizer.Source.Keywords
open Cythonizer.Source.Lexemes

variable {source : List Char} {m : Type → Type}

def typeStart : Expect := { operandStart with power := true }

def startsType (next : Next) : Bool :=
  startsExpression next || next.isSign ['*', '*']

/-- Words that are never the name of a type that is no expression. -/
def untypedWords : List Keyword :=
  [.kwNone, .kwTrue, .kwFalse, .kwPrint, .kwExec, .kwAsync, .kwAwait, .kwMatch]

/-- Whether a type comes next that is no expression: a name with type parameters, two stars, or a
starred name that a type goes on from. -/
def atPlainType [Reading source m] (after : Expect) : m Bool := Reading.step do
  let next ← peek typeStart
  if next.isSign ['*', '*'] then return true
  let nameThen (others : List Keyword) (signs : List (List Char)) : Parser source Bool := do
    let next ← peek operandStart
    if !next.is .name || (untypedWords ++ others).any next.isWord then return false
    take .name
    atSign (operandEnd after) signs
  let found ← ahead do
    if next.isSign ['*'] then
      take .sign
      nameThen [.kwType] [['.'], ['|'], [':']]
    else nameThen [.kwNot, .kwLambda] [['[']]
  return found == some true

def typeParameters (g : Grammar source) : Parser source Unit :=
  node .typeParameters {} do
    sign {} ['[']
    let item : Parser source Unit := do
      let _ ← g (.typeForm itemEnd true)
    item
    let _ ← moreItems itemEnd typeStart startsType item
    sign itemEnd [']']

/-- A type without `|` and dots after it, unless it is an expression. -/
def typeAtom (g : Grammar source) (after : Expect) : Parser source Unit := do
  if ← atPlainType after then
    if ← atSign typeStart [['*'], ['*', '*']] then
      take .sign
      name {}
    else
      name {}
      typeParameters g
  else
    let _ ← g (.expression after true)

/-- A type, followed by the types that bound it if it may be `bounded`. -/
def typeForm (g : Grammar source) (after : Expect) (bounded : Bool) : Parser source Shape := do
  typeAtom g after
  loopWhile do
    let next ← peek (operandEnd after)
    if next.isSign ['|'] || bounded && next.isSign [':'] then
      take .sign
      typeAtom g after
      return true
    if next.isSign ['.'] then
      take .sign
      name {}
      return true
    return false
  return .other

def typeHint (g : Grammar source) (after : Expect) (bounded : Bool) : Parser source Unit :=
  node .hint typeStart do
    let _ ← g (.typeForm after bounded)

def parameterStart : Expect := { power := true }

def startsParameter (next : Next) : Bool :=
  next.is .name || [['('], ['*'], ['*', '*'], ['/']].any next.isSign

/-- The hint of a parameter, if it may have one and has one. -/
def parameterType (g : Grammar source) (after : Expect) (typed : Bool) : Parser source Unit := do
  if typed && (← peek after).isSign [':'] then
    take .sign
    typeHint g after true

def parameterDefault (g : Grammar source) (after : Expect) : Parser source Unit := do
  if (← peek after).isSign ['='] then
    take .sign
    node .default operandStart do
      let _ ← g (.expression after true)

/-- The name or place after the star or stars of a parameter, and its hint. -/
def rest (g : Grammar source) (after : Expect) (typed : Bool) : Parser source Unit := do
  if !(← starred g after 1 true).isPlace then fail
  parameterType g after typed

/-- A parameter, with a type hint only if it may be `typed`. -/
def parameter (g : Grammar source) (after : Expect) (typed : Bool) : Parser source Unit := do
  let next ← peek parameterStart
  if next.isSign ['/'] then node .slash {} (take .sign)
  else if next.isSign ['*', '*'] then
    node .special {} do
      take .sign
      rest g after typed
  else if next.isSign ['*'] then
    node .star {} do
      take .sign
      if startsExpression (← peek (operandStart.union after)) then rest g after typed
  else if next.isSign ['('] then
    node .special {} do
      let _ ← g (.bracketed true)
      parameterDefault g after
  else
    node .named {} do
      name {}
      parameterType g after typed
      parameterDefault g after

def parameterList (g : Grammar source) (after : Expect) (typed : Bool) : Parser source Unit := do
  parameter g after typed
  let _ ← moreItems after parameterStart startsParameter (parameter g after typed)

def lambdaParameters (g : Grammar source) : Parser source Unit := do
  if startsParameter (← peek parameterStart) then parameterList g innerEnd false

def parameters (g : Grammar source) : Parser source Unit :=
  node .parameters {} do
    sign {} ['(']
    if startsParameter (← peek { itemEnd with power := true }) then parameterList g itemEnd true
    sign itemEnd [')']

end Cythonizer.Source.Rules.Parameter
