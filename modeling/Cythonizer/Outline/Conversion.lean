import Cythonizer.Outline.Basic
import Cythonizer.Settings.Basic
import Cythonizer.Text.Blank

namespace Cythonizer.Outline.Conversion

open Cythonizer.Outline.Basic
open Cythonizer.Settings.Basic
open Cythonizer.Text.Blank

inductive Mode
  | strict
  | relaxed
  deriving DecidableEq, Repr

def Mode.keyword : Mode → String
  | .strict => "cdef"
  | .relaxed => "cpdef"

def defaultType : String := "object"

/-- The name of a parameter with its type in front. -/
def typePrefixed (type name : String) : String :=
  type ++ name

def directive (mode : Mode) (type : String) : String :=
  "\"" ++ mode.keyword ++ " " ++ type ++ "\""

/-- Strict if one of the decorators is the marker. White space in a decorator does not count. -/
def modeOf (settings : ConversionSettings) (f : Function) : Mode :=
  if f.decorators.any fun d =>
    String.ofList (squeeze d.toList) == settings.strictMarker then .strict
  else .relaxed

def hintName? (hint : Option Hint) : Option String :=
  hint.bind Hint.name?

def typeOf (f : Function) : String :=
  (hintName? f.returns).getD defaultType

def foldHint : Parameter → Parameter
  | .positional name hint default =>
    match hintName? hint with
    | some type => .positional (typePrefixed type name) none default
    | none => .positional name hint default
  | p => p

def isTyped : Parameter → Bool
  | .positional _ hint _ => (hintName? hint).isSome
  | _ => false

/-- The function as a declaration with a directive, whether it is `async` or not. -/
def convertFunction (settings : ConversionSettings) (f : Function) : Function :=
  { f with
    decorators := []
    parameters := f.parameters.map foldHint
    returns := none
    body := f.body.insertFirst (directive (modeOf settings f) (typeOf f)) }

/-- What a loop iterates over to be converted. -/
def boundedRange : String := "range"

def Iterable.isRange : Iterable → Bool
  | .call callee _ => callee == boundedRange
  | .other _ => false

def convertLoop (settings : ConversionSettings) (l : Loop) : Loop :=
  match l.iterable with
  | .call callee arguments =>
    if callee =
      boundedRange then { l with iterable := .call settings.parallelRange arguments } else l
  | .other _ => l

structure Counts where
  functions : UInt64 := 0
  strictFunctions : UInt64 := 0
  renamedParameters : UInt64 := 0
  parallelLoops : UInt64 := 0
  deriving DecidableEq, Repr

def Counts.add (a b : Counts) : Counts :=
  { functions := a.functions + b.functions
    strictFunctions := a.strictFunctions + b.strictFunctions
    renamedParameters := a.renamedParameters + b.renamedParameters
    parallelLoops := a.parallelLoops + b.parallelLoops }

instance : Add Counts := ⟨Counts.add⟩

def functionCounts (settings : ConversionSettings) (f : Function) : Counts :=
  { functions := 1
    strictFunctions := if modeOf settings f = .strict then 1 else 0
    renamedParameters := .ofNat (f.parameters.countP isTyped) }

def loopCounts (l : Loop) : Counts :=
  { parallelLoops := if Iterable.isRange l.iterable then 1 else 0 }

mutual

/-- Convert what is reached without entering a function or a loop. `async` functions stay. -/
def convertStatement (settings : ConversionSettings) : Statement → Statement
  | .function f => .function (if f.isAsync then f else convertFunction settings f)
  | .loop l => .loop (convertLoop settings l)
  | .compound fragments => .compound (convertFragments settings fragments)
  | s => s

def convertFragments (settings : ConversionSettings) : List Fragment → List Fragment
  | [] => []
  | .text text :: rest => .text text :: convertFragments settings rest
  | .statement s :: rest => .statement (convertStatement settings s) ::
    convertFragments settings rest

end

mutual

def statementCounts (settings : ConversionSettings) : Statement → Counts
  | .function f => if f.isAsync then {} else functionCounts settings f
  | .loop l => loopCounts l
  | .compound fragments => fragmentCounts settings fragments
  | _ => {}

def fragmentCounts (settings : ConversionSettings) : List Fragment → Counts
  | [] => {}
  | .text _ :: rest => fragmentCounts settings rest
  | .statement s :: rest => statementCounts settings s + fragmentCounts settings rest

end

def convert (settings : ConversionSettings) (outline : Outline) : Outline :=
  { statements := outline.statements.map (convertStatement settings) }

def counts (settings : ConversionSettings) (outline : Outline) : Counts :=
  outline.statements.foldr (fun s total => statementCounts settings s + total) {}

end Cythonizer.Outline.Conversion
