/-!
The outline of a source: its statements, with structure only where declarations and loops are
converted. Everything else is kept as text.
-/

namespace Cythonizer.Outline.Basic

inductive Hint
  /-- A single name. -/
  | name (text : String)
  | expression (text : String)
  deriving DecidableEq, Repr

def Hint.text : Hint → String
  | .name text => text
  | .expression text => text

def Hint.name? : Hint → Option String
  | .name text => some text
  | .expression _ => none

inductive Parameter
  /-- A parameter that can be given by position. -/
  | positional (name : String) (hint : Option Hint) (default : Option String)
  /-- The `/` that ends the positional-only parameters. -/
  | positionalOnlyMarker
  /-- A parameter that is kept as it was written. -/
  | verbatim (text : String)
  deriving DecidableEq, Repr

/-- The body of a function: its statements as text, and the layout around a statement put in front.
-/
structure Body where
  inline : Bool
  /-- The white space before the statement on its line. -/
  outerIndent : String
  /-- The text between the colon and the first statement, for a body on lines of its own. -/
  leading : String
  /-- The white space before the first statement, for a body on lines of its own. -/
  indent : String
  text : String
  /-- Statements put in front of the text, first one first. -/
  injected : List String
  deriving DecidableEq, Repr

def Body.insertFirst (body : Body) (statement : String) : Body :=
  { body with injected := statement :: body.injected }

structure Function where
  name : String
  isAsync : Bool
  /-- The decorators without their `@`. -/
  decorators : List String
  /-- The type parameters with their brackets. -/
  typeParameters : Option String
  parameters : List Parameter
  returns : Option Hint
  body : Body
  deriving DecidableEq, Repr

inductive Iterable
  /-- A call of a single name; the arguments include their brackets. -/
  | call (callee arguments : String)
  | other (text : String)
  deriving DecidableEq, Repr

structure Loop where
  head : String
  iterable : Iterable
  tail : String
  deriving DecidableEq, Repr

mutual

inductive Statement
  | importNames (text : String)
  | importFrom (text : String)
  | function (function : Function)
  | loop (loop : Loop)
  /-- A statement whose blocks hold statements of their own. -/
  | compound (fragments : List Fragment)
  | other (text : String)

inductive Fragment
  | text (text : String)
  | statement (statement : Statement)

end

deriving instance Repr for Statement, Fragment

mutual

/-- The functions that are reached without entering a function or a loop. -/
def Statement.functions : Statement → List Function
  | .function f => [f]
  | .compound fragments => functionsOf fragments
  | _ => []

def functionsOf : List Fragment → List Function
  | [] => []
  | .text _ :: rest => functionsOf rest
  | .statement s :: rest => s.functions ++ functionsOf rest

end

mutual

/-- The loops that are reached without entering a function or a loop. -/
def Statement.loops : Statement → List Loop
  | .loop l => [l]
  | .compound fragments => loopsOf fragments
  | _ => []

def loopsOf : List Fragment → List Loop
  | [] => []
  | .text _ :: rest => loopsOf rest
  | .statement s :: rest => s.loops ++ loopsOf rest

end

end Cythonizer.Outline.Basic

namespace Cythonizer

open Cythonizer.Outline.Basic

structure Outline where
  statements : List Statement
  deriving Repr

def Outline.functions (outline : Outline) : List Function :=
  outline.statements.flatMap Statement.functions

def Outline.loops (outline : Outline) : List Loop :=
  outline.statements.flatMap Statement.loops

end Cythonizer
