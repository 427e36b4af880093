import Cythonizer.Outline.Basic
import Cythonizer.Settings.Basic

namespace Cythonizer.Outline.Rendering

open Cythonizer.Outline.Basic
open Cythonizer.Settings.Basic

def flag (value : Bool) : String :=
  if value then "True" else "False"

def preamble (settings : CompilerSettings) : String :=
  "# distutils: language=c++\n" ++
    "# cython: language_level=" ++ toString settings.languageLevel.toNat ++ "\n" ++
    "# cython: boundscheck=" ++ flag settings.boundscheck ++
    ", wraparound=" ++ flag settings.wraparound ++
    ", nonecheck=" ++ flag settings.nonecheck ++ "\n" ++
    "cimport cython\nimport numpy as np\ncimport numpy as np\n\nnp.import_array()\n\n"

/-- A default stands closer to a bare name than to a type hint. -/
def renderParameter : Parameter → String
  | .positional name none none => name
  | .positional name none (some default) => name ++ "=" ++ default
  | .positional name (some hint) none => name ++ ": " ++ hint.text
  | .positional name (some hint) (some default) => name ++ ": " ++ hint.text ++ " = " ++ default
  | .positionalOnlyMarker => "/"
  | .verbatim text => text

def renderParameters (parameters : List Parameter) : String :=
  ", ".intercalate (parameters.map renderParameter)

/-- How far a body is indented that moves to lines of its own. -/
def indentUnit : String := "    "

/-- The text of a body after the colon. A body on the line of the header moves to lines of its own
when a statement is put in front of it. -/
def renderBody (body : Body) : String :=
  if body.inline then
    if body.injected.isEmpty then " " ++ body.text
    else
      let margin := "\n" ++ body.outerIndent ++ indentUnit
      String.join (body.injected.map fun s => margin ++ s) ++ margin ++ body.text
  else
    body.leading ++ String.join (body.injected.map fun s => s ++ "\n" ++ body.indent) ++ body.text

def renderFunction (f : Function) : String :=
  String.join (f.decorators.map fun d => "@" ++ d ++ "\n" ++ f.body.outerIndent) ++
    (if f.isAsync then "async " else "") ++ "def " ++ f.name ++ f.typeParameters.getD "" ++
    "(" ++ renderParameters f.parameters ++ ")" ++
    (match f.returns with
      | some hint => " -> " ++ hint.text
      | none => "") ++
    ":" ++ renderBody f.body

def renderIterable : Iterable → String
  | .call callee arguments => callee ++ arguments
  | .other text => text

def renderLoop (l : Loop) : String :=
  l.head ++ renderIterable l.iterable ++ l.tail

mutual

def renderStatement : Statement → String
  | .importNames text => text
  | .importFrom text => text
  | .other text => text
  | .function f => renderFunction f
  | .loop l => renderLoop l
  | .compound fragments => renderFragments fragments

def renderFragments : List Fragment → String
  | [] => ""
  | .text text :: rest => text ++ renderFragments rest
  | .statement s :: rest => renderStatement s ++ renderFragments rest

end

/-- What ends a statement at the top: a blank line follows a function that is not `async`. -/
def ending : Statement → String
  | .function f => if f.isAsync then "\n" else "\n\n"
  | _ => "\n"

def renderStatements (outline : Outline) : String :=
  String.join (outline.statements.map fun s => renderStatement s ++ ending s)

def emit (settings : CompilerSettings) (outline : Outline) : String :=
  preamble settings ++ renderStatements outline

end Cythonizer.Outline.Rendering
