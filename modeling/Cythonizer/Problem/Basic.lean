import Cythonizer.FileTree.Basic
import Cythonizer.Path.Naming
import Cythonizer.Text.Positions

namespace Cythonizer.Problem.Basic

/-- What failed, and what that came from, outermost first. -/
structure Failure where
  message : String
  causes : List String := []
  /-- It ends the program at once. -/
  isPanic : Bool := false
  deriving DecidableEq, Repr

def Failure.texts (failure : Failure) : List String :=
  failure.message :: failure.causes

/-- The failure of something larger. -/
def Failure.within (failure : Failure) (message : String) : Failure :=
  { failure with message, causes := failure.texts }

def Failure.told (failure : Failure) : String :=
  "\n  caused by: ".intercalate failure.texts

end Cythonizer.Problem.Basic

namespace Cythonizer

open Cythonizer.FileTree.Basic
open Cythonizer.Path.Basic
open Cythonizer.Problem.Basic
open Cythonizer.Text.Positions

inductive Problem
  | syntaxError (path : Path) (position : Position)
  | conversion (path : Path) (message : String)
  | compilation (path : Path) (message : String)
  | noCompiler (program : String)
  | missingAuxiliary (path : Path)
  | badSettings (path : Path) (message : String)
  | file (path : Path) (error : FileError)
  deriving DecidableEq, Repr

def Problem.message [Encoding] : Problem → String
  | .syntaxError path position =>
    s!"Syntax error in {path.shown} at line {position.line}, column {position.column}"
  | .conversion path message => s!"Failed to rewrite {path.shown}: {message}"
  | .compilation path message => s!"Cython compilation of {path.shown} failed: {message}"
  | .noCompiler program => s!"Compiler '{program}' not found in PATH"
  | .missingAuxiliary path => s!"Auxiliary file not found: {path.shown}"
  | .badSettings path message => s!"Invalid configuration in {path.shown}: {message}"
  | .file path error => s!"I/O error on {path.shown}: {error.message}"

def Problem.failure [Encoding] : Problem → Failure
  | .file path error => { message := (Problem.file path error).message, causes := [error.message] }
  | p => { message := p.message }

end Cythonizer
