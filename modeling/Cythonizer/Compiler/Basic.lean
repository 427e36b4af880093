import Cythonizer.Compiler.Command
import Cythonizer.Compiler.Tool

namespace Cythonizer

open Cythonizer.Workspace.Basic

structure Compiler where
  name : String
  /-- Compile the emitted text of a source. The result is the file that the compiler has read. -/
  compile : Path → String → Attempt Problem Path

end Cythonizer

namespace Cythonizer.Compiler.Basic

open Cythonizer.Compiler.Command
open Cythonizer.Compiler.Program
open Cythonizer.Compiler.Tool
open Cythonizer.Path.Basic
open Cythonizer.Problem.Basic
open Cythonizer.Settings.Basic
open Cythonizer.Workspace.Basic

structure CythonCompiler where
  settings : CompilerSettings
  tool : Option Tool
  headers : Option Path
  deriving DecidableEq, Repr

def CythonCompiler.environment [Encoding] (compiler : CythonCompiler) (w : Workspace) :
    List (String × String) :=
  Command.environment compiler.headers (w.environment.lookup "CFLAGS")

/-- Write the emitted text beside its source and call the tool on it. -/
def CythonCompiler.compile [Encoding] [Tools] (compiler : CythonCompiler) (source : Path)
    (emitted : String) :
    Attempt Problem Path := do
  let file := intermediate source
  onPath file (writeText file emitted)
  match compiler.tool with
  | none => throw (.noCompiler compiler.settings.program)
  | some tool =>
    let called := arguments compiler.settings file
    debug ("Running " ++ tool.path ++ " " ++ " ".intercalate called)
    let failed (failure : Failure) : Problem := .compilation source failure.message
    let _ ← (runTool tool.path called (compiler.environment (← get))).adapt failed
    return file

def CythonCompiler.toCompiler [Encoding] [Tools] (compiler : CythonCompiler) : Compiler :=
  { name := compiler.settings.program, compile := compiler.compile }

/-- The directory of the numpy headers. Without a tool nobody is asked for it. -/
def findHeaders [Encoding] [Tools] (settings : CompilerSettings) (tool : Option Tool) :
    Action (Option Path) := do
  match settings.numpyInclude, tool with
  | some directory, _ => return some directory
  | none, none => return none
  | none, some _ =>
    match ← (discoverHeaders settings.python).run with
    | .ok directory =>
      debug ("numpy headers: " ++ directory.shown)
      return some directory
    | .error failure =>
      report "Could not locate numpy headers, compiling without them" failure
      return none

def detect [Encoding] [Tools] (settings : CompilerSettings) : Action CythonCompiler := do
  let tool ← detectTool settings.program
  match tool with
  | some found =>
    let version := found.version.getD "unknown"
    info s!"Using {found.name} at {found.path} (version: {version})"
  | none => info (settings.program ++ " not found in PATH; modules will be packaged as source")
  return { settings, tool, headers := ← findHeaders settings tool }

end Cythonizer.Compiler.Basic
