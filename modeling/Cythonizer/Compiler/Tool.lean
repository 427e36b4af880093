import Cythonizer.Compiler.Program
import Cythonizer.Text.Blank
import Cythonizer.Workspace.Basic

namespace Cythonizer.Compiler.Tool

open Cythonizer.Compiler.Program
open Cythonizer.FileTree.Basic
open Cythonizer.FileTree.Changes
open Cythonizer.Path.Basic
open Cythonizer.Problem.Basic
open Cythonizer.Shell.Script
open Cythonizer.Text.Blank
open Cythonizer.Text.Pieces
open Cythonizer.Workspace.Basic

structure Tool where
  name : String
  version : Option String
  path : String
  deriving DecidableEq, Repr

/-- The directories that a tool without a directory in its name is searched in. -/
def searchPath (w : Workspace) : List Path :=
  match w.environment.lookup "PATH" with
  | some directories => (pieces ':' directories.toList).map Path.ofChars
  | none => []

/-- What is in the file that a program is run from. -/
def programAt (w : Workspace) (path : Path) : Except FileError ByteArray :=
  match FileTree.Access.find w.files w.here path with
  | .ok (_, .file content mode) => if mode.executable then .ok content else .error .denied
  | .ok _ => .error .denied
  | .error error => .error error

def programFor (w : Workspace) (program : String) : Except FileError ByteArray :=
  if program.toList.contains '/' then programAt w { text := program }
  else if program.isEmpty then .error .noEntry
  else
    match (searchPath w).find? fun d =>
      FileTree.Access.isFile w.files w.here (d.join ⟨program⟩) with
    | some directory => programAt w (directory.join ⟨program⟩)
    | none => .error .noEntry

/-- The run of a program, if there is one. -/
def effectOf [Tools] (w : Workspace) (program : String) (arguments : List String)
    (environment : List (String × String)) : Except FileError Effect := do
  let content ← programFor w program
  Tools.run
    { content, program, arguments, environment := environment ++ w.environment,
      files := w.files, here := w.here }

def call [Tools] (program : String) (arguments : List String)
    (environment : List (String × String)) : Attempt FileError Effect := do
  let w ← get
  match effectOf w program arguments environment with
  | .ok effect =>
    set { w with files := applyAll w.here w.files effect.changes }
    return effect
  | .error error => throw error

def codeText : Ending → String
  | .exited status => "Some(" ++ toString status ++ ")"
  | .killed => "None"

def trimmed (text : String) : String :=
  String.ofList (trim text.toList)

def runTool [Tools] (program : String) (arguments : List String)
    (environment : List (String × String)) :
    Attempt Failure String := do
  let failedToRun (error : FileError) : Failure :=
    { message := "Failed to run tool: " ++ program, causes := [error.message] }
  let effect ← (call program arguments environment).adapt failedToRun
  if effect.ending = .exited 0 then return effect.stdout
  else
    throw { message := "Tool '" ++ program ++ "' failed with exit code " ++
      codeText effect.ending ++
      ": " ++ trimmed effect.stderr }

def lastWord (text : List Char) : Option String :=
  let line := text.takeWhile (· != '\n')
  let word := (trimEnd line).reverse.takeWhile fun c => !isBlank c
  if word.isEmpty then none else some (String.ofList word.reverse)

def versionOf [Tools] (program : String) : Action (Option String) := do
  match ← (call program ["--version"] []).run with
  | .ok effect =>
    return if effect.ending = .exited 0 then lastWord effect.stdout.toList else none
  | .error _ => return none

def isProgram (w : Workspace) (path : Path) : Bool :=
  match FileTree.Access.find w.files w.here path with
  | .ok (_, .file _ mode) => mode.executable
  | _ => false

def componentText : Component → String
  | .root => "/"
  | .current => "."
  | .parent => ".."
  | .name text => String.ofList text

def absolute (w : Workspace) (program : Path) : Path :=
  if program.isAbsolute then program
  else
    (program.components.filter (· != .current)).foldl (fun path c => path.join ⟨componentText c⟩)
      (FileTree.Access.pathOf w.here)

def locate (w : Workspace) (program : Path) : Option Path :=
  if 1 < program.components.length then
    let path := absolute w program
    if isProgram w path then some path else none
  else ((searchPath w).map (·.join program)).find? (isProgram w)

def detectTool [Encoding] [Tools] (program : String) : Action (Option Tool) := do
  match locate (← get) { text := program } with
  | some path => return some { name := program, version := ← versionOf program, path := path.shown }
  | none => return none

def discoverHeaders [Tools] (python : String) : Attempt Failure Path := do
  let output ← runTool python ["-c", "import numpy; print(numpy.get_include())"] []
  let directory := trimmed output
  if directory.isEmpty then
    throw { message := "'" ++ python ++ "' printed no numpy include directory" }
  else return { text := directory }

end Cythonizer.Compiler.Tool
