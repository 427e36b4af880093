import Cythonizer.FileTree.Access
import Cythonizer.Log.Basic

/-!
What a run works on: a tree of files, a directory that paths start from, variables, and a log.
Actions change it step by step; what was done before a failure stays done.
-/

namespace Cythonizer

open Cythonizer.FileTree.Basic

structure Workspace where
  files : FileTree
  here : Location := []
  environment : List (String × String) := []
  log : Log := []
  deriving DecidableEq

end Cythonizer

namespace Cythonizer.Workspace.Basic

open Cythonizer.FileTree.Basic
open Cythonizer.Log.Basic
open Cythonizer.Problem.Basic

abbrev Action := StateM Workspace

abbrev Attempt (ε : Type) := ExceptT ε Action

def record (entry : Entry) : Action Unit :=
  modify fun w => { w with log := w.log ++ [entry] }

def info (message : String) : Action Unit :=
  record { level := .info, message }

def debug (message : String) : Action Unit :=
  record { level := .debug, message }

/-- Log a failure and go on. -/
def report (message : String) (cause : Failure) : Action Unit :=
  record { level := .error, message, cause := some cause }

def readText (path : Path) : Attempt FileError String := do
  let w ← get
  match FileTree.Access.readText w.files w.here path with
  | .ok text => return text
  | .error error => throw error

def keep (changed : Except FileError FileTree) : Attempt FileError Unit :=
  match changed with
  | .ok files => modify fun w => { w with files }
  | .error error => throw error

def writeText (path : Path) (text : String) : Attempt FileError Unit := do
  let w ← get
  keep (FileTree.Access.write w.files w.here path text.toUTF8)

def copy (source target : Path) : Attempt FileError Unit := do
  let w ← get
  keep (FileTree.Access.copy w.files w.here source target)

def makeDirectories (path : Path) : Attempt FileError Unit := do
  let w ← get
  let (error, files) := FileTree.Access.makeDirectories w.files w.here path
  set { w with files }
  match error with
  | some error => throw error
  | none => return

/-- Go on with how an action went, whether it failed or not. -/
def settle {ε ε' α : Type} (attempt : Attempt ε α) : Attempt ε' (Except ε α) :=
  ExceptT.lift attempt.run

/-- Tell a refusal of the file system as a problem of a path. -/
def onPath {α : Type} (path : Path) (attempt : Attempt FileError α) : Attempt Problem α :=
  attempt.adapt (Problem.file path)

end Cythonizer.Workspace.Basic
