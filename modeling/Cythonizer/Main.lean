import Cythonizer.CommandLine.Session
import Std.Data.HashSet
import Std.Time.Format

namespace Cythonizer.Main

open Cythonizer.CommandLine.Arguments
open Cythonizer.CommandLine.Session
open Cythonizer.FileTree.Basic
open Cythonizer.Workspace.Basic

/-- The location of a path from the root. -/
def locationOf (path : String) : Location :=
  ((path.splitOn "/").filter (· != "")).reverse

def textOf (location : Location) : String :=
  (FileTree.Access.pathOf location).text

/-- The directories that lead to a location. -/
def above : Location → List (Location × Node)
  | [] => []
  | _ :: rest => if rest.isEmpty then [] else (rest, .directory) :: above rest

/-- An entry of a directory with everything below it. -/
partial def load (entry : IO.FS.DirEntry) : IO (List (Location × Node)) := do
  let location := locationOf entry.path.toString
  match (← entry.path.symlinkMetadata).type with
  | .dir =>
    let below ← (← entry.path.readDir).toList.mapM load
    return (location, .directory) :: below.flatten
  | .symlink =>
    try
      let target ← IO.FS.realPath entry.path
      return [(location, .link { text := target.toString })]
    catch _ => return [(location, .link { text := "" })]
  | .file => return [(location, .file (← IO.FS.readBinFile entry.path) false)]
  | .other => return []

/-- What a path passes on its way from a directory, and where it leads if it leads anywhere. -/
def follow (start : String) : List String → IO (List (Location × Node) × Option String)
  | [] => return ([], some start)
  | name :: names => do
    let entry : IO.FS.DirEntry := { root := start, fileName := name }
    try
      let target := (← IO.FS.realPath entry.path).toString
      let isLink := (← entry.path.symlinkMetadata).type matches .symlink
      let link : Node := .link { text := target }
      let here := if isLink then [(locationOf entry.path.toString, link)] else []
      let (passed, reached) ← follow target names
      return (here ++ (locationOf target, .directory) :: above (locationOf target) ++
        passed, reached)
    catch _ => return ([], none)

/-- Everything at a path, and what leads there. -/
def loadPath (directory : String) (path : Path) : IO (List (Location × Node)) := do
  let start := if path.text.startsWith "/" then "/" else directory
  let (passed, reached) ← follow start ((path.text.splitOn "/").filter (· != ""))
  match reached with
  | none => return passed
  | some found =>
    let entries ← load { root := found, fileName := "" }
    return entries ++ passed

/-- A tree of the first entry for each location. -/
def treeOf (entries : List (Location × Node)) : FileTree :=
  let keep (found : Std.HashSet Location × List (Location × Node)) (entry : Location × Node) :=
    if found.1.contains entry.1 then found else (found.1.insert entry.1, entry :: found.2)
  { entries := (entries.foldl keep ({}, [])).2.reverse }

def save (before after : FileTree) : IO Unit := do
  for (location, node) in after.entries do
    if before.node? location != some node then
      match node with
      | .file content _ => IO.FS.writeBinFile (textOf location) content
      | .directory => IO.FS.createDirAll (textOf location)
      | .link _ => pure ()

def workspaceOf (invocation : Invocation) : IO Workspace := do
  let directory := (← IO.currentDir).toString
  let here := locationOf directory
  let entries ←
    match invocation with
    | .run request =>
      let project ← loadPath directory request.project
      let output ← loadPath directory (request.project.join request.output)
      pure (project ++ output)
    | _ => pure []
  let flags := (← IO.getEnv "CFLAGS").map fun value => ("CFLAGS", value)
  return {
    files := treeOf (entries ++ (here, .directory) :: above here)
    here
    environment := flags.toList }

def stamp : IO Stamp := do
  let now := (← Std.Time.Timestamp.now).val
  return .ofTime now.second.val.toNat now.nano.val.toNat

end Cythonizer.Main

def main (arguments : List String) : IO UInt32 := do
  let invocation := Cythonizer.CommandLine.Arguments.read arguments
  let before ← Cythonizer.Main.workspaceOf invocation
  let start := Cythonizer.CommandLine.Session.start (← Cythonizer.Main.stamp) invocation
  let (ending, after) := start.run before
  for line in Cythonizer.CommandLine.Session.written ending after.log do
    IO.println line
  Cythonizer.Main.save before.files after.files
  return ending.code.toUInt32
