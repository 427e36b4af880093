import Cythonizer.FileTree.Resolution

namespace Cythonizer.FileTree.Access

open Cythonizer.FileTree.Basic
open Cythonizer.FileTree.Resolution

/-- The place of a path and what stands there, links followed. -/
def find (tree : FileTree) (here : Location) (path : Path) : Except FileError (Location × Node) :=
  match resolve tree here path true with
  | .ok (.found location node) => .ok (location, node)
  | .ok (.free _ _ _) => .error .noEntry
  | .error error => .error error

def holds (tree : FileTree) (here : Location) (path : Path) : Bool :=
  (find tree here path).isOk

def isFile (tree : FileTree) (here : Location) (path : Path) : Bool :=
  match find tree here path with
  | .ok (_, .file _ _) => true
  | _ => false

def isDirectory (tree : FileTree) (here : Location) (path : Path) : Bool :=
  match find tree here path with
  | .ok (_, .directory) => true
  | _ => false

def pathOf (location : Location) : Path :=
  { text := "/" ++ "/".intercalate location.reverse }

def canonical (tree : FileTree) (here : Location) (path : Path) : Except FileError Path :=
  (find tree here path).map fun found => pathOf found.1

/-- What is in a file, whether it may be read or not. -/
def readBytes (tree : FileTree) (here : Location) (path : Path) : Except FileError ByteArray :=
  match find tree here path with
  | .ok (_, .file content _) => .ok content
  | .ok (_, _) => .error .isDirectory
  | .error error => .error error

def isUnreadable (tree : FileTree) (here : Location) (path : Path) : Bool :=
  match find tree here path with
  | .ok (_, .file _ mode) => !mode.readable
  | _ => false

def readText (tree : FileTree) (here : Location) (path : Path) : Except FileError String :=
  if isUnreadable tree here path then .error .denied
  else
    match readBytes tree here path with
    | .ok content =>
      match String.fromUTF8? content with
      | some text => .ok text
      | none => .error .notText
    | .error error => .error error

/-- The location that a file at a path has or gets, with the file that is there. -/
def openForWriting (tree : FileTree) (here : Location) (path : Path) :
    Except FileError (Location × Option (ByteArray × FileMode)) :=
  match resolve tree here path true with
  | .ok (.found location (.file content mode)) =>
    if mode.writable then .ok (location, some (content, mode)) else .error .denied
  | .ok (.found _ _) => .error .isDirectory
  | .ok (.free directory name asDirectory) =>
    if asDirectory then .error .isDirectory else .ok (name :: directory, none)
  | .error error => .error error

def write (tree : FileTree) (here : Location) (path : Path) (content : ByteArray) :
    Except FileError FileTree := do
  let (location, before) ← openForWriting tree here path
  return tree.put location (.file content ((before.map Prod.snd).getD {}))

/-- Copy a file and its mode. The copy is emptied before it is filled, so that a file copied onto
itself is lost. -/
def copy (tree : FileTree) (here : Location) (source target : Path) :
    Except FileError FileTree := do
  match ← find tree here source with
  | (origin, .file content mode) =>
    if mode.readable then
      let (location, _) ← openForWriting tree here target
      let copied := if location = origin then ByteArray.empty else content
      return tree.put location (.file copied mode)
    else throw .denied
  | _ => throw .notRegular

def makeDirectory (tree : FileTree) (here : Location) (path : Path) : Except FileError FileTree :=
  match resolve tree here path false with
  | .ok (.found _ _) => .error .alreadyThere
  | .ok (.free directory name _) => .ok (tree.put (name :: directory) .directory)
  | .error error => .error error

def ensureDirectory (tree : FileTree) (here : Location) (path : Path) : Except FileError FileTree :=
  match makeDirectory tree here path with
  | .ok changed => .ok changed
  | .error error => if isDirectory tree here path then .ok tree else .error error

/-- Make a directory and at most `depth` directories above it. What was made stays when a later one
cannot be made. -/
def makeDirectoriesUpTo (depth : Nat) (tree : FileTree) (here : Location) (path : Path) :
    Option FileError × FileTree :=
  if path.text.isEmpty then (none, tree)
  else
    match ensureDirectory tree here path, depth with
    | .ok changed, _ => (none, changed)
    | .error .noEntry, depth + 1 =>
      match path.parent? with
      | none => (some .noParent, tree)
      | some parent =>
        match makeDirectoriesUpTo depth tree here parent with
        | (some error, changed) => (some error, changed)
        | (none, changed) =>
          match ensureDirectory changed here path with
          | .ok made => (none, made)
          | .error error => (some error, changed)
    | .error error, _ => (some error, tree)

def makeDirectories (tree : FileTree) (here : Location) (path : Path) :
    Option FileError × FileTree :=
  makeDirectoriesUpTo path.text.length tree here path

end Cythonizer.FileTree.Access
