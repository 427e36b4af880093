import Cythonizer.FileTree.Basic

namespace Cythonizer.FileTree.Resolution

open Cythonizer.FileTree.Basic
open Cythonizer.Path.Basic
open Cythonizer.Text.Pieces

inductive Place
  | found (location : Location) (node : Node)
  /-- A free name in a directory. With `asDirectory` the path has a slash after the name. -/
  | free (directory : Location) (name : String) (asDirectory : Bool)

/-- Where a path leads without following the links on the way. -/
inductive Descent
  | arrived (place : Place)
  | failed (error : FileError)
  /-- A link in a directory, with the pieces of the path behind it. -/
  | link (directory : Location) (target : Path) (rest : List (List Char))

/-- The longest name in bytes. -/
def nameLimit : Nat := 255

/-- Go from directory to directory. With `followLast` a link at the end of the path counts as one on
the way. -/
def descend (tree : FileTree) (followLast : Bool) (here : Location) : List (List Char) → Descent
  | [] => .arrived (.found here .directory)
  | piece :: rest =>
    if isIdle piece then descend tree followLast here rest
    else if piece = ['.', '.'] then descend tree followLast here.tail rest
    else
      let name := String.ofList piece
      let inside := name :: here
      if nameLimit < name.utf8ByteSize then .failed .nameTooLong
      else
        match tree.node? inside with
        | none =>
          if rest.all List.isEmpty then .arrived
            (.free here name !rest.isEmpty) else .failed .noEntry
        | some .directory => descend tree followLast inside rest
        | some (.link target) =>
          if rest.isEmpty && !followLast then .arrived (.found inside (.link target))
          else .link here target rest
        | some node => if rest.isEmpty then .arrived (.found inside node) else .failed .notDirectory

def linkLimit : Nat := 40

def startOf (here : Location) (path : Path) : Location :=
  if path.isAbsolute then [] else here

/-- Go on through at most `links` links. -/
def travel (tree : FileTree) (followLast : Bool) :
    Nat → Location → List (List Char) → Except FileError Place
  | links, here, path =>
    match descend tree followLast here path with
    | .arrived place => .ok place
    | .failed error => .error error
    | .link directory target rest =>
      match links with
      | 0 => .error .tooManyLinks
      | links + 1 =>
        travel tree followLast links (startOf directory target) (pieces '/' target.chars ++ rest)

def resolve (tree : FileTree) (here : Location) (path : Path) (followLast : Bool) :
    Except FileError Place :=
  if path.text.isEmpty then .error .noEntry
  else if path.chars.contains '\x00' then .error .nulInName
  else travel tree followLast linkLimit (startOf here path) (pieces '/' path.chars)

end Cythonizer.FileTree.Resolution
