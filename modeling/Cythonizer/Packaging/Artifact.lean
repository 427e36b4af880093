import Cythonizer.FileTree.Access
import Cythonizer.Path.Naming

namespace Cythonizer.Packaging.Artifact

open Cythonizer.FileTree.Basic
open Cythonizer.Path.Basic
open Cythonizer.Text.Pieces

def compiledExtension : String := "so"

def directoryOf (source : Path) : Path :=
  match source.parent? with
  | some directory => if directory.text.isEmpty then { text := "." } else directory
  | none => { text := "." }

/-- The directory that is searched for the compiled file of a source: the one of the source as it is
shown. -/
def shownDirectory [Encoding] (source : Path) : Path :=
  { text := (directoryOf source).shown }

@[simp] theorem shownDirectory_textual (source : Path) :
    shownDirectory source = directoryOf source := by
  rw [shownDirectory, Path.shown_textual]

/-- A path and a name in it. What stands in the current directory is named alone. -/
def inside (directory : Path) (name : String) : Path :=
  if directory.same ⟨"."⟩ then { text := name } else directory.join ⟨name⟩

/-- Spell a directory piece by piece, as long as every piece is there. -/
def respell (tree : FileTree) (here : Location) : Path → List (List Char) → Option Path
  | path, [] => some path
  | path, piece :: rest =>
    let next := inside path (String.ofList piece)
    let isThere :=
      if piece = ['.'] || piece = ['.', '.'] then FileTree.Access.isDirectory tree here path
      else FileTree.Access.holds tree here next
    if isThere then respell tree here next rest else none

def namesIn (tree : FileTree) (directory : Location) : List String :=
  tree.entries.filterMap fun e =>
    match e.1 with
    | name :: rest => if rest = directory then some name else none
    | [] => none

/-- The name that comes first in the order of characters. -/
def least : List String → Option String
  | [] => none
  | name :: rest =>
    match least rest with
    | some other => if other < name then some other else some name
    | none => some name

/-- Whether a name is the stem, a dot, and anything that ends with the extension of compiled files.
-/
def isNamedFor (stem name : String) : Bool :=
  (stem.toList ++ ['.']).isPrefixOf name.toList &&
    (cutAtDot name.toList).2 == some compiledExtension.toList

/-- The compiled file beside a source, first in the order of names. A source whose stem is no text
has none, and names that are no text are passed over. -/
def artifact? [Encoding] (tree : FileTree) (here : Location) (source : Path) : Option Path := do
  let stem ← source.stem?.filter isProper
  let written := shownDirectory source
  let (start, way) : Path × List Char :=
    if written.isAbsolute then (⟨"/"⟩, written.chars.drop 1) else (⟨"."⟩, written.chars)
  let directory ← respell tree here start (pieces '/' way)
  match FileTree.Access.find tree here directory with
  | .ok (location, .directory) =>
    let isCompiled (name : String) : Bool :=
      isProper name && isNamedFor stem name && FileTree.Access.isFile tree here
        (inside directory name)
    let name ← least ((namesIn tree location).filter isCompiled)
    return inside directory name
  | _ => none

end Cythonizer.Packaging.Artifact
