import Cythonizer.FileTree.Access
import Cythonizer.Problem.Basic

/-!
The sources of a project: the regular files below its root with the extension `py`, without those in
excluded directories. Links below the root are not followed.
-/

namespace Cythonizer.Project.Sources

open Cythonizer.FileTree.Basic
open Cythonizer.FileTree.Resolution
open Cythonizer.Path.Basic
open Cythonizer.Problem.Basic

def sourceExtension : String := "py"

def isSource (path : Path) : Bool :=
  path.extension? == some sourceExtension

structure Exclusions where
  names : List String := []
  locations : List Location := []
  deriving DecidableEq, Repr

/-- Exclude what a path leads to, if it leads anywhere. -/
def Exclusions.excludeDirectory (exclusions : Exclusions) (tree : FileTree) (here : Location)
    (path : Path) : Exclusions :=
  match FileTree.Access.find tree here path with
  | .ok (location, _) => { exclusions with locations := exclusions.locations ++ [location] }
  | .error _ => exclusions

/-- The names that lead down from a directory to a location below it. -/
def namesBelow (base location : Location) : Option (List String) :=
  if base.isSuffixOf location then some (location.take (location.length - base.length)).reverse
  else none

/-- Whether no directory on the way down is excluded. The last name is the file's own. -/
def isOpen (exclusions : Exclusions) (here : Location) : List String → Bool
  | [] => true
  | [_] => true
  | name :: rest =>
    !exclusions.names.contains name && !exclusions.locations.contains (name :: here) &&
      isOpen exclusions (name :: here) rest

def pathBelow (root : Path) (names : List String) : Path :=
  names.foldl (fun path name => path.join ⟨name⟩) root

/-- The source that an entry of the tree is, as a path from the root. -/
def sourceOf (exclusions : Exclusions) (root : Path) (base : Location) :
    Location × Node → Option Path
  | (location, .file _ _) =>
    match namesBelow base location with
    | some (name :: rest) =>
      let path := pathBelow root (name :: rest)
      if isOpen exclusions base (name :: rest) && isSource path then some path else none
    | _ => none
  | _ => none

def sourcesBelow (exclusions : Exclusions) (tree : FileTree) (root : Path) (base : Location) :
    List Path :=
  tree.entries.filterMap (sourceOf exclusions root base)

def walkFailure [Encoding] (root : Path) (error : FileError) : Failure :=
  { message := "IO error for operation on " ++ root.shown ++ ": " ++ error.message
    causes := [error.message] }

/-- The sources below a root, and the failure to look there. A root that is a link is followed to a
directory and nowhere else. -/
def sources [Encoding] (exclusions : Exclusions) (tree : FileTree) (here : Location) (root : Path) :
    List (Except Failure Path) :=
  match resolve tree here root false with
  | .error error => [.error (walkFailure root error)]
  | .ok (.free _ _ _) => [.error (walkFailure root .noEntry)]
  | .ok (.found _ (.file _ _)) => if isSource root then [.ok root] else []
  | .ok (.found location .directory) => (sourcesBelow exclusions tree root location).map .ok
  | .ok (.found _ (.link _)) =>
    match FileTree.Access.find tree here root with
    | .ok (location, .directory) => (sourcesBelow exclusions tree root location).map .ok
    | .ok _ => []
    | .error error => [.error (walkFailure root error)]

end Cythonizer.Project.Sources
