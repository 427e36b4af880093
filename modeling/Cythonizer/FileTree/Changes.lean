import Cythonizer.FileTree.Access

namespace Cythonizer.FileTree.Changes

open Cythonizer.FileTree.Basic

inductive Change
  | file (path : Path) (content : ByteArray)
  | directory (path : Path)

/-- The tree after a change, which is left out where the file system refuses it. -/
def Change.apply (here : Location) (tree : FileTree) : Change → FileTree
  | .file path content => (FileTree.Access.write tree here path content).toOption.getD tree
  | .directory path => (FileTree.Access.makeDirectory tree here path).toOption.getD tree

def applyAll (here : Location) (tree : FileTree) (changes : List Change) : FileTree :=
  changes.foldl (Change.apply here) tree

end Cythonizer.FileTree.Changes
