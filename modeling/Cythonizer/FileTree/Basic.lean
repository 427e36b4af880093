import Cythonizer.Path.Basic

/-!
Trees of files. A tree lists what stands at which location; looking up what was put there gives it
back (`node?_put`), and everything else stays (`node?_put_of_ne`).
-/

namespace Cythonizer.FileTree.Basic

/-- The names from a file up to the root, its own name first. -/
abbrev Location := List String

/-- What the program may do with a file. -/
structure FileMode where
  readable : Bool := true
  writable : Bool := true
  executable : Bool := false
  deriving DecidableEq, Repr

instance : Coe Bool FileMode := ⟨fun executable => { executable }⟩

inductive Node
  | file (content : ByteArray) (mode : FileMode)
  | directory
  | link (target : Path)

/-- The parts of a node, which tell it from all others. -/
def Node.parts : Node → Option (Array UInt8 × FileMode) × Option Path
  | .file content mode => (some (content.data, mode), none)
  | .directory => (none, none)
  | .link target => (none, some target)

theorem Node.eq_of_parts {a b : Node} (h : a.parts = b.parts) : a = b := by
  rcases a with ⟨⟨content⟩, mode⟩ | _ | ⟨target⟩ <;>
    rcases b with ⟨⟨content'⟩, mode'⟩ | _ | ⟨target'⟩ <;> simp_all [Node.parts]

instance : DecidableEq Node := fun a b =>
  decidable_of_iff (a.parts = b.parts) ⟨Node.eq_of_parts, congrArg Node.parts⟩

/-- Why the file system refuses an operation. -/
inductive FileError
  | noEntry
  | denied
  | alreadyThere
  | notDirectory
  | isDirectory
  | notExecutable
  | nameTooLong
  | tooManyLinks
  | nulInName
  | notText
  | notRegular
  | noParent
  /-- A refusal in words of its own. -/
  | other (text : String)
  deriving DecidableEq, Repr

def FileError.message : FileError → String
  | .noEntry => "No such file or directory (os error 2)"
  | .notExecutable => "Exec format error (os error 8)"
  | .denied => "Permission denied (os error 13)"
  | .alreadyThere => "File exists (os error 17)"
  | .notDirectory => "Not a directory (os error 20)"
  | .isDirectory => "Is a directory (os error 21)"
  | .nameTooLong => "File name too long (os error 36)"
  | .tooManyLinks => "Too many levels of symbolic links (os error 40)"
  | .nulInName => "file name contained an unexpected NUL byte"
  | .notText => "stream did not contain valid UTF-8"
  | .notRegular => "the source path is neither a regular file nor a symlink to a regular file"
  | .noParent => "failed to create whole tree"
  | .other text => text

/-- Put an entry in the place of the one at its location, or at the end. -/
def putEntry (location : Location) (node : Node) :
    List (Location × Node) → List (Location × Node)
  | [] => [(location, node)]
  | (l, n) :: rest =>
    if l = location then (location, node) :: rest else (l, n) :: putEntry location node rest

end Cythonizer.FileTree.Basic

namespace Cythonizer

open Cythonizer.FileTree.Basic

/-- The root is always there and is not listed. -/
structure FileTree where
  entries : List (Location × Node)
  deriving DecidableEq

def FileTree.empty : FileTree := { entries := [] }

def FileTree.put (tree : FileTree) (location : Location) (node : Node) : FileTree :=
  { entries := putEntry location node tree.entries }

def FileTree.node? (tree : FileTree) (location : Location) : Option Node :=
  if location = [] then some .directory
  else (tree.entries.find? fun e => e.1 = location).map Prod.snd

end Cythonizer

namespace Cythonizer.FileTree.Basic

private theorem find?_putEntry (location : Location) (node : Node)
    (entries : List (Location × Node)) :
    (putEntry location node entries).find? (fun e => e.1 = location) = some (location, node) := by
  induction entries with
  | nil => simp [putEntry]
  | cons e rest ih =>
      by_cases h : e.1 = location
      · simp [putEntry, h]
      · simp [putEntry, h, ih]

private theorem find?_putEntry_of_ne {location other : Location} (node : Node)
    (entries : List (Location × Node)) (h : other ≠ location) :
    (putEntry location node entries).find? (fun e => e.1 = other) =
      entries.find? fun e => e.1 = other := by
  induction entries with
  | nil => simp [putEntry, Ne.symm h]
  | cons e rest ih =>
      obtain ⟨l, n⟩ := e
      by_cases he : l = location
      · subst he
        simp [putEntry, Ne.symm h]
      · simp [putEntry, he, List.find?_cons, ih]

theorem node?_put {tree : FileTree} {location : Location} (node : Node) (h : location ≠ []) :
    (tree.put location node).node? location = some node := by
  simp [FileTree.node?, FileTree.put, h, find?_putEntry]

theorem node?_put_of_ne {tree : FileTree} {location other : Location} (node : Node)
    (h : other ≠ location) : (tree.put location node).node? other = tree.node? other := by
  simp [FileTree.node?, FileTree.put, find?_putEntry_of_ne node tree.entries h]

end Cythonizer.FileTree.Basic
