import Cythonizer.Text.Pieces

/-!
Paths. A path keeps the text it was written with; it is compared and taken apart by its components,
so `p//a` and `p/./a` are other spellings of `p/a`.
-/

namespace Cythonizer.Path.Basic

open Cythonizer.Text.Pieces

inductive Component
  /-- The `/` at the start. -/
  | root
  /-- A `.` at the start. -/
  | current
  | parent
  | name (text : List Char)
  deriving DecidableEq, Repr

/-- A piece that names nothing: an empty one or a `.`. -/
def isIdle (piece : List Char) : Bool :=
  piece.isEmpty || piece == ['.']

/-- The `/` or the `.` at the start of a text. A `.` counts where it is a whole piece. -/
def anchor : List Char → Option Component
  | '/' :: _ => some .root
  | ['.'] => some .current
  | '.' :: '/' :: _ => some .current
  | _ => none

def body (text : List Char) : List Char :=
  if (anchor text).isSome then text.drop 1 else text

def anchorText (text : List Char) : List Char :=
  if (anchor text).isSome then text.take 1 else []

theorem anchorText_append_body (text : List Char) : anchorText text ++ body text = text := by
  unfold anchorText body
  split
  · exact List.take_append_drop 1 text
  · rfl

def Component.ofPiece (piece : List Char) : Component :=
  if piece = ['.', '.'] then .parent else .name piece

def bodyComponents (text : List Char) : List Component :=
  ((pieces '/' text).filter fun piece => !isIdle piece).map Component.ofPiece

/-- Pieces without the idle ones at their end. -/
def dropIdleEnd (pieces : List (List Char)) : List (List Char) :=
  (pieces.reverse.dropWhile isIdle).reverse

/-- A file name cut at its last dot, if there is a dot after the first character. -/
def cutAtDot (name : List Char) : List Char × Option (List Char) :=
  let extension := (name.reverse.takeWhile (· != '.')).reverse
  let stem := name.take (name.length - extension.length - 1)
  if extension.length = name.length || stem.isEmpty then (name, none) else (stem, some extension)

/-- The text of a path up to the end of its last piece that is not idle. -/
def upToName (text : List Char) : List Char :=
  anchorText text ++ spread '/' (dropIdleEnd (pieces '/' (body text)))

/-- Pieces after their first ones, which have to name the components. -/
def afterComponents : List Component → List (List Char) → Option (List (List Char))
  | [], pieces => some pieces
  | _ :: _, [] => none
  | c :: rest, piece :: more =>
    if isIdle piece then afterComponents (c :: rest) more
    else if Component.ofPiece piece = c then afterComponents rest more
    else none

end Cythonizer.Path.Basic

namespace Cythonizer

open Cythonizer.Path.Basic
open Cythonizer.Text.Pieces

structure Path where
  text : String
  deriving DecidableEq, Repr

def Path.chars (path : Path) : List Char :=
  path.text.toList

def Path.ofChars (text : List Char) : Path :=
  { text := String.ofList text }

def Path.components (path : Path) : List Component :=
  (anchor path.chars).toList ++ bodyComponents (body path.chars)

/-- Whether two paths are spellings of one path. -/
def Path.same (a b : Path) : Bool :=
  a.components == b.components

def Path.isAbsolute (path : Path) : Bool :=
  path.chars.head? == some '/'

/-- The path `other` as seen from `base`. An absolute path is the same from everywhere. -/
def Path.join (base other : Path) : Path :=
  if other.isAbsolute then other
  else
    match base.chars.getLast? with
    | none | some '/' => { text := base.text ++ other.text }
    | some _ => { text := base.text ++ "/" ++ other.text }

/-- The path without its last component. -/
def Path.parent? (path : Path) : Option Path :=
  let named := dropIdleEnd (pieces '/' (body path.chars))
  if named.isEmpty then
    if anchor path.chars = some .current then some { text := "" } else none
  else some (.ofChars (anchorText path.chars ++ spread '/' (dropIdleEnd named.dropLast)))

def Path.fileName? (path : Path) : Option String :=
  match path.components.getLast? with
  | some (.name text) => some (String.ofList text)
  | _ => none

def Path.stem? (path : Path) : Option String :=
  path.fileName?.map fun name => String.ofList (cutAtDot name.toList).1

/-- What follows the last dot of the file name. -/
def Path.extension? (path : Path) : Option String :=
  path.fileName?.bind fun name => (cutAtDot name.toList).2.map String.ofList

/-- The path with `extension` after the stem of its file name, whatever followed it before. -/
def Path.extend (path : Path) (extension : String) : Path :=
  match path.fileName? with
  | none => path
  | some name =>
    let stem := (cutAtDot name.toList).1
    let front := upToName path.chars
    .ofChars (front.take (front.length - name.toList.length + stem.length) ++
      '.' :: extension.toList)

/-- The path with another extension. The end of the text is cut by the length of the old one first.
-/
def Path.withExtension (path : Path) (extension : String) : Path :=
  match path.extension? with
  | none => path.extend extension
  | some old =>
    let kept := path.chars.take (path.chars.length - old.toList.length)
    Path.extend (.ofChars kept) extension

/-- The path as seen from `base`, if `base` is a path above it or the path itself. -/
def Path.stripPrefix? (path base : Path) : Option Path :=
  let trimmed (pieces : List (List Char)) : Path :=
    .ofChars (spread '/' (dropIdleEnd (pieces.dropWhile isIdle)))
  match base.components with
  | [] => some (.ofChars (upToName path.chars))
  | c :: rest =>
    match anchor path.chars with
    | some first =>
      if first = c then (afterComponents rest (pieces '/' (body path.chars))).map trimmed else none
    | none => (afterComponents (c :: rest) (pieces '/' (body path.chars))).map trimmed

/-- Whether `base` is a path above this one or the path itself. -/
def Path.startsWith (path base : Path) : Bool :=
  base.components.isPrefixOf path.components

end Cythonizer
