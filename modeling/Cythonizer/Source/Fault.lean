import Cythonizer.Source.Syntax
import Cythonizer.Text.Identifier

/-!
Where the fault of a refused text is. The parser is left open (`Locator`). Unless another one is
given, a token that ends its line and could stand in the place of the tokens before it puts the
fault on those, and so does a comma behind another one; otherwise the fault is where the text cannot
go on (`locate`).
-/

namespace Cythonizer.Source.Fault

open Cythonizer.Text.Identifier

/-- White space that stays on its line. -/
def isMargin (c : Char) : Bool :=
  c == ' ' || c == '\t'

/-- The length of the token at the start of a text. -/
def tokenLength : List Char → Nat
  | [] => 0
  | c :: rest => if isInner c then ((c :: rest).takeWhile isInner).length else 1

/-- Whether nothing but a comment follows on the line. -/
def endsLine (text : List Char) : Bool :=
  match text.dropWhile isMargin with
  | [] => true
  | c :: _ => c == '\n' || c == '\r' || c == '#'

/-- A text that is given from right to left, without the blanks and joined lines it begins with. -/
def skipMargin : List Char → List Char
  | '\n' :: '\\' :: rest => skipMargin rest
  | c :: rest => if isMargin c then skipMargin rest else c :: rest
  | [] => []

/-- The texts before the last tokens of a line, which is given from right to left: before the last
one, before the last two, and so on. -/
def before : Nat → List Char → List (List Char)
  | 0, _ => []
  | fuel + 1, reversed =>
    match skipMargin reversed with
    | [] => []
    | '\n' :: _ => []
    | text =>
      let shorter := text.drop (tokenLength text)
      shorter :: before fuel shorter

/-- Whether two texts meet at two commas. The first text is given from right to left. -/
def doublesComma (reversed after : List Char) : Bool :=
  (skipMargin reversed).head? == some ',' && after.head? == some ','

/-- Whether the text `after` can follow `front` for more than its first `length` characters. -/
def fits (after : List Char) (length : Nat) (front : List Char) : Bool :=
  match Syntax.ofSource (front ++ after) with
  | .ok _ => true
  | .error reached => front.length + length ≤ reached

/-- The number of characters before the fault of a text that cannot go on after `reached` ones. -/
def locate (source : List Char) (reached : Nat) : Nat :=
  let front := source.take reached
  let after := source.drop reached
  let length := tokenLength after
  if length = 0 || !(endsLine (after.drop length) || doublesComma front.reverse after) then reached
  else
    match (before front.length front.reverse).find? fun text => fits after length text.reverse with
    | some text => text.length
    | none => reached

/-- A parser, which finds the fault of a text that cannot go on after some characters. -/
class Locator where
  locate : List Char → Nat → Nat

instance (priority := low) nearest : Locator := ⟨locate⟩

end Cythonizer.Source.Fault
