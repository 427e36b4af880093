namespace Cythonizer.Source.Gaps

inductive Gap
  | blank
  | comment
  | continuation
  deriving DecidableEq, Repr

def isSpace (c : Char) : Bool :=
  let code := c.toNat
  code == 0x20 || (9 ≤ code && code ≤ 13) || code == 0xFEFF || code == 0x2060 || code == 0x200B

/-- The width of the backslash and line end that join two lines, zero if there is none. -/
def continuationWidth (text : List Char) : Nat :=
  match text with
  | '\\' :: '\n' :: _ => 2
  | '\\' :: '\r' :: '\n' :: _ => 3
  | '\\' :: '\x00' :: _ => 2
  | _ => 0

/-- The width of the comment at the start of the text, zero if there is none. -/
def commentWidth (text : List Char) : Nat :=
  match text with
  | '#' :: rest => (rest.takeWhile fun c => c != '\n' && c != '\x00').length + 1
  | _ => 0

end Cythonizer.Source.Gaps
