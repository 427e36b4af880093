import Cythonizer.Source.Gaps

namespace Cythonizer.Source.Quote

open Cythonizer.Source.Gaps

/-- How a string literal was opened, which decides how its characters are read and where it ends. -/
structure Delimiter where
  mark : Char
  triple : Bool := false
  raw : Bool := false
  bytes : Bool := false
  format : Bool := false
  deriving DecidableEq, Repr

def isMark (c : Char) : Bool :=
  c == '"' || c == '\'' || c == '`'

/-- The letters that may stand before the mark, in any number and order. -/
def isFlag (c : Char) : Bool :=
  "fFrRbBuU".toList.contains c

/-- The opening of a string literal at the start of the text, and its width. -/
def opening (text : List Char) : Option (Delimiter × Nat) :=
  let flags := text.takeWhile isFlag
  let has (a b : Char) := flags.contains a || flags.contains b
  let delimiter (mark : Char) (triple : Bool) : Delimiter :=
    ⟨mark, triple, has 'r' 'R', has 'b' 'B', has 'f' 'F'⟩
  match text.dropWhile isFlag with
  | mark :: second :: third :: _ =>
    if !isMark mark then none
    else if mark != '`' && second == mark && third == mark then
      some (delimiter mark true, flags.length + 3)
    else some (delimiter mark false, flags.length + 1)
  | mark :: _ => if isMark mark then some (delimiter mark false, flags.length + 1) else none
  | [] => none

/-- What comes next between the quotes. -/
inductive Piece
  | content
  | field
  | closing
  /-- Passed where a line ends in a literal that is not tripled. -/
  | gap (gap : Gap)
  deriving DecidableEq, Repr

/-- The number of hexadecimal digits at the start of the text, none if there are fewer than asked.
-/
def hexDigits (count : Nat) (text : List Char) : Option Nat :=
  let isHex (c : Char) := c.isDigit || ('a' ≤ c && c ≤ 'f') || ('A' ≤ c && c ≤ 'F')
  if (text.take count).length == count && (text.take count).all isHex then some count else none

/-- The width of the escape sequence that a backslash opens, given the text after the backslash.
A backslash that opens none stands for itself. -/
def escapeWidth (text : List Char) : Nat :=
  match text with
  | '\r' :: '\n' :: _ => 3
  | 'u' :: rest => 1 + ((hexDigits 4 rest).map (· + 1)).getD 0
  | 'U' :: rest => 1 + ((hexDigits 8 rest).map (· + 1)).getD 0
  | 'x' :: rest => 1 + ((hexDigits 2 rest).map (· + 1)).getD 0
  | 'N' :: '\x7b' :: rest =>
    let name := rest.takeWhile (· != '\x7d')
    if !name.isEmpty && name.length < rest.length then name.length + 4 else 1
  | c :: _ =>
    if c.isDigit then 1 + ((text.take 3).takeWhile Char.isDigit).length
    else if c == '\n' || "'\"abfrntv\\".toList.contains c then 2
    else 1
  | [] => 1

/-- The characters that a backslash of a raw literal protects. -/
def rawSkip (mark : Char) (text : List Char) : Nat :=
  let escaped := match text with
    | c :: _ => if c == mark || c == '\\' then 1 else 0
    | [] => 0
  match text.drop escaped with
  | '\r' :: '\n' :: _ => escaped + 2
  | '\r' :: _ => escaped + 1
  | '\n' :: _ => escaped + 1
  | _ => escaped

/-- The stretch of plain content or the closing mark at the start of the text. `filled` says whether
content was seen, `width` counts the characters passed. A line end closes a literal that is not
tripled, unless it is the first character of a stretch. -/
def stretch (d : Delimiter) : Nat → Bool → Nat → List Char → Option (Piece × Nat)
  | 0, _, _, _ => none
  | _ + 1, _, _, [] => none
  | fuel + 1, filled, width, c :: rest =>
    let found := if filled then some (Piece.content, width) else none
    if c == '\x00' then none
    else if d.format && (c == '\x7b' || c == '\x7d') then found
    else if c == '\\' then
      if d.raw then
        let skip := rawSkip d.mark rest
        stretch d fuel filled (width + 1 + skip) (rest.drop skip)
      else if d.bytes then
        match rest with
        | letter :: more =>
          if letter == 'N' || letter == 'u' || letter == 'U' then
            stretch d fuel true (width + 2 + (more.take 1).length) (more.drop 1)
          else found
        | [] => found
      else found
    else if c == d.mark then
      if d.triple then
        match rest with
        | second :: third :: _ =>
          if second != d.mark then some (.content, width + 1)
          else if third != d.mark then some (.content, width + 2)
          else if filled then some (.content, width)
          else some (.closing, width + 3)
        | second :: [] => some (.content, if second == d.mark then width + 2 else width + 1)
        | [] => some (.content, width + 1)
      else if filled then some (.content, width)
      else some (.closing, width + 1)
    else if c == '\n' && filled && !d.triple then none
    else stretch d fuel true (width + 1) rest

/-- The piece at the start of a text that has no stretch: an escape sequence, a field, or a gap.
Given are the blanks before it. -/
def interruption (blanks : Nat) (text : List Char) : Option (Nat × Piece × Nat) :=
  let joined := continuationWidth text
  match text with
  | '\x7b' :: _ => some (blanks, .field, 1)
  | '#' :: _ => some (blanks, .gap .comment, commentWidth text)
  | '\\' :: rest =>
    if blanks == 0 && rest.head? != some '\x00' then some (0, .content, escapeWidth rest)
    else if 0 < joined then some (blanks, .gap .continuation, joined)
    else none
  | _ => none

/-- The next piece between the quotes: the blanks before it, the piece and its width. -/
def piece (d : Delimiter) (fuel : Nat) (text : List Char) : Option (Nat × Piece × Nat) :=
  let plain := (stretch d fuel false 0 text).map fun (piece, width) => (0, piece, width)
  match d.format, text with
  | true, '\x7b' :: '\x7b' :: _ => some (0, .content, 2)
  | true, '\x7d' :: '\x7d' :: _ => some (0, .content, 2)
  | true, '\x7b' :: _ => some (0, .field, 1)
  | true, '\x7d' :: _ => none
  | _, _ =>
    let blanks := (text.takeWhile isSpace).length
    plain.or (interruption blanks (text.drop blanks))

end Cythonizer.Source.Quote
