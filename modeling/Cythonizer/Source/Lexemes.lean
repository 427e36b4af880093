import Cythonizer.Source.Gaps
import Cythonizer.Source.Keywords
import Cythonizer.Source.Numeral
import Cythonizer.Source.Quote
import Cythonizer.Text.Identifier

/-!
The lexemes of a source text. Which lexeme comes next depends on what the grammar admits at that
point: a line end closes a statement only where one may close, and a change of indentation counts
only outside of brackets. Lexemes are measured by numbers of characters and carry no text.
-/

namespace Cythonizer.Source.Lexemes

open Cythonizer.Source.Gaps
open Cythonizer.Source.Keywords
open Cythonizer.Source.Quote
open Cythonizer.Text.Identifier

/-- What the grammar admits at a point, as far as reading the next lexeme depends on it. -/
structure Expect where
  lineEnd : Bool := false
  indent : Bool := false
  dedent : Bool := false
  closer : Bool := false
  quote : Bool := false
  binding : Bool := false
  power : Bool := false
  powerUpdate : Bool := false
  ellipsis : Bool := false
  handler : Bool := false
  /-- Keywords that may follow an operand here and not everywhere. -/
  words : List Keyword := []
  /-- The phrase that this follows begins where a target of an assignment could begin. -/
  target : Bool := false
  /-- The phrase that this follows begins where an item in brackets begins. -/
  item : Bool := false
  deriving DecidableEq, Repr

def Expect.union (a b : Expect) : Expect where
  lineEnd := a.lineEnd || b.lineEnd
  indent := a.indent || b.indent
  dedent := a.dedent || b.dedent
  closer := a.closer || b.closer
  quote := a.quote || b.quote
  binding := a.binding || b.binding
  power := a.power || b.power
  powerUpdate := a.powerUpdate || b.powerUpdate
  ellipsis := a.ellipsis || b.ellipsis
  handler := a.handler || b.handler
  words := a.words ++ b.words
  target := a.target || b.target
  item := a.item || b.item

/-- What the later operands of a phrase may be followed by. -/
def Expect.later (e : Expect) : Expect :=
  { e with binding := false, target := false, item := false }

/-- The open blocks, innermost first, by the column of their statements, and the open string
literals. A column is kept in one byte. -/
structure Layout where
  indents : List Nat := []
  strings : List Delimiter := []
  /-- The string literal opened last is a format string and still open. -/
  inFormat : Bool := false
  deriving DecidableEq, Repr

def Layout.column (layout : Layout) : Nat :=
  layout.indents.headD 0

inductive Category
  | lineEnd
  | indent
  | dedent
  | name
  | number
  | symbol
  | quote
  | ending
  | unknown
  deriving DecidableEq, Repr

/-- The next lexeme: the gaps before it, its category and width, and the layout after it. -/
structure Lexeme where
  gaps : List (Gap × Nat) := []
  category : Category
  width : Nat := 0
  layout : Layout
  deriving DecidableEq, Repr

def Lexeme.before (lexeme : Lexeme) : Nat :=
  lexeme.gaps.foldl (fun n gap => n + gap.2) 0

/-- What a look ahead over blanks found: whether a line ended, the column reached, counted in two
bytes, the column of the first comment passed, and the text from there on. -/
structure Ahead where
  lineEnded : Bool := false
  column : Nat := 0
  comment : Option Nat := none
  width : Nat := 0
  text : List Char := []

/-- Where the look ahead stands: between lexemes, in a comment, or after a backslash. -/
inductive Place
  | blank
  | comment
  | backslash
  | backslashReturn

/-- Look ahead over blanks and joined lines, and over comments once a line has ended if
`throughComments`. There is no answer for a backslash that joins no lines and for a comment on the
line of the last lexeme. -/
def lookAhead (throughComments : Bool) : Place → Ahead → List Char → Option Ahead
  | _, seen, [] => some { seen with lineEnded := true, column := 0, text := [] }
  | .blank, seen, c :: rest =>
    let next (column : Nat) : Ahead :=
      { seen with column := column % 65536, width := seen.width + 1 }
    match c with
    | '\n' => lookAhead throughComments .blank { next 0 with lineEnded := true } rest
    | ' ' => lookAhead throughComments .blank (next (seen.column + 1)) rest
    | '\t' => lookAhead throughComments .blank (next (seen.column + 8)) rest
    | '\r' | '\x0c' => lookAhead throughComments .blank (next 0) rest
    | '#' =>
      if !throughComments then some { seen with text := c :: rest }
      else if !seen.lineEnded then none
      else
        let first := seen.comment.or (some seen.column)
        lookAhead throughComments .comment { next seen.column with comment := first } rest
    | '\\' => lookAhead throughComments .backslash (next seen.column) rest
    | _ => some { seen with text := c :: rest }
  | .comment, seen, c :: rest =>
    let place := if c == '\n' || c == '\x00' then Place.blank else .comment
    lookAhead throughComments place { seen with column := 0, width := seen.width + 1 } rest
  | .backslash, seen, c :: rest =>
    let passed : Ahead := { seen with width := seen.width + 1 }
    match c with
    | '\n' => lookAhead throughComments .blank passed rest
    | '\r' => lookAhead throughComments .backslashReturn passed rest
    | _ => none
  | .backslashReturn, seen, c :: rest =>
    if c == '\n' then lookAhead throughComments .blank { seen with width := seen.width + 1 } rest
    else none

/-- The lexeme of layout at a point, if there is one: an indent or a dedent where a line starts
deeper or less deep than the block, a line end, or the opening of a string literal. -/
def layoutLexeme (e : Expect) (layout : Layout) (text : List Char) : Option Lexeme := do
  let ahead ← lookAhead (e.indent || e.dedent || e.lineEnd || e.handler) .blank {} text
  let column := layout.column
  let quoted := ahead.text.head?.any isMark
  if ahead.lineEnded && e.indent && column < ahead.column then
    let indents := ahead.column % 256 :: layout.indents
    return { category := .indent, layout := { layout with indents } }
  if ahead.lineEnded && (e.dedent || !(e.lineEnd || e.quote && quoted || e.closer)) &&
      ahead.column < column && !layout.inFormat && ahead.comment.all (· < column) then
    return { category := .dedent, layout := { layout with indents := layout.indents.drop 1 } }
  if ahead.lineEnded && e.lineEnd then
    return { category := .lineEnd, layout }
  if !e.quote || ahead.comment.isSome then none
  else
    let (delimiter, width) ← opening ahead.text
    let gaps := if ahead.width == 0 then [] else [(Gap.blank, ahead.width)]
    let strings := delimiter :: layout.strings
    return { gaps, category := .quote, width,
             layout := { layout with strings, inFormat := delimiter.format } }

/-- The width of the sign at the start of the text, the longest one that the grammar admits. -/
def symbolWidth (e : Expect) (text : List Char) : Nat :=
  let two (a b : Char) : Nat :=
    if a == '*' && b == '*' then if e.power then 2 else 1
    else if a == ':' && b == '=' then if e.binding then 2 else 1
    else if a == '!' then if b == '=' || ('a' ≤ b && b ≤ 'z') then 2 else 0
    else if a == '-' && b == '>' || a == '<' && b == '>' then 2
    else if (a == '/' || a == '<' || a == '>') && b == a then 2
    else if b == '=' && "<>=+-*/%&|^@".toList.contains a then 2
    else if "()[]\x7b\x7d,:;.@=+-*/%&|^~<>".toList.contains a then 1
    else 0
  match text with
  | a :: b :: c :: _ =>
    if a == '.' && b == '.' && c == '.' && e.ellipsis then 3
    else if c == '=' && a == b &&
        (a == '/' || a == '<' || a == '>' || a == '*' && (e.power || e.powerUpdate)) then 3
    else two a b
  | a :: b :: [] => two a b
  | a :: [] => two a ' '
  | [] => 0

/-- The lexeme at the start of a text without blanks and comments. -/
def plainLexeme (e : Expect) (layout : Layout) (text : List Char) : Lexeme :=
  match text with
  | [] => { category := .ending, layout }
  | c :: rest =>
    let number := Numeral.width text
    if isBeginning c then
      { category := .name, width := (rest.takeWhile isInner).length + 1, layout }
    else if 0 < number then { category := .number, width := number, layout }
    else
      let sign := symbolWidth e text
      if 0 < sign then { category := .symbol, width := sign, layout }
      else { category := .unknown, layout }

/-- The next lexeme of the text. Comments and joined lines are passed one at a time, and after each
the layout is looked at anew. -/
def read (e : Expect) (layout : Layout) : Nat → List Char → Lexeme
  | 0, _ => { category := .unknown, layout }
  | fuel + 1, text =>
    match layoutLexeme e layout text with
    | some lexeme => lexeme
    | none =>
      let space := (text.takeWhile isSpace).length
      let rest := text.drop space
      let before := if space == 0 then [] else [(Gap.blank, space)]
      let comment := commentWidth rest
      let joined := continuationWidth rest
      let onward (gap : Gap) (width : Nat) :=
        let lexeme := read e layout fuel (rest.drop width)
        { lexeme with gaps := before ++ (gap, width) :: lexeme.gaps }
      if 0 < comment then onward .comment comment
      else if 0 < joined then onward .continuation joined
      else
        let lexeme := plainLexeme e layout rest
        { lexeme with gaps := before }

end Cythonizer.Source.Lexemes
