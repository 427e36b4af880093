namespace Cythonizer.Toml.Blank

def isBlank (c : Char) : Bool :=
  c == ' ' || c == '\t'

def skipBlanks (text : List Char) : List Char :=
  text.dropWhile isBlank

/-- A tab or a character that is no ASCII control character. -/
def isPlain (c : Char) : Bool :=
  c == '\t' || (32 ≤ c.toNat && c.toNat != 127)

def newline? : List Char → Option (List Char)
  | '\n' :: rest => some rest
  | '\r' :: '\n' :: rest => some rest
  | _ => none

/-- The text behind blanks, at most one comment, and a line end or the end of the text. -/
def lineEnd? (text : List Char) : Option (List Char) :=
  let rest :=
    match skipBlanks text with
    | '#' :: rest => rest.dropWhile isPlain
    | rest => rest
  if rest.isEmpty then some [] else newline? rest

mutual

/-- The text behind blanks, line ends and comments; every comment needs its line end. -/
def skipLines : List Char → Option (List Char)
  | '#' :: rest => skipComment rest
  | '\r' :: '\n' :: rest => skipLines rest
  | c :: rest => if isBlank c ∨ c = '\n' then skipLines rest else some (c :: rest)
  | [] => some []

/-- Like `skipLines`, inside a comment. -/
def skipComment : List Char → Option (List Char)
  | '\n' :: rest => skipLines rest
  | '\r' :: '\n' :: rest => skipLines rest
  | c :: rest => if isPlain c then skipComment rest else none
  | [] => none

end

/-- The text behind blanks and line ends. -/
def skipEmptyLines : List Char → List Char
  | '\r' :: '\n' :: rest => skipEmptyLines rest
  | c :: rest => if isBlank c ∨ c = '\n' then skipEmptyLines rest else c :: rest
  | [] => []

end Cythonizer.Toml.Blank
