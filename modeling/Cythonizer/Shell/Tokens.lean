namespace Cythonizer.Shell.Tokens

inductive Part
  | text (text : List Char) (quoted : Bool)
  /-- A variable, or a parameter of the script. -/
  | parameter (name : List Char) (quoted : Bool)
  deriving DecidableEq, Repr

abbrev Word := List Part

inductive Token
  | word (word : Word)
  /-- What ends a command, or a line end. -/
  | sign (text : List Char)
  /-- Output to the file that the next word names. -/
  | output (descriptor : Nat) (appending : Bool)
  /-- Output to where another output goes. -/
  | duplicate (descriptor target : Nat)
  deriving DecidableEq, Repr

def plain? : Word → Option (List Char)
  | [] => some []
  | .text text false :: rest => (plain? rest).map (text ++ ·)
  | _ => none

def isBlank (c : Char) : Bool :=
  c == ' ' || c == '\t'

/-- The characters that end a word outside of quotes. -/
def endsWord (c : Char) : Bool :=
  isBlank c || ['\n', ';', '&', '|', '<', '>', '(', ')'].contains c

def isNameStart (c : Char) : Bool :=
  c.isAlpha || c == '_'

def isNameRest (c : Char) : Bool :=
  c.isAlphanum || c == '_'

/-- What follows a dollar sign, and the text behind it. -/
def afterDollar (quoted : Bool) (rest : List Char) : Part × List Char :=
  match rest with
  | '{' :: more =>
    (.parameter (more.takeWhile (· != '}')) quoted, (more.dropWhile (· != '}')).drop 1)
  | c :: more =>
    if isNameStart c then
      (.parameter (rest.takeWhile isNameRest) quoted, rest.dropWhile isNameRest)
    else if c.isDigit || ['@', '*', '#', '?', '$'].contains c then (.parameter [c] quoted, more)
    else (.text ['$'] quoted, rest)
  | [] => (.text ['$'] quoted, [])

def inQuotes : Nat → List Char → Option (Word × List Char)
  | 0, _ => none
  | _ + 1, [] => none
  | _ + 1, '"' :: rest => some ([], rest)
  | fuel + 1, '\\' :: c :: rest =>
    let kept := if ['$', '"', '\\', '`'].contains c then [c] else if c = '\n' then [] else ['\\', c]
    (inQuotes fuel rest).map fun (word, more) => (.text kept true :: word, more)
  | fuel + 1, '$' :: rest =>
    let (part, more) := afterDollar true rest
    (inQuotes fuel more).map fun (word, behind) => (part :: word, behind)
  | fuel + 1, c :: rest =>
    (inQuotes fuel rest).map fun (word, more) => (.text [c] true :: word, more)

def word : Nat → List Char → Option (Word × List Char)
  | 0, _ => none
  | _ + 1, [] => some ([], [])
  | fuel + 1, c :: rest =>
    if endsWord c then some ([], c :: rest)
    else
      let go (parts : Word) (more : List Char) : Option (Word × List Char) :=
        (word fuel more).map fun (word, behind) => (parts ++ word, behind)
      match c, rest with
      | '\'', _ =>
        match rest.dropWhile (· != '\'') with
        | [] => none
        | _ :: more => go [.text (rest.takeWhile (· != '\'')) true] more
      | '"', _ =>
        match inQuotes fuel rest with
        | some (parts, more) => go (.text [] true :: parts) more
        | none => none
      | '\\', '\n' :: more => go [] more
      | '\\', c :: more => go [.text [c] true] more
      | '$', _ =>
        let (part, more) := afterDollar false rest
        go [part] more
      | c, _ => go [.text [c] false] rest

/-- Output from a descriptor, given the text after the `>`. -/
def redirection (descriptor : Nat) : List Char → Token × List Char
  | '>' :: rest => (.output descriptor true, rest)
  | '&' :: '1' :: rest => (.duplicate descriptor 1, rest)
  | '&' :: '2' :: rest => (.duplicate descriptor 2, rest)
  | rest => (.output descriptor false, rest)

/-- The tokens of a script, unless a quote stays open. -/
def tokens : Nat → List Char → Option (List Token)
  | 0, _ => none
  | _ + 1, [] => some []
  | fuel + 1, c :: rest =>
    let go (token : Token) (more : List Char) : Option (List Token) :=
      (tokens fuel more).map (token :: ·)
    match c, rest with
    | '#', _ => tokens fuel (rest.dropWhile (· != '\n'))
    | '\\', '\n' :: more => tokens fuel more
    | '&', '&' :: more => go (.sign ['&', '&']) more
    | '|', '|' :: more => go (.sign ['|', '|']) more
    | '>', _ => let (token, more) := redirection 1 rest; go token more
    | '1', '>' :: more => let (token, behind) := redirection 1 more; go token behind
    | '2', '>' :: more => let (token, behind) := redirection 2 more; go token behind
    | c, _ =>
      if isBlank c then tokens fuel rest
      else if endsWord c then go (.sign [c]) rest
      else
        match word (fuel + 1) (c :: rest) with
        | some (w, more) => go (.word w) more
        | none => none

def ofText (text : List Char) : Option (List Token) :=
  tokens (text.length + 1) text

end Cythonizer.Shell.Tokens
