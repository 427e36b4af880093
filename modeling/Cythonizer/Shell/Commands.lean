import Cythonizer.Shell.Tokens

namespace Cythonizer.Shell.Commands

open Cythonizer.Shell.Tokens

inductive Redirection
  | file (descriptor : Nat) (appending : Bool) (name : Word)
  | duplicate (descriptor target : Nat)
  deriving DecidableEq, Repr

inductive Command
  | nothing
  | simple (words : List Word) (redirections : List Redirection)
  | sequence (first second : Command)
  /-- The second command runs if the first one succeeds. -/
  | both (first second : Command)
  /-- The second command runs if the first one fails. -/
  | either (first second : Command)
  | negation (command : Command)
  | choice (condition yes no : Command)
  | forEach (name : List Char) (values : List Word) (body : Command)
  deriving Repr

abbrev Parsed := Option (Command × List Token)

def isWord (text : String) : Token → Bool
  | .word w => plain? w == some text.toList
  | _ => false

/-- The words that end a list of commands. -/
def isTerminator (token : Token) : Bool :=
  ["then", "elif", "else", "fi", "do", "done"].any (isWord · token)

def isSign (text : String) : Token → Bool
  | .sign t => t == text.toList
  | _ => false

def isSeparator (token : Token) : Bool :=
  isSign ";" token || isSign "\n" token

/-- The rest after a word that has to come first. -/
def expect (text : String) : List Token → Option (List Token)
  | token :: rest => if isWord text token then some rest else none
  | [] => none

def simple : List Token → Option (List Word × List Redirection × List Token)
  | .word w :: rest =>
    (simple rest).map fun (words, redirections, more) => (w :: words, redirections, more)
  | .output descriptor appending :: .word w :: rest =>
    (simple rest).map fun (words, redirections, more) =>
      (words, .file descriptor appending w :: redirections, more)
  | .output _ _ :: _ => none
  | .duplicate descriptor target :: rest =>
    (simple rest).map fun (words, redirections, more) =>
      (words, .duplicate descriptor target :: redirections, more)
  | rest => some ([], [], rest)

mutual

/-- Commands up to a word that ends them. -/
def list : Nat → List Token → Parsed
  | 0, _ => none
  | fuel + 1, tokens =>
    match tokens.dropWhile isSeparator with
    | [] => some (.nothing, [])
    | token :: rest =>
      if isTerminator token then some (.nothing, token :: rest)
      else
        match command fuel (token :: rest) with
        | none => none
        | some (first, more) =>
          match chain fuel first more with
          | some (c, behind) =>
            match behind with
            | [] => some (c, [])
            | sign :: _ =>
              if isSeparator sign then
                (list fuel behind).map fun (second, more) => (.sequence c second, more)
              else none
          | none => none

/-- What follows a command with `&&` and `||`. -/
def chain : Nat → Command → List Token → Parsed
  | 0, _, _ => none
  | fuel + 1, first, tokens =>
    match tokens with
    | token :: rest =>
      let behind := rest.dropWhile (isSign "\n")
      if isSign "&&" token then
        match command fuel behind with
        | some (second, more) => chain fuel (.both first second) more
        | none => none
      else if isSign "||" token then
        match command fuel behind with
        | some (second, more) => chain fuel (.either first second) more
        | none => none
      else some (first, tokens)
    | [] => some (first, [])

def command : Nat → List Token → Parsed
  | 0, _ => none
  | fuel + 1, tokens =>
    match tokens with
    | [] => none
    | token :: rest =>
      if isWord "if" token then choice fuel rest
      else if isWord "for" token then forEach fuel rest
      else if isWord "!" token then
        (command fuel rest).map fun (c, more) => (.negation c, more)
      else
        match simple tokens with
        | some ([], [], _) => none
        | some (words, redirections, more) => some (.simple words redirections, more)
        | none => none

def choice : Nat → List Token → Parsed
  | 0, _ => none
  | fuel + 1, tokens => do
    let (condition, more) ← list fuel tokens
    let more ← expect "then" more
    let (yes, more) ← list fuel more
    match more with
    | token :: rest =>
      if isWord "fi" token then return (.choice condition yes .nothing, rest)
      else if isWord "elif" token then
        let (no, rest) ← choice fuel rest
        return (.choice condition yes no, rest)
      else if isWord "else" token then
        let (no, rest) ← list fuel rest
        let rest ← expect "fi" rest
        return (.choice condition yes no, rest)
      else none
    | [] => none

def forEach : Nat → List Token → Parsed
  | 0, _ => none
  | fuel + 1, tokens => do
    match tokens with
    | .word w :: rest =>
      let name ← plain? w
      let rest ← expect "in" rest
      let (values, _, rest) ← simple rest
      let rest ← expect "do" (rest.dropWhile isSeparator)
      let (body, rest) ← list fuel rest
      let rest ← expect "done" rest
      return (.forEach name values body, rest)
    | _ => none

end

def ofText (text : List Char) : Option Command := do
  let tokens ← Tokens.ofText text
  let (c, rest) ← list (4 * tokens.length + 4) tokens
  if rest.isEmpty then return c else none

end Cythonizer.Shell.Commands
