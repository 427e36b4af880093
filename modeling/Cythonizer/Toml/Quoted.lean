import Cythonizer.Text.Hexadecimal
import Cythonizer.Toml.Blank
import Cythonizer.Toml.Tables

namespace Cythonizer.Toml.Quoted

open Cythonizer.Text.Hexadecimal
open Cythonizer.Toml.Blank
open Cythonizer.Toml.Tables

structure Form where
  quote : Char
  /-- The string stands between three quotes and may go over lines. -/
  goesOver : Bool
  deriving DecidableEq, Repr

/-- In double quotes a backslash starts an escape. -/
def Form.hasEscapes (form : Form) : Bool :=
  form.quote == '"'

/-- The character that a code stands for. -/
def scalar? (code : Nat) : Option Char :=
  if code.isValidChar then some (.ofNat code) else none

def escaped? : List Char → Option (Char × List Char)
  | '"' :: rest => some ('"', rest)
  | '\\' :: rest => some ('\\', rest)
  | 'b' :: rest => some (.ofNat 8, rest)
  | 'f' :: rest => some (.ofNat 12, rest)
  | 'n' :: rest => some ('\n', rest)
  | 'r' :: rest => some ('\r', rest)
  | 't' :: rest => some ('\t', rest)
  | 'u' :: rest => do
    let (code, rest) ← code? 4 rest
    return (← scalar? code, rest)
  | 'U' :: rest => do
    let (code, rest) ← code? 8 rest
    return (← scalar? code, rest)
  | _ => none

/--
The end of a string: the quotes that still belong to it, and the text behind. Up to two quotes may
stand right before the closing three.
-/
def closing? (form : Form) (text : List Char) : Option (List Char × List Char) :=
  if form.goesOver then
    let quotes := (text.take 5).takeWhile (· == form.quote)
    if 3 ≤ quotes.length then some (quotes.drop 3, text.drop quotes.length) else none
  else
    match text with
    | c :: rest => if c = form.quote then some ([], rest) else none
    | [] => none

/-- The text behind a backslash that joins two lines. -/
def joined? (form : Form) (text : List Char) : Option (List Char) :=
  if form.goesOver then (newline? (skipBlanks text)).map skipEmptyLines else none

def characters (form : Form) : Nat → List Char → Option (List Char × List Char)
  | 0, _ => none
  | fuel + 1, text =>
    match closing? form text, text with
    | some found, _ => some found
    | none, [] => none
    | none, c :: rest =>
      if form.hasEscapes ∧ c = '\\' then
        match joined? form rest with
        | some rest => characters form fuel rest
        | none => do
          let (c, rest) ← escaped? rest
          let (cs, rest) ← characters form fuel rest
          return (c :: cs, rest)
      else do
        let rest ←
          if isPlain c then some rest
          else if form.goesOver then newline? (c :: rest)
          else none
        let (cs, rest) ← characters form fuel rest
        return ((if isPlain c then c else '\n') :: cs, rest)

def body (form : Form) (text : List Char) : Option (String × List Char) :=
  (characters form (text.length + 1) text).map fun (cs, rest) => (String.ofList cs, rest)

def lineString : List Char → Option (String × List Char)
  | c :: rest => if c = '"' ∨ c = '\'' then body { quote := c, goesOver := false } rest else none
  | [] => none

/-- A string of any form. A line end right behind three opening quotes is no part of it. -/
def string : List Char → Option (String × List Char)
  | '"' :: '"' :: '"' :: rest =>
    body { quote := '"', goesOver := true } ((newline? rest).getD rest)
  | '\'' :: '\'' :: '\'' :: rest =>
    body { quote := '\'', goesOver := true } ((newline? rest).getD rest)
  | text => lineString text

/-- A character of a key without quotes. -/
def isBare (c : Char) : Bool :=
  c.isAlphanum || c == '-' || c == '_'

/-- One name of a key. -/
def name (text : List Char) : Option (String × List Char) :=
  match text.takeWhile isBare with
  | [] => lineString text
  | bare => some (String.ofList bare, text.dropWhile isBare)

/-- At most `count` names with dots between them, and the text behind the blanks that follow. -/
def names : Nat → List Char → Option (List String × List Char)
  | 0, _ => none
  | count + 1, text => do
    let (first, rest) ← name (skipBlanks text)
    match skipBlanks rest with
    | '.' :: rest =>
      let (more, rest) ← names count rest
      return (first :: more, rest)
    | rest => return ([first], rest)

/-- How deep keys, arrays and braces go. -/
def maxDepth : Nat := 79

def key (text : List Char) : Option (Key × List Char) := do
  let (names, rest) ← names maxDepth text
  return ({ path := names.dropLast, name := (← names.getLast?) }, rest)

end Cythonizer.Toml.Quoted
