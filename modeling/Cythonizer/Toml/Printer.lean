import Cythonizer.Toml.Blank
import Cythonizer.Toml.Values

namespace Cythonizer.Toml.Printer

open Cythonizer.Toml.Blank
open Cythonizer.Toml.Values

/-- The length of the longest run of a character, behind a run of the given length. -/
def longestRun (c : Char) (run : Nat) : List Char → Nat
  | [] => run
  | d :: rest => if d = c then longestRun c (run + 1) rest else max run (longestRun c 0 rest)

def hexDigit (n : Nat) : Char :=
  if n < 10 then .ofNat (48 + n) else .ofNat (55 + n)

/-- A character between double quotes, quotes apart. -/
def escape (keepsLines : Bool) (c : Char) : List Char :=
  if c = '\\' then ['\\', '\\']
  else if c = '\n' then if keepsLines then ['\n'] else ['\\', 'n']
  else if c = '\t' then ['\\', 't']
  else if c = '\r' then ['\\', 'r']
  else if c.toNat = 8 then ['\\', 'b']
  else if c.toNat = 12 then ['\\', 'f']
  else if isPlain c then [c]
  else ['\\', 'u', '0', '0', hexDigit (c.toNat / 16), hexDigit (c.toNat % 16)]

/-- Text between double quotes in which at most `limit` quotes stand in a row, `run` of them before
it. -/
def escapeAll (keepsLines : Bool) (limit : Nat) (run : Nat) : List Char → List Char
  | [] => []
  | c :: rest =>
    if c = '"' then
      if run < limit then '"' :: escapeAll keepsLines limit (run + 1) rest
      else '\\' :: '"' :: escapeAll keepsLines limit 0 rest
    else escape keepsLines c ++ escapeAll keepsLines limit 0 rest

def basic (text : List Char) : List Char :=
  '"' :: escapeAll false 0 0 text ++ ['"']

def literal (text : List Char) : List Char :=
  '\'' :: text ++ ['\'']

def opening (text : List Char) : List Char :=
  if text.contains '\n' then ['\n'] else []

def basicLines (text : List Char) : List Char :=
  ['"', '"', '"'] ++ opening text ++ escapeAll true 2 0 text ++ ['"', '"', '"']

def literalLines (text : List Char) : List Char :=
  ['\'', '\'', '\''] ++ opening text ++ text ++ ['\'', '\'', '\'']

/--
A string in the first of these forms that needs no escape but that of a tab: on one line in double
or single quotes, over lines in double or single quotes. If there is none, in double quotes.
-/
def quote (text : List Char) : List Char :=
  let hasCodes := text.any fun c => !isPlain c && c != '\n'
  let hasLines := text.contains '\n'
  let isClean := !hasCodes && !text.contains '\\'
  let double := longestRun '"' 0 text
  let single := longestRun '\'' 0 text
  if isClean && double == 0 && !hasLines then basic text
  else if !hasCodes && single == 0 && !hasLines then literal text
  else if isClean && double ≤ 2 then basicLines text
  else if !hasCodes && single ≤ 2 then literalLines text
  else if hasLines then basicLines text
  else basic text

def isBareName (name : List Char) : Bool :=
  !name.isEmpty && name.all fun c => c.isAlphanum || c == '-' || c == '_'

def key (name : String) : List Char :=
  if isBareName name.toList then name.toList else quote name.toList

mutual

/-- A value. An array of more than one element has a line for each. -/
def value : Value → List Char
  | .string text => quote text.toList
  | .integer n => (toString n).toList
  | .float text => text.toList
  | .boolean true => ['t', 'r', 'u', 'e']
  | .boolean false => ['f', 'a', 'l', 's', 'e']
  | .dateTime text => text.toList
  | .array [] => ['[', ']']
  | .array [v] => '[' :: value v ++ [']']
  | .array vs => '[' :: elements vs ++ ['\n', ']']
  | .table [] => ['{', '}']
  | .table fs => '{' :: fields fs ++ [' ', '}']

def elements : List Value → List Char
  | [] => []
  | v :: rest => ['\n', ' ', ' ', ' ', ' '] ++ value v ++ ',' :: elements rest

def fields : List Field → List Char
  | [] => []
  | [.field name v] => ' ' :: key name ++ [' ', '=', ' '] ++ value v
  | .field name v :: rest => ' ' :: key name ++ [' ', '=', ' '] ++ value v ++ ',' :: fields rest

end

def line (f : Field) : List Char :=
  key f.name ++ [' ', '=', ' '] ++ value f.value ++ ['\n']

/-- A table under its header, or nothing for another value. -/
def section? (f : Field) : Option (List Char) :=
  match f.value with
  | .table fs => some (['['] ++ key f.name ++ [']', '\n'] ++ fs.flatMap line)
  | _ => none

def document (fs : List Field) : List Char :=
  let lines := (fs.filter fun f => (section? f).isNone).flatMap line
  let blocks := if lines.isEmpty then [] else [lines]
  ['\n'].intercalate (blocks ++ fs.filterMap section?)

end Cythonizer.Toml.Printer
