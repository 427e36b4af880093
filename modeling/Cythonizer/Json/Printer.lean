import Cythonizer.Json.Value

namespace Cythonizer.Json.Printer

open Cythonizer.Json.Value

def hexDigit (n : Nat) : Char :=
  if n < 10 then Char.ofNat (48 + n) else Char.ofNat (87 + n)

/-- A character of a string. Control characters, quotes and backslashes are escaped. -/
def escape (c : Char) : List Char :=
  if c = '"' then ['\\', '"']
  else if c = '\\' then ['\\', '\\']
  else if c = '\n' then ['\\', 'n']
  else if c = '\r' then ['\\', 'r']
  else if c = '\t' then ['\\', 't']
  else if c.toNat = 8 then ['\\', 'b']
  else if c.toNat = 12 then ['\\', 'f']
  else if c.toNat < 32 then
    ['\\', 'u', '0', '0', hexDigit (c.toNat / 16), hexDigit (c.toNat % 16)]
  else [c]

def quote (text : String) : List Char :=
  '"' :: text.toList.flatMap escape ++ ['"']

def numberText (n : Number) : List Char :=
  let digits := (toString n.digits.natAbs).toList
  let padded := List.replicate (n.scale + 1 - digits.length) '0' ++ digits
  let whole := padded.take (padded.length - n.scale)
  let sign := if n.digits < 0 then ['-'] else []
  if n.scale = 0 then sign ++ digits else sign ++ whole ++ '.' :: padded.drop whole.length

mutual

def compact : Value → List Char
  | .null => ['n', 'u', 'l', 'l']
  | .boolean true => ['t', 'r', 'u', 'e']
  | .boolean false => ['f', 'a', 'l', 's', 'e']
  | .number n => numberText n
  | .string text => quote text
  | .array elements => '[' :: compactElements elements
  | .object fields => '{' :: compactFields fields

def compactElements : List Value → List Char
  | [] => [']']
  | [v] => compact v ++ [']']
  | v :: rest => compact v ++ ',' :: compactElements rest

def compactFields : List Field → List Char
  | [] => ['}']
  | [.field name v] => quote name ++ ':' :: compact v ++ ['}']
  | .field name v :: rest => quote name ++ ':' :: compact v ++ ',' :: compactFields rest

end

def margin (depth : Nat) : List Char :=
  '\n' :: List.replicate (2 * depth) ' '

mutual

def pretty (depth : Nat) : Value → List Char
  | .array [] => ['[', ']']
  | .object [] => ['{', '}']
  | .array elements => '[' :: prettyElements (depth + 1) elements ++ margin depth ++ [']']
  | .object fields => '{' :: prettyFields (depth + 1) fields ++ margin depth ++ ['}']
  | v => compact v

def prettyElements (depth : Nat) : List Value → List Char
  | [] => []
  | [v] => margin depth ++ pretty depth v
  | v :: rest => margin depth ++ pretty depth v ++ ',' :: prettyElements depth rest

def prettyFields (depth : Nat) : List Field → List Char
  | [] => []
  | [.field name v] => margin depth ++ quote name ++ [':', ' '] ++ pretty depth v
  | .field name v :: rest =>
    margin depth ++ quote name ++ [':', ' '] ++ pretty depth v ++ ',' :: prettyFields depth rest

end

end Cythonizer.Json.Printer
