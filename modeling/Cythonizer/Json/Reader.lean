import Cythonizer.Json.Value
import Cythonizer.Text.Hexadecimal

namespace Cythonizer.Json.Reader

open Cythonizer.Json.Value
open Cythonizer.Text.Hexadecimal

def isSpace (c : Char) : Bool :=
  c == ' ' || c == '\n' || c == '\t' || c == '\r'

def skip (text : List Char) : List Char :=
  text.dropWhile isSpace

/-- The character after `\u`. A character beyond four digits is written as two codes. -/
def unicode (text : List Char) : Option (Char × List Char) := do
  let (first, rest) ← code? 4 text
  if first < 0xD800 ∨ 0xDFFF < first then return (Char.ofNat first, rest)
  else if 0xDC00 ≤ first then none
  else
    match rest with
    | '\\' :: 'u' :: more => do
      let (second, rest) ← code? 4 more
      if 0xDC00 ≤ second ∧ second ≤ 0xDFFF then
        return (Char.ofNat (0x10000 + (first - 0xD800) * 0x400 + (second - 0xDC00)), rest)
      else none
    | _ => none

def escaped : List Char → Option (Char × List Char)
  | '"' :: rest => some ('"', rest)
  | '\\' :: rest => some ('\\', rest)
  | '/' :: rest => some ('/', rest)
  | 'b' :: rest => some (Char.ofNat 8, rest)
  | 'f' :: rest => some (Char.ofNat 12, rest)
  | 'n' :: rest => some ('\n', rest)
  | 'r' :: rest => some ('\r', rest)
  | 't' :: rest => some ('\t', rest)
  | 'u' :: rest => unicode rest
  | _ => none

def characters : Nat → List Char → Option (List Char × List Char)
  | 0, _ => none
  | _ + 1, [] => none
  | _ + 1, '"' :: rest => some ([], rest)
  | fuel + 1, '\\' :: rest => do
    let (c, rest) ← escaped rest
    let (text, rest) ← characters fuel rest
    return (c :: text, rest)
  | fuel + 1, c :: rest =>
    if c.toNat < 32 then none
    else do
      let (text, rest) ← characters fuel rest
      return (c :: text, rest)

def string (fuel : Nat) : List Char → Option (String × List Char)
  | '"' :: rest => (characters fuel rest).map fun (text, rest) => (String.ofList text, rest)
  | _ => none

def digits (text : List Char) : List Char × List Char :=
  (text.takeWhile Char.isDigit, text.dropWhile Char.isDigit)

def natOf (digits : List Char) : Nat :=
  digits.foldl (fun n c => 10 * n + (c.toNat - 48)) 0

def exponent : List Char → Option (Int × List Char)
  | c :: rest =>
    if c = 'e' ∨ c = 'E' then
      let (isNegative, rest) :=
        match rest with
        | '-' :: more => (true, more)
        | '+' :: more => (false, more)
        | _ => (false, rest)
      match digits rest with
      | ([], _) => none
      | (ds, rest) => some (if isNegative then -(natOf ds : Int) else natOf ds, rest)
    else some (0, c :: rest)
  | [] => some (0, [])

def unsigned (text : List Char) : Option (Number × List Char) := do
  match digits text with
  | ([], _) => none
  | (whole, rest) =>
    if whole.head? = some '0' ∧ 1 < whole.length then none
    else
      let (fraction, rest) ←
        match rest with
        | '.' :: more =>
          match digits more with
          | ([], _) => none
          | found => some found
        | _ => some ([], rest)
      let (power, rest) ← exponent rest
      let value := natOf (whole ++ fraction)
      let scale := (fraction.length : Int) - power
      match scale with
      | .ofNat scale => return ({ digits := value, scale }, rest)
      | .negSucc n => return ({ digits := value * Nat.pow 10 (n + 1), scale := 0 }, rest)

def number : List Char → Option (Number × List Char)
  | '-' :: rest => (unsigned rest).map fun (n, rest) => ({ n with digits := -n.digits }, rest)
  | text => unsigned text

mutual

/-- Read a value with room for so many brackets inside one another. -/
def value : Nat → Nat → List Char → Option (Value × List Char)
  | 0, _, _ => none
  | fuel + 1, room, text =>
    match skip text with
    | 'n' :: 'u' :: 'l' :: 'l' :: rest => some (.null, rest)
    | 't' :: 'r' :: 'u' :: 'e' :: rest => some (.boolean true, rest)
    | 'f' :: 'a' :: 'l' :: 's' :: 'e' :: rest => some (.boolean false, rest)
    | '"' :: rest => (string (fuel + 1) ('"' :: rest)).map fun (text, rest) => (.string text, rest)
    | '[' :: rest =>
      if room = 0 then none
      else
        match skip rest with
        | ']' :: rest => some (.array [], rest)
        | rest => (elements fuel (room - 1) rest).map fun (vs, rest) => (.array vs, rest)
    | '{' :: rest =>
      if room = 0 then none
      else
        match skip rest with
        | '}' :: rest => some (.object [], rest)
        | rest => (fields fuel (room - 1) rest).map fun (fs, rest) => (.object fs, rest)
    | rest => (number rest).map fun (n, rest) => (.number n, rest)

def elements : Nat → Nat → List Char → Option (List Value × List Char)
  | 0, _, _ => none
  | fuel + 1, room, text => do
    let (v, rest) ← value fuel room text
    match skip rest with
    | ']' :: rest => return ([v], rest)
    | ',' :: rest =>
      let (vs, rest) ← elements fuel room rest
      return (v :: vs, rest)
    | _ => none

def fields : Nat → Nat → List Char → Option (List Field × List Char)
  | 0, _, _ => none
  | fuel + 1, room, text => do
    let (name, rest) ← string (fuel + 1) (skip text)
    match skip rest with
    | ':' :: rest =>
      let (v, rest) ← value fuel room rest
      match skip rest with
      | '}' :: rest => return ([.field name v], rest)
      | ',' :: rest =>
        let (fs, rest) ← fields fuel room rest
        return (.field name v :: fs, rest)
      | _ => none
    | _ => none

end

/-- How many brackets may stand inside one another. -/
def nesting : Nat := 127

def read (text : List Char) : Option Value := do
  let (v, rest) ← value (2 * text.length + 2) nesting text
  if (skip rest).isEmpty then return v else none

end Cythonizer.Json.Reader
