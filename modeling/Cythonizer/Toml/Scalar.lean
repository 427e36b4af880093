import Cythonizer.Text.Hexadecimal
import Cythonizer.Toml.Quoted

namespace Cythonizer.Toml.Scalar

open Cythonizer.Text.Hexadecimal
open Cythonizer.Toml.Quoted
open Cythonizer.Toml.Values

/-- The text behind a sign, if there is one. -/
def unsigned : List Char → List Char
  | '+' :: rest => rest
  | '-' :: rest => rest
  | text => text

/-- The text behind more digits, each after at most one underscore. -/
def moreDigits (isDigit : Char → Bool) : List Char → Option (List Char)
  | '_' :: c :: rest => if isDigit c then moreDigits isDigit rest else none
  | '_' :: [] => none
  | c :: rest => if isDigit c then moreDigits isDigit rest else some (c :: rest)
  | [] => some []

def digits (isDigit : Char → Bool) : List Char → Option (List Char)
  | c :: rest => if isDigit c then moreDigits isDigit rest else none
  | [] => none

def whole (text : List Char) : Option (List Char) :=
  match unsigned text with
  | '0' :: rest => some rest
  | rest => digits Char.isDigit rest

/-- What stands before the rest of a text. -/
def before (rest text : List Char) : List Char :=
  text.take (text.length - rest.length)

/-- The number that digits spell in a base, underscores aside. -/
def valueOf (base : Nat) (digits : List Char) : Nat :=
  (digits.filterMap value?).foldl (fun n d => base * n + d) 0

/-- What the numbers of 64 bits stay below, and its negative is the least of them. -/
def integerBound : Int := 9223372036854775808

/-- A number of 64 bits with its sign. -/
def integerOf (value : Int) : Option Value :=
  if -integerBound ≤ value ∧ value < integerBound then some (.integer value) else none

/-- A number behind the mark of its base. -/
def based (base : Nat) (isDigit : Char → Bool) (text : List Char) : Option (Value × List Char) := do
  let rest ← digits isDigit text
  return (← integerOf (valueOf base (before rest text)), rest)

def integer : List Char → Option (Value × List Char)
  | '0' :: 'x' :: rest => based 16 (fun c => (value? c).isSome) rest
  | '0' :: 'o' :: rest => based 8 (fun c => '0' ≤ c && c ≤ '7') rest
  | '0' :: 'b' :: rest => based 2 (fun c => c == '0' || c == '1') rest
  | text => do
    let rest ← whole text
    let n : Int := valueOf 10 (before rest (unsigned text))
    return (← integerOf (if text.head? = some '-' then -n else n), rest)

def exponent : List Char → Option (List Char)
  | c :: rest => if c = 'e' ∨ c = 'E' then digits Char.isDigit (unsigned rest) else none
  | [] => none

/-- The middle between the greatest finite number of 64 bits and the next power of two. -/
def finiteBound : Nat :=
  Nat.pow 2 1024 - Nat.pow 2 970

/-- Whether a number rounds to a finite one of 64 bits. The mantissa has so many places. -/
def isFinite (mantissa : Nat) (power : Int) (places : Nat) : Bool :=
  let length := (places : Int) + power
  mantissa == 0 || length ≤ 308 ||
    length ≤ 309 &&
      match power with
      | .ofNat n => mantissa * Nat.pow 10 n < finiteBound
      | .negSucc n => mantissa < finiteBound * Nat.pow 10 (n + 1)

/-- Whether the number that a text spells is finite, its sign aside. -/
def spellsFinite (text : List Char) : Bool :=
  let whole := text.takeWhile fun c => c != '.' && c != 'e' && c != 'E'
  let rest := text.drop whole.length
  let fraction := match rest with
    | '.' :: rest => rest.takeWhile fun c => c != 'e' && c != 'E'
    | _ => []
  let power := (text.dropWhile fun c => c != 'e' && c != 'E').drop 1
  let exponent : Int :=
    if power.head? = some '-' then -(valueOf 10 power : Int) else valueOf 10 power
  let ds := ((whole ++ fraction).filter Char.isDigit).dropWhile (· == '0')
  isFinite (valueOf 10 ds) (exponent - (fraction.filter Char.isDigit).length) ds.length

/-- A number with a point or an exponent. Only a negative one may be too great. -/
def float (text : List Char) : Option (Value × List Char) := do
  let rest ← whole text
  let rest ←
    match rest with
    | '.' :: rest => do
      let rest ← digits Char.isDigit rest
      match rest with
      | c :: _ => if c = 'e' ∨ c = 'E' then exponent rest else some rest
      | [] => some []
    | _ => exponent rest
  let written := before rest text
  if text.head? = some '-' ∨ spellsFinite written then
    return (.float (String.ofList written), rest)
  else none

def word? (word text : List Char) : Option (List Char) :=
  if word.isPrefixOf text then some (text.drop word.length) else none

def special (text : List Char) : Option (Value × List Char) := do
  let rest ← word? ['i', 'n', 'f'] (unsigned text) <|> word? ['n', 'a', 'n'] (unsigned text)
  return (.float (String.ofList (before rest text)), rest)

def field (count least greatest : Nat) (text : List Char) : Option (Nat × List Char) :=
  let ds := text.take count
  let n := valueOf 10 ds
  if ds.length = count ∧ ds.all Char.isDigit ∧ least ≤ n ∧ n ≤ greatest then
    some (n, text.drop count)
  else none

def behind (c : Char) : List Char → Option (List Char)
  | d :: rest => if d = c then some rest else none
  | [] => none

def daysOfMonth (year month : Nat) : Nat :=
  if month = 2 then
    if year % 4 = 0 ∧ (year % 100 ≠ 0 ∨ year % 400 = 0) then 29 else 28
  else if month = 4 ∨ month = 6 ∨ month = 9 ∨ month = 11 then 30
  else 31

def date (text : List Char) : Option (List Char) := do
  let (year, rest) ← field 4 0 9999 text
  let (month, rest) ← field 2 1 12 (← behind '-' rest)
  let (_, rest) ← field 2 1 (daysOfMonth year month) (← behind '-' rest)
  return rest

/-- The text behind a time of day. The second 60 is a leap second. -/
def time (text : List Char) : Option (List Char) := do
  let (_, rest) ← field 2 0 23 text
  let (_, rest) ← field 2 0 59 (← behind ':' rest)
  let (_, rest) ← field 2 0 60 (← behind ':' rest)
  match rest with
  | '.' :: c :: more =>
    return if c.isDigit then more.dropWhile Char.isDigit else rest
  | _ => return rest

def offset : List Char → Option (List Char)
  | c :: rest =>
    if c = 'Z' ∨ c = 'z' then some rest
    else if c = '+' ∨ c = '-' then do
      let (_, rest) ← field 2 0 23 rest
      let (_, rest) ← field 2 0 59 (← behind ':' rest)
      return rest
    else none
  | [] => none

/-- The text behind a date, with or without a time, or behind a time. -/
def moment (text : List Char) : Option (List Char) :=
  match date text with
  | none => time text
  | some rest =>
    match rest with
    | c :: more =>
      if c = 'T' ∨ c = 't' ∨ c = ' ' then
        match time more with
        | some rest => some ((offset rest).getD rest)
        | none => some rest
      else some rest
    | [] => some []

def dateTime (text : List Char) : Option (Value × List Char) := do
  let rest ← moment text
  return (.dateTime (String.ofList (before rest text)), rest)

def boolean (text : List Char) : Option (Value × List Char) :=
  (word? ['t', 'r', 'u', 'e'] text).map (fun rest => (.boolean true, rest)) <|>
    (word? ['f', 'a', 'l', 's', 'e'] text).map fun rest => (.boolean false, rest)

def scalar (text : List Char) : Option (Value × List Char) :=
  (string text).map (fun (s, rest) => (.string s, rest)) <|>
    boolean text <|> dateTime text <|> float text <|> special text <|> integer text

end Cythonizer.Toml.Scalar
