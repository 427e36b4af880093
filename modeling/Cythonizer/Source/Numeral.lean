namespace Cythonizer.Source.Numeral

/-- The width of the digits at the start of the text, where a single underscore may follow a run. -/
def digits (text : List Char) : Nat :=
  go false text
where
  go (after : Bool) : List Char → Nat
    | [] => 0
    | c :: rest =>
      if c.isDigit then go true rest + 1
      else if c == '_' && after then go false rest + 1
      else 0

/-- The width of digits of another base, where a single underscore may precede a run. -/
def based (isDigit : Char → Bool) : List Char → Nat
  | [] => 0
  | c :: rest =>
    if isDigit c then based isDigit rest + 1
    else if c == '_' then
      match rest with
      | d :: _ => if isDigit d then based isDigit rest + 1 else 0
      | [] => 0
    else 0

/-- One more if the text goes on with one of the characters. -/
def suffix (letters : List Char) (text : List Char) : Nat :=
  match text with
  | c :: _ => if letters.contains c then 1 else 0
  | [] => 0

/-- The width of an exponent, zero if there is none. -/
def exponent (text : List Char) : Nat :=
  match text with
  | e :: rest =>
    if e == 'e' || e == 'E' then
      let sign := suffix ['+', '-'] rest
      let count := digits (rest.drop sign)
      if count == 0 then 0 else 1 + sign + count
    else 0
  | [] => 0

/-- The width of a whole number with its long or imaginary suffix. -/
def whole (text : List Char) : Nat :=
  let isHex (c : Char) := c.isDigit || ('a' ≤ c && c ≤ 'f') || ('A' ≤ c && c ≤ 'F')
  let plain :=
    let count := digits text
    if count == 0 then 0 else count + suffix ['l', 'L', 'j', 'J'] (text.drop count)
  let inBase (isDigit : Char → Bool) (rest : List Char) :=
    let count := based isDigit rest
    if count == 0 then plain else 2 + count + suffix ['l', 'L'] (rest.drop count)
  match text with
  | '0' :: b :: rest =>
    if b == 'x' || b == 'X' then inBase isHex rest
    else if b == 'o' || b == 'O' then inBase (fun c => '0' ≤ c && c ≤ '7') rest
    else if b == 'b' || b == 'B' then inBase (fun c => c == '0' || c == '1') rest
    else plain
  | _ => plain

/-- The width of a number with a point or an exponent, zero if there is none. -/
def fractional (text : List Char) : Nat :=
  let front := digits text
  let rest := text.drop front
  let unsuffixed := match rest with
    | '.' :: tail =>
      let back := digits tail
      if front == 0 && back == 0 then 0
      else front + 1 + back + exponent (tail.drop back)
    | _ =>
      let count := exponent rest
      if front == 0 || count == 0 then 0 else front + count
  if unsuffixed == 0 then 0 else unsuffixed + suffix ['j', 'J'] (text.drop unsuffixed)

/-- The width of the longest number at the start of the text, zero if there is none. -/
def width (text : List Char) : Nat :=
  max (whole text) (fractional text)

end Cythonizer.Source.Numeral
