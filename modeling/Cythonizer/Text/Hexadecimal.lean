namespace Cythonizer.Text.Hexadecimal

def value? (c : Char) : Option Nat :=
  if c.isDigit then some (c.toNat - 48)
  else if 'a' ≤ c ∧ c ≤ 'f' then some (c.toNat - 87)
  else if 'A' ≤ c ∧ c ≤ 'F' then some (c.toNat - 55)
  else none

/-- The number that the digits spell behind the digits read so far. -/
def continue? (start : Nat) : List Char → Option Nat
  | [] => some start
  | c :: rest => do continue? (16 * start + (← value? c)) rest

/-- The number that exactly `count` digits spell, and the text behind them. -/
def code? (count : Nat) (text : List Char) : Option (Nat × List Char) :=
  let digits := text.take count
  if digits.length = count then (continue? 0 digits).map fun n => (n, text.drop count) else none

end Cythonizer.Text.Hexadecimal
