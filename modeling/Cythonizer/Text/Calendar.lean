namespace Cythonizer.Text.Calendar

structure Date where
  year : Nat
  month : Nat
  day : Nat
  deriving DecidableEq, Repr

/--
The date so many days after the first of January 1970. Years are counted from March on, so that a
leap day is the last day of its year, and in eras of 400 years, which all have the same number of
days.
-/
def dateOf (days : Nat) : Date :=
  let shifted := days + 719468
  let inEra := shifted % 146097
  let yearOfEra := (inEra - inEra / 1460 + inEra / 36524 - inEra / 146096) / 365
  let dayOfYear := inEra - (365 * yearOfEra + yearOfEra / 4 - yearOfEra / 100)
  let monthFromMarch := (5 * dayOfYear + 2) / 153
  let month := if monthFromMarch < 10 then monthFromMarch + 3 else monthFromMarch - 9
  let year := yearOfEra + shifted / 146097 * 400
  { year := if month ≤ 2 then year + 1 else year
    month
    day := dayOfYear - (153 * monthFromMarch + 2) / 5 + 1 }

def padded (width n : Nat) : String :=
  let digits := toString n
  String.ofList (List.replicate (width - digits.length) '0') ++ digits

def dateText (seconds : Nat) : String :=
  let date := dateOf (seconds / 86400)
  "-".intercalate [padded 4 date.year, padded 2 date.month, padded 2 date.day]

def timeText (seconds : Nat) : String :=
  ":".intercalate
    [padded 2 (seconds / 3600 % 24), padded 2 (seconds / 60 % 60), padded 2 (seconds % 60)]

example : dateOf 0 = { year := 1970, month := 1, day := 1 } := by decide

example : dateOf 19782 = { year := 2024, month := 2, day := 29 } := by decide

end Cythonizer.Text.Calendar
