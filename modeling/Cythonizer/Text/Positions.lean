namespace Cythonizer.Text.Positions

/-- A place in a text. Both counts begin with one. -/
structure Position where
  line : Nat
  column : Nat
  deriving DecidableEq, Repr

def size (text : List Char) : Nat :=
  text.foldl (fun n c => n + c.utf8Size) 0

def after (text : List Char) : Position :=
  let line := text.reverse.takeWhile (· != '\n')
  { line := text.count '\n' + 1, column := size line + 1 }

end Cythonizer.Text.Positions
