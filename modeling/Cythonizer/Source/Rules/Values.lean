import Cythonizer.Source.Rules.Phrases

namespace Cythonizer.Source.Rules.Values

open Cythonizer.Source.Reader
open Cythonizer.Source.Rules.Phrases
open Cythonizer.Source.Keywords
open Cythonizer.Source.Lexemes

variable {source : List Char}

/-- Expressions separated by commas, perhaps with a comma at the end. The words in `stops` may stand
after such a comma. -/
def expressions (g : Grammar source) (after : Expect) (stops : List Keyword) :
    Parser source Unit := do
  let _ ← g (.expression after true)
  let starts (next : Next) := startsExpression next && !stops.any next.isWord
  let _ ← moreItems after.later operandStart starts do
    let _ ← g (.expression after.later true)

def yieldPhrase (g : Grammar source) (after : Expect) : Parser source Unit :=
  node .expression operandStart do
    keyword operandStart .kwYield
    let next ← peek (operandStart.union after)
    if next.isWord .kwFrom then
      take .word
      let _ ← g (.expression after.later true)
    else if startsExpression next then expressions g after.later after.words

def values (g : Grammar source) (after : Expect) : Parser source Shape := do
  if ← atWord operandStart .kwYield then yieldPhrase g after
  else expressions g after after.words
  return .other

end Cythonizer.Source.Rules.Values
