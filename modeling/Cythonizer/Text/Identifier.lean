import Cythonizer.Text.IdentifierTable

namespace Cythonizer.Text.Identifier

open Cythonizer.Text.IdentifierTable

def within (ranges : List (Nat × Nat)) (code : Nat) : Bool :=
  ranges.any fun (low, high) => low ≤ code && code ≤ high

/-- A letter, the underscore, or a character above U+007F that may begin an identifier. -/
def isBeginning (c : Char) : Bool :=
  if c.toNat < 128 then c.isAlpha || c == '_' else within beginning c.toNat

/-- A character that may follow the first one of a name. -/
def isInner (c : Char) : Bool :=
  if c.toNat < 128 then c.isAlphanum || c == '_'
  else within beginning c.toNat || within inner c.toNat

theorem isInner_of_isBeginning {c : Char} (h : isBeginning c = true) : isInner c = true := by
  unfold isBeginning at h
  unfold isInner
  split
  · simp_all [Char.isAlphanum]
    rcases h with h | h <;> simp [h]
  · simp_all

end Cythonizer.Text.Identifier
