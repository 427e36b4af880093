import Mathlib.Data.Nat.Digits.Lemmas
import Cythonizer.Text.Hexadecimal

namespace Cythonizer.Proofs.Text.Digits

open Cythonizer.Text.Hexadecimal

section Fronts

variable {p : Char → Bool} {front rest : List Char}

theorem takeWhile_front (inside : ∀ c ∈ front, p c = true)
    (behind : ∀ c ∈ rest.head?, p c = false) :
    (front ++ rest).takeWhile p = front := by
  rw [List.takeWhile_append_of_pos inside]
  cases rest with
  | nil => simp
  | cons c rest => simp [behind c (by simp)]

theorem dropWhile_front (inside : ∀ c ∈ front, p c = true)
    (behind : ∀ c ∈ rest.head?, p c = false) :
    (front ++ rest).dropWhile p = rest := by
  rw [List.dropWhile_append_of_pos inside]
  cases rest with
  | nil => simp
  | cons c rest => simp [behind c (by simp)]

end Fronts

theorem isDigit_of_mem_toDigits {n : Nat} {c : Char} (h : c ∈ Nat.toDigits 10 n) :
    c.isDigit = true :=
  Nat.isDigit_of_mem_toDigits (by decide) (by decide) h

theorem digitChar_eq_zero {n : Nat} (hn : n < 10) (h : n.digitChar = '0') : n = 0 := by
  have small : ∀ n < 10, n.digitChar = '0' → n = 0 := by decide
  exact small n hn h

theorem eq_zero_of_head?_toDigits {n : Nat} (h : (Nat.toDigits 10 n).head? = some '0') : n = 0 := by
  induction n using Nat.strong_induction_on with
  | _ n ih =>
      by_cases hn : n < 10
      · rw [Nat.toDigits_of_lt_base hn] at h
        exact digitChar_eq_zero hn (by simpa using h)
      · have hne : Nat.toDigits 10 (n / 10) ≠ [] := Nat.toDigits_ne_nil
        rw [Nat.toDigits_of_base_le (by decide) (by omega), List.head?_append_of_ne_nil _ hne] at h
        have := ih (n / 10) (by omega) h
        omega

theorem toDigits_eq_of_head? {n : Nat} (h : (Nat.toDigits 10 n).head? = some '0') :
    Nat.toDigits 10 n = ['0'] := by
  rw [eq_zero_of_head?_toDigits h]
  rfl

/-- The digits of a number, behind a sign if it is negative. -/
def integerText (n : Int) : List Char :=
  (if n < 0 then ['-'] else []) ++ Nat.toDigits 10 n.natAbs

theorem integerText_eq_cons (n : Int) :
    ∃ c more, integerText n = c :: more ∧ (c = '-' ∨ c.isDigit = true) := by
  unfold integerText
  split
  · exact ⟨'-', _, rfl, .inl rfl⟩
  · obtain ⟨c, more, hc⟩ := List.exists_cons_of_ne_nil
      (Nat.toDigits_ne_nil (n := n.natAbs) (b := 10))
    have hmem : c ∈ Nat.toDigits 10 n.natAbs := by simp [hc]
    exact ⟨c, more, by simpa using hc, .inr (isDigit_of_mem_toDigits hmem)⟩

theorem toList_toString (n : Int) : (toString n).toList = integerText n := by
  cases n with
  | ofNat m => simp [toString, Int.repr, integerText, Nat.repr_eq_ofList_toDigits]
  | negSucc m => simp [toString, Int.repr, integerText, Nat.repr_eq_ofList_toDigits]

theorem code?_control {high low : Char} {n : Nat} (rest : List Char)
    (hhigh : value? high = some (n / 16)) (hlow : value? low = some (n % 16)) :
    code? 4 ('0' :: '0' :: high :: low :: rest) = some (n, rest) := by
  have hzero : value? '0' = some 0 := by decide
  have hn : 16 * (n / 16) + n % 16 = n := Nat.div_add_mod n 16
  simp [code?, continue?, hhigh, hlow, hzero, hn]

end Cythonizer.Proofs.Text.Digits
