import Cythonizer.Proofs.Text.Digits
import Cythonizer.Proofs.Toml.Strings
import Cythonizer.Toml.Printer
import Cythonizer.Toml.Scalar

namespace Cythonizer.Proofs.Toml.Scalars

open Cythonizer.Text.Hexadecimal
open Cythonizer.Toml.Printer
open Cythonizer.Toml.Quoted
open Cythonizer.Toml.Scalar
open Cythonizer.Proofs.Text.Digits
open Cythonizer.Proofs.Toml.Strings

variable {rest : List Char}

/-- What may stand behind a value. -/
def Ends (rest : List Char) : Prop :=
  ∀ c ∈ rest.head?, c = '\n' ∨ c = ',' ∨ c = ' ' ∨ c = ']'

theorem ends_cons {c : Char} (h : c = '\n' ∨ c = ',' ∨ c = ' ' ∨ c = ']') : Ends (c :: rest) := by
  simpa [Ends] using h

theorem Ends.endsString (h : Ends rest) : EndsString rest := by
  intro c hc
  rcases h c hc with rfl | rfl | rfl | rfl <;> decide

theorem Ends.head?_ne {c : Char} (h : Ends rest) (hc : c ∉ ['\n', ',', ' ', ']']) :
    rest.head? ≠ some c := by
  intro hhead
  rcases h c hhead with rfl | rfl | rfl | rfl <;> simp at hc

theorem Ends.isDigit_head? (h : Ends rest) : ∀ c ∈ rest.head?, c.isDigit = false := by
  intro c hc
  rcases h c hc with rfl | rfl | rfl | rfl <;> rfl

section Numbers

theorem moreDigits_front {ds : List Char} (hds : ∀ c ∈ ds, c.isDigit = true) (h : Ends rest) :
    moreDigits Char.isDigit (ds ++ rest) = some rest := by
  have hscore : ∀ c : Char, c.isDigit = true → c ≠ '_' := by
    rintro c hc rfl
    simp at hc
  induction ds with
  | nil =>
      cases rest with
      | nil => rfl
      | cons c rest =>
          have hc := h.isDigit_head? c (by simp)
          have hne : c ≠ '_' := fun hc => h.head?_ne (c := '_') (by decide) (by simp [hc])
          rw [List.nil_append, moreDigits.eq_def]
          split <;> simp_all
  | cons c ds ih =>
      have hc := hds c (by simp)
      have hne := hscore c hc
      have hrest := ih fun d hd => hds d (by simp [hd])
      rw [List.cons_append, moreDigits.eq_def]
      split <;> simp_all

theorem unsigned_integerText (n : Int) :
    unsigned (integerText n ++ rest) = Nat.toDigits 10 n.natAbs ++ rest := by
  unfold integerText
  split
  · simp [unsigned]
  · obtain ⟨c, more, hc⟩ := List.exists_cons_of_ne_nil
      (Nat.toDigits_ne_nil (n := n.natAbs) (b := 10))
    have hdigit : c.isDigit = true := isDigit_of_mem_toDigits (n := n.natAbs) (by simp [hc])
    rw [List.nil_append, hc, List.cons_append, unsigned.eq_def]
    split <;> simp_all

theorem whole_integerText (n : Int) (h : Ends rest) :
    whole (integerText n ++ rest) = some rest := by
  obtain ⟨c, more, hc⟩ := List.exists_cons_of_ne_nil
    (Nat.toDigits_ne_nil (n := n.natAbs) (b := 10))
  rw [whole, unsigned_integerText]
  by_cases hzero : c = '0'
  · have hdigits := toDigits_eq_of_head? (n := n.natAbs) (by simp [hc, hzero])
    simp [hdigits]
  · have hall : ∀ d ∈ c :: more, d.isDigit = true := fun d hd => isDigit_of_mem_toDigits (hc ▸ hd)
    have hrest : moreDigits Char.isDigit (more ++ rest) = some rest :=
      moreDigits_front (fun d hd => hall d (by simp [hd])) h
    rw [hc, List.cons_append]
    simp [hzero, digits, hall c (by simp), hrest]

theorem value?_of_isDigit {c : Char} (h : c.isDigit = true) : value? c = some (c.toNat - 48) := by
  simp [value?, h]

theorem valueOf_toDigits (n : Nat) : valueOf 10 (Nat.toDigits 10 n) = n := by
  have hmap : (Nat.toDigits 10 n).filterMap value? = (Nat.toDigits 10 n).map fun c =>
    c.toNat - 48 := by
    rw [← List.filterMap_eq_map]
    exact List.filterMap_congr fun c hc => value?_of_isDigit (isDigit_of_mem_toDigits hc)
  have hdigits : Nat.ofDigitChars 10 (Nat.toDigits 10 n) 0 = n :=
    Nat.ofDigitChars_toDigits (by decide) (by decide)
  rw [valueOf, hmap, List.foldl_map]
  exact hdigits

theorem field_eq_some {count least greatest m : Nat} {text more : List Char}
    (h : field count least greatest text = some (m, more)) :
    (∀ c ∈ text.take count, c.isDigit = true) ∧ more = text.drop count := by
  simp only [field] at h
  split at h
  · next hfield =>
      obtain ⟨-, rfl⟩ := Prod.mk.inj (Option.some.inj h)
      exact ⟨by simpa using hfield.2.1, rfl⟩
  · simp at h

theorem head?_of_behind {c : Char} {text more : List Char} (h : behind c text = some more) :
    text.head? = some c := by
  cases text with
  | nil => simp [behind] at h
  | cons d text =>
      by_cases hd : d = c
      · simp [hd]
      · simp [behind, hd] at h

theorem behind_eq_none {count least greatest m : Nat} {c : Char} {n : Int} {more : List Char}
    (hcount : 0 < count) (h : Ends rest) (hdigit : c.isDigit = false)
    (hc : c ∉ ['\n', ',', ' ', ']'])
    (hfield : field count least greatest (integerText n ++ rest) = some (m, more)) :
    behind c more = none := by
  obtain ⟨hall, rfl⟩ := field_eq_some hfield
  rw [Option.eq_none_iff_forall_ne_some]
  intro after hbehind
  have hhead := head?_of_behind hbehind
  -- The digits that were read are all that the text starts with.
  have hdrop : (integerText n ++ rest).dropWhile Char.isDigit =
    (integerText n ++ rest).drop count := by
    have hmore : ∀ c ∈ ((integerText n ++ rest).drop count).head?, c.isDigit = false := by
      simp [hhead, hdigit]
    have hsplit := dropWhile_front hall hmore
    rwa [List.take_append_drop] at hsplit
  by_cases hn : n < 0
  · have hlength := congrArg List.length hdrop
    simp [integerText, hn] at hlength
    omega
  · have hdigits : ∀ c ∈ Nat.toDigits 10 n.natAbs, c.isDigit = true := fun c hc =>
      isDigit_of_mem_toDigits hc
    simp only [integerText, hn, if_false, List.nil_append] at hdrop hhead
    rw [dropWhile_front hdigits h.isDigit_head?] at hdrop
    exact h.head?_ne hc (hdrop ▸ hhead)

theorem date_integerText (n : Int) (h : Ends rest) : date (integerText n ++ rest) = none := by
  cases hfield : field 4 0 9999 (integerText n ++ rest) with
  | none => simp [date, hfield]
  | some found =>
      have hbehind := behind_eq_none (c := '-') (by decide) h rfl (by decide) hfield
      simp [date, hfield, hbehind]

theorem time_integerText (n : Int) (h : Ends rest) : time (integerText n ++ rest) = none := by
  cases hfield : field 2 0 23 (integerText n ++ rest) with
  | none => simp [time, hfield]
  | some found =>
      have hbehind := behind_eq_none (c := ':') (by decide) h rfl (by decide) hfield
      simp [time, hfield, hbehind]

theorem dateTime_integerText (n : Int) (h : Ends rest) :
    dateTime (integerText n ++ rest) = none := by
  simp [dateTime, moment, date_integerText n h, time_integerText n h]

theorem float_integerText (n : Int) (h : Ends rest) : float (integerText n ++ rest) = none := by
  have hexponent : exponent rest = none := by
    cases rest with
    | nil => rfl
    | cons c rest =>
        have he : c ≠ 'e' := fun hc => h.head?_ne (c := 'e') (by decide) (by simp [hc])
        have hE : c ≠ 'E' := fun hc => h.head?_ne (c := 'E') (by decide) (by simp [hc])
        simp [exponent, he, hE]
  have hpoint : ∀ more, rest ≠ '.' :: more := fun more hrest =>
    h.head?_ne (c := '.') (by decide) (by simp [hrest])
  simp [float, whole_integerText n h, hexponent]

theorem special_integerText (n : Int) : special (integerText n ++ rest) = none := by
  obtain ⟨c, more, hc⟩ := List.exists_cons_of_ne_nil
    (Nat.toDigits_ne_nil (n := n.natAbs) (b := 10))
  have hdigit : c.isDigit = true := isDigit_of_mem_toDigits (n := n.natAbs) (by simp [hc])
  have hi : c ≠ 'i' := by
    rintro rfl
    simp at hdigit
  have hn : c ≠ 'n' := by
    rintro rfl
    simp at hdigit
  simp [special, unsigned_integerText, hc, word?, hi.symm, hn.symm]

theorem before_append (front : List Char) : before rest (front ++ rest) = front := by
  simp [before]

theorem integer_of_head? {text : List Char}
    (h : ∀ c more, text = '0' :: c :: more → c ≠ 'x' ∧ c ≠ 'o' ∧ c ≠ 'b') :
    integer text = do
      let rest ← whole text
      let n : Int := valueOf 10 (before rest (unsigned text))
      return (← integerOf (if text.head? = some '-' then -n else n), rest) := by
  rw [integer.eq_def]
  split
  · exact absurd rfl (h _ _ rfl).1
  · exact absurd rfl (h _ _ rfl).2.1
  · exact absurd rfl (h _ _ rfl).2.2
  · rfl

theorem integer_integerText {n : Int} (h : Ends rest) (hn : -integerBound ≤ n ∧ n < integerBound) :
    integer (integerText n ++ rest) = some (.integer n, rest) := by
  have hmark : ∀ c more, integerText n ++ rest = '0' :: c :: more → c ≠ 'x' ∧
    c ≠ 'o' ∧ c ≠ 'b' := by
    intro c more htext
    by_cases hneg : n < 0
    · simp [integerText, hneg] at htext
    · simp only [integerText, hneg, if_false, List.nil_append] at htext
      have hzero : (Nat.toDigits 10 n.natAbs).head? = some '0' := by
        rw [← List.head?_append_of_ne_nil _ Nat.toDigits_ne_nil, htext, List.head?_cons]
      rw [toDigits_eq_of_head? hzero] at htext
      obtain rfl : rest = c :: more := (List.cons.inj htext).2
      rcases h c (by simp) with rfl | rfl | rfl | rfl <;> decide
  have hsign : (integerText n ++ rest).head? = some '-' ↔ n < 0 := by
    obtain ⟨c, more, hc⟩ := List.exists_cons_of_ne_nil
      (Nat.toDigits_ne_nil (n := n.natAbs) (b := 10))
    have hdigit : c.isDigit = true := isDigit_of_mem_toDigits (n := n.natAbs) (by simp [hc])
    by_cases hneg : n < 0
    · simp [integerText, hneg]
    · simp only [integerText, hneg, if_false, List.nil_append, hc, List.cons_append,
        List.head?_cons,
        Option.some.injEq, iff_false]
      rintro rfl
      simp at hdigit
  have hvalue : (if n < 0 then -(n.natAbs : Int) else n.natAbs) = n := by
    split <;> omega
  rw [integer_of_head? hmark, whole_integerText n h, unsigned_integerText]
  simp only [Option.bind_eq_bind, Option.bind_some, before_append, valueOf_toDigits, hsign, hvalue,
    integerOf, if_pos hn, Option.pure_def]

end Numbers

section Scalars

theorem string_eq_none {c : Char} {more : List Char} (hdouble : c ≠ '"') (hsingle : c ≠ '\'') :
    string (c :: more) = none := by
  rw [string.eq_def]
  split <;> simp_all [lineString]

theorem scalar_boolean (b : Bool) :
    scalar (Toml.Printer.value (.boolean b) ++ rest) = some (.boolean b, rest) := by
  cases b <;> simp [Toml.Printer.value, scalar, string_eq_none, boolean, word?]

theorem scalar_integer {n : Int} (h : Ends rest) (hn : -integerBound ≤ n ∧ n < integerBound) :
    scalar (integerText n ++ rest) = some (.integer n, rest) := by
  obtain ⟨c, more, hc, hfirst⟩ := integerText_eq_cons n
  have hne : ∀ d ∈ ['"', '\'', 't', 'f'], c ≠ d := by
    rintro d hd rfl
    simp only [List.mem_cons, List.not_mem_nil, or_false] at hd
    rcases hd with rfl | rfl | rfl | rfl <;> simp at hfirst
  have hstring : string (integerText n ++ rest) = none := by
    rw [hc]
    exact string_eq_none (hne _ (by simp)) (hne _ (by simp))
  have hboolean : boolean (integerText n ++ rest) = none := by
    have htrue : 't' ≠ c := (hne _ (by simp)).symm
    have hfalse : 'f' ≠ c := (hne _ (by simp)).symm
    simp [hc, boolean, word?, htrue, hfalse]
  simp [scalar, hstring, hboolean, dateTime_integerText n h, float_integerText n h,
    special_integerText n, integer_integerText h hn]

theorem scalar_quote (text : String) (h : Ends rest) :
    scalar (quote text.toList ++ rest) = some (.string text, rest) := by
  simp [scalar, string_quote h.endsString]

end Scalars

end Cythonizer.Proofs.Toml.Scalars
