import Mathlib.Data.List.Basic
import Cythonizer.Proofs.Source.Gaps
import Cythonizer.Text.Blank

namespace Cythonizer.Proofs.Source.Lexemes

open Cythonizer.Source.Gaps
open Cythonizer.Source.Lexemes
open Cythonizer.Source.Quote
open Cythonizer.Text.Blank
open Cythonizer.Text.Identifier
open Cythonizer.Proofs.Source.Gaps

/-- A text with a character that is no white space. -/
def IsVisible (text : List Char) : Prop :=
  ∃ c ∈ text, isBlank c = false

section

variable {text : List Char} {c : Char}

theorem IsVisible.append_right (h : IsVisible text) (more : List Char) :
    IsVisible (text ++ more) := by
  obtain ⟨c, hc, hblank⟩ := h
  exact ⟨c, List.mem_append_left more hc, hblank⟩

theorem IsVisible.append_left (h : IsVisible text) (before : List Char) :
    IsVisible (before ++ text) := by
  obtain ⟨c, hc, hblank⟩ := h
  exact ⟨c, List.mem_append_right before hc, hblank⟩

theorem isVisible_cons (h : isBlank c = false) (rest : List Char) : IsVisible (c :: rest) :=
  ⟨c, List.mem_cons_self, h⟩

theorem trimEnd_ne_nil (h : IsVisible text) : trimEnd text ≠ [] := by
  obtain ⟨c, hc, hblank⟩ := h
  intro hnil
  have hall : ∀ d ∈ text.reverse, isBlank d = true :=
    by simpa [trimEnd, List.dropWhile_eq_nil_iff] using hnil
  simp [hall c (by simpa using hc)] at hblank

end

def blanks : List Char :=
  [9, 10, 11, 12, 13, 0x20, 0x85, 0xA0, 0x1680, 0x2000, 0x2001, 0x2002, 0x2003, 0x2004,
    0x2005, 0x2006, 0x2007,
    0x2008, 0x2009, 0x200A, 0x2028, 0x2029, 0x202F, 0x205F, 0x3000].map Char.ofNat

theorem mem_blanks {c : Char} (h : isBlank c = true) : c ∈ blanks := by
  refine List.mem_map.mpr ⟨c.toNat, ?_, Char.ofNat_toNat c⟩
  simp only [isBlank, Bool.or_eq_true, Bool.and_eq_true, decide_eq_true_eq, beq_iff_eq] at h
  simp only [List.mem_cons, List.not_mem_nil, or_false]
  omega

theorem isBlank_of_any {p : Char → Bool} (hp : blanks.any p = false) {c : Char} (h : p c = true) :
    isBlank c = false := by
  cases hblank : isBlank c with
  | false => rfl
  | true => exact absurd h (List.any_eq_false.mp hp c (mem_blanks hblank))

theorem isBlank_of_isBeginning {c : Char} (h : isBeginning c = true) : isBlank c = false :=
  isBlank_of_any (by decide +kernel) h

theorem digits_eq_zero {c : Char} (h : c.isDigit = false) (rest : List Char) :
    Source.Numeral.digits (c :: rest) = 0 := by
  simp [Source.Numeral.digits, Source.Numeral.digits.go, h]

theorem isBlank_of_number {c : Char} {rest : List Char} (h : 0 < Source.Numeral.width (c :: rest)) :
    isBlank c = false := by
  refine isBlank_of_any (p := fun c => c.isDigit || c == '.') (by decide) ?_
  by_contra hneither
  obtain ⟨hdigit, hpoint⟩ : c.isDigit = false ∧ c ≠ '.' := by simpa using hneither
  have hdigits := digits_eq_zero hdigit
  have hzero : c ≠ '0' := by
    rintro rfl
    cases hdigit
  have hwhole : Source.Numeral.whole (c :: rest) = 0 := by
    unfold Source.Numeral.whole
    split <;> simp_all
  have hfractional : Source.Numeral.fractional (c :: rest) = 0 := by
    unfold Source.Numeral.fractional
    simp only [hdigits, List.drop_zero]
    split <;> simp_all
  simp [Source.Numeral.width, hwhole, hfractional] at h

/-- The characters that signs begin with. -/
def isSignBeginning (c : Char) : Bool :=
  "!()[]\x7b\x7d,:;.@=+-*/%&|^~<>".toList.contains c

theorem isBlank_of_symbol {e : Expect} {c : Char} {rest : List Char}
    (h : 0 < symbolWidth e (c :: rest)) :
    isBlank c = false := by
  refine isBlank_of_any (p := isSignBeginning) (by decide) ?_
  by_contra hneither
  simp [isSignBeginning] at hneither
  unfold symbolWidth at h
  rcases rest with _ | ⟨d, _ | ⟨f, rest⟩⟩ <;> simp_all

theorem isVisible_take {text : List Char} {width : Nat} (h : ∃ c ∈ text.head?, isBlank c = false)
    (hwidth : 0 < width) : IsVisible (text.take width) := by
  obtain ⟨c, hc, hblank⟩ := h
  obtain ⟨rest, rfl⟩ := List.head?_eq_some_iff.mp hc
  obtain ⟨width, rfl⟩ := Nat.exists_eq_add_of_lt hwidth
  rw [Nat.zero_add, List.take_succ_cons]
  exact isVisible_cons hblank _

theorem isVisible_opening {text : List Char} {delimiter : Delimiter} {width : Nat}
    (h : opening text = some (delimiter, width)) : IsVisible (text.take width) := by
  cases text with
  | nil => cases h
  | cons c rest =>
      refine isVisible_take
        ⟨c, rfl, isBlank_of_any (p := fun c => isFlag c || isMark c) (by decide) ?_⟩ ?_
      · by_cases hflag : isFlag c = true
        · simp [hflag]
        · unfold opening at h
          rw [List.dropWhile_cons_of_neg hflag] at h
          split at h <;> simp_all
      · unfold opening at h
        dsimp only at h
        split at h
        · split_ifs at h <;> cases h <;> omega
        · split_ifs at h
          cases h
          omega
        · cases h

/-- The lexemes that have text. -/
def isWritten : Category → Bool
  | .name | .number | .symbol | .quote => true
  | .lineEnd | .indent | .dedent | .ending | .unknown => false

theorem layoutLexeme_visible {e : Expect} {layout : Layout} {text : List Char} {lexeme : Lexeme}
    (h : layoutLexeme e layout text = some lexeme) (hwritten : isWritten lexeme.category = true) :
    IsVisible ((text.drop (widthOf lexeme.gaps)).take lexeme.width) := by
  obtain ⟨hlayout, -⟩ | ⟨before, delimiter, -, hgaps, -, hopening⟩ := layoutLexeme_cases h
  · cases hcategory : lexeme.category <;> simp_all [isLayout, isWritten]
  · rw [hgaps, widthOf_blank]
    exact isVisible_opening hopening

theorem plainLexeme_visible {e : Expect} {layout : Layout} {text : List Char}
    (h : isWritten (plainLexeme e layout text).category = true) :
    IsVisible (text.take (plainLexeme e layout text).width) := by
  unfold plainLexeme at h ⊢
  split at h
  · cases h
  · rename_i c rest
    dsimp only at h ⊢
    by_cases hname : isBeginning c = true
    · simp only [if_pos hname]
      exact isVisible_take ⟨c, rfl, isBlank_of_isBeginning hname⟩ (Nat.succ_pos _)
    rw [if_neg hname] at h ⊢
    by_cases hnumber : 0 < Source.Numeral.width (c :: rest)
    · simp only [if_pos hnumber]
      exact isVisible_take ⟨c, rfl, isBlank_of_number hnumber⟩ hnumber
    rw [if_neg hnumber] at h ⊢
    by_cases hsign : 0 < symbolWidth e (c :: rest)
    · simp only [if_pos hsign]
      exact isVisible_take ⟨c, rfl, isBlank_of_symbol hsign⟩ hsign
    · rw [if_neg hsign] at h
      cases h

theorem read_visible {e : Expect} {layout : Layout} {fuel : Nat} {text : List Char}
    (h : isWritten (Source.Lexemes.read e layout fuel text).category = true) :
    IsVisible ((text.drop (widthOf (Source.Lexemes.read e layout fuel text).gaps)).take
      (Source.Lexemes.read e layout fuel text).width) := by
  induction fuel generalizing text with
  | zero => cases h
  | succ fuel ih =>
      unfold Source.Lexemes.read at h ⊢
      split at h
      · rename_i lexeme hlexeme
        exact layoutLexeme_visible hlexeme h
      · simp only at h ⊢
        obtain ⟨-, hwidth⟩ := leading_fits text _ rfl
        generalize (if (text.takeWhile isSpace).length == 0 then []
          else [(Gap.blank, (text.takeWhile isSpace).length)]) = before at hwidth h ⊢
        split_ifs at h ⊢ with hcomment hjoined
        · simpa [widthOf_append, widthOf_cons, hwidth, Nat.add_assoc] using ih h
        · simpa [widthOf_append, widthOf_cons, hwidth, Nat.add_assoc] using ih h
        · rw [hwidth]
          exact plainLexeme_visible h

end Cythonizer.Proofs.Source.Lexemes
