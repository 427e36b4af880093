import Mathlib.Algebra.Ring.Nat
import Mathlib.Data.List.TakeWhile
import Cythonizer.Source.Reader

namespace Cythonizer.Proofs.Source.Gaps

open Cythonizer.Source.Reader
open Cythonizer.Source.Gaps
open Cythonizer.Source.Lexemes
open Cythonizer.Source.Quote
open Cythonizer.Text.Identifier

/-- White space, and line ends that a backslash hides. -/
inductive Blanks : List Char → Prop
  | nil : Blanks []
  | space {c : Char} {text : List Char} (h : isSpace c = true) (rest : Blanks text) :
      Blanks (c :: text)
  | joined {text : List Char} (rest : Blanks text) : Blanks ('\\' :: '\n' :: text)
  | joinedReturn {text : List Char} (rest : Blanks text) : Blanks ('\\' :: '\r' :: '\n' :: text)

theorem Blanks.of_forall {text : List Char} (h : ∀ c ∈ text, isSpace c = true) : Blanks text := by
  induction text with
  | nil => exact .nil
  | cons c rest ih =>
      exact .space (h c List.mem_cons_self) (ih fun d hd => h d (List.mem_cons_of_mem c hd))

/-- A hash with the rest of its line. -/
def IsComment (text : List Char) : Prop :=
  ∃ rest, text = '#' :: rest ∧ '\n' ∉ rest

/-- A backslash with the line end that it hides. A null character counts as one. -/
def IsContinuation (text : List Char) : Prop :=
  text = ['\\', '\n'] ∨ text = ['\\', '\r', '\n'] ∨ text = ['\\', '\x00']

def Spells : Gap → List Char → Prop
  | .blank, text => Blanks text
  | .comment, text => IsComment text
  | .continuation, text => IsContinuation text

/-- The gaps cut a text into pieces that have the texts of their kinds. -/
def GapsFit : List (Gap × Nat) → List Char → Prop
  | [], _ => True
  | (gap, width) :: gaps, text => Spells gap (text.take width) ∧ GapsFit gaps (text.drop width)

def widthOf (gaps : List (Gap × Nat)) : Nat :=
  (gaps.map Prod.snd).sum

theorem foldl_width (gaps : List (Gap × Nat)) (n : Nat) :
    gaps.foldl (fun n gap => n + gap.2) n = n + widthOf gaps := by
  induction gaps generalizing n with
  | nil => simp [widthOf]
  | cons gap gaps ih =>
      rw [List.foldl_cons, ih]
      simp [widthOf, Nat.add_assoc]

theorem before_eq (lexeme : Lexeme) : lexeme.before = widthOf lexeme.gaps := by
  simp [Lexeme.before, foldl_width]

theorem take_length_takeWhile {α : Type} (p : α → Bool) (l : List α) :
    l.take (l.takeWhile p).length = l.takeWhile p :=
  (List.prefix_iff_eq_take.mp (List.takeWhile_prefix p)).symm

theorem spells_comment {text : List Char} (h : 0 < commentWidth text) :
    Spells .comment (text.take (commentWidth text)) := by
  unfold commentWidth at h ⊢
  split
  · rename_i rest
    refine ⟨rest.takeWhile fun c => c != '\n' && c != '\x00', ?_, ?_⟩
    · rw [List.take_succ_cons, take_length_takeWhile]
    · intro hmem
      have := List.mem_takeWhile_imp hmem
      simp at this
  · simp at h

theorem spells_continuation {text : List Char} (h : 0 < continuationWidth text) :
    Spells .continuation (text.take (continuationWidth text)) := by
  unfold continuationWidth at h ⊢
  split
  · exact .inl rfl
  · exact .inr (.inl rfl)
  · exact .inr (.inr rfl)
  · simp at h

theorem spells_blank_takeWhile (text : List Char) :
    Spells .blank (text.take (text.takeWhile isSpace).length) := by
  rw [take_length_takeWhile]
  exact Blanks.of_forall fun c hc => List.mem_takeWhile_imp hc

/-- What completes the blanks that were passed when the look ahead stands at a place. -/
def Completes : Place → List Char → Prop
  | .blank, text => Blanks text
  | .backslash, text => Blanks ('\\' :: text)
  | .backslashReturn, text => Blanks ('\\' :: '\r' :: text)
  | .comment, _ => False

/-- The look ahead passed some characters, which complete blanks. -/
def Passes (place : Place) (seen found : Ahead) (text : List Char) : Prop :=
  seen.comment = none ∧ ∃ w, found.width = seen.width + w ∧ found.text = text.drop w ∧
    Completes place (text.take w)

theorem Passes.cons {place next : Place} {seen seen' found : Ahead} {c : Char} {rest : List Char}
    (h : Passes next seen' found rest) (hcomment : seen'.comment = seen.comment)
    (hwidth : seen'.width = seen.width + 1)
    (hc : ∀ text, Completes next text → Completes place (c :: text)) :
    Passes place seen found (c :: rest) := by
  obtain ⟨hnone, w, hw, htext, hcompletes⟩ := h
  refine ⟨hcomment ▸ hnone, w + 1, by omega, ?_, ?_⟩
  · simpa using htext
  · simpa using hc _ hcompletes

theorem passes_lookAhead {throughComments : Bool} {text : List Char} {place : Place}
    {seen found : Ahead} (hplace : place = .comment → seen.comment ≠ none)
    (h : lookAhead throughComments place seen text = some found) (hcomment : found.comment = none)
    (htext : found.text ≠ []) : Passes place seen found text := by
  fun_induction lookAhead throughComments place seen text
  case case1 =>
    cases h
    exact absurd rfl htext
  case case2 ih => exact (ih (by simp) h).cons rfl rfl fun text ht => .space (by decide) ht
  case case3 ih => exact (ih (by simp) h).cons rfl rfl fun text ht => .space (by decide) ht
  case case4 ih => exact (ih (by simp) h).cons rfl rfl fun text ht => .space (by decide) ht
  case case5 ih => exact (ih (by simp) h).cons rfl rfl fun text ht => .space (by decide) ht
  case case6 ih => exact (ih (by simp) h).cons rfl rfl fun text ht => .space (by decide) ht
  case case7 =>
    cases h
    exact ⟨hcomment, 0, rfl, rfl, .nil⟩
  case case8 => cases h
  case case9 seen _ _ _ _ first ih =>
    have hfirst : first ≠ none := by cases hs : seen.comment <;> simp [first, hs]
    exact absurd (ih (fun _ => hfirst) h).1 hfirst
  case case10 ih => exact (ih (by simp) h).cons rfl rfl fun text ht => ht
  case case11 =>
    cases h
    exact ⟨hcomment, 0, rfl, rfl, .nil⟩
  -- In a comment its column is known, so none without a comment is found from there.
  case case12 ih => exact absurd (ih (fun _ => hplace rfl) h).1 (hplace rfl)
  case case13 ih => exact (ih (by simp) h).cons rfl rfl fun text ht => .joined ht
  case case14 ih => exact (ih (by simp) h).cons rfl rfl fun text ht => ht
  case case15 => cases h
  case case16 hc ih =>
    obtain rfl : _ = '\n' := by simpa using hc
    exact (ih (by simp) h).cons rfl rfl fun text ht => .joinedReturn ht
  case case17 => cases h

def isLayout : Category → Bool
  | .lineEnd | .indent | .dedent => true
  | _ => false

theorem opening_nil : opening [] = none := rfl

/-- A lexeme of layout without text, or the opening of a string literal behind blanks. -/
theorem layoutLexeme_cases {e : Expect} {layout : Layout} {text : List Char} {lexeme : Lexeme}
    (h : layoutLexeme e layout text = some lexeme) :
    (isLayout lexeme.category = true ∧ lexeme.gaps = [] ∧ lexeme.width = 0) ∨
      ∃ before delimiter, lexeme.category = .quote ∧
        lexeme.gaps = (if before == 0 then [] else [(Gap.blank, before)]) ∧
          Blanks (text.take before) ∧
        opening (text.drop before) = some (delimiter, lexeme.width) := by
  simp only [layoutLexeme, Option.bind_eq_bind, Option.bind_eq_some_iff] at h
  obtain ⟨ahead, hahead, h⟩ := h
  split at h
  · cases h
    exact .inl ⟨rfl, rfl, rfl⟩
  split at h
  · cases h
    exact .inl ⟨rfl, rfl, rfl⟩
  split at h
  · cases h
    exact .inl ⟨rfl, rfl, rfl⟩
  split at h
  · cases h
  rename_i hcomment
  obtain ⟨⟨delimiter, width⟩, hopening, h⟩ := Option.bind_eq_some_iff.mp h
  cases h
  have hnone : ahead.comment = none := by simp_all
  have htext : ahead.text ≠ [] := by
    intro hnil
    rw [hnil, opening_nil] at hopening
    cases hopening
  obtain ⟨-, w, hw, hdrop, hcompletes⟩ := passes_lookAhead (by simp) hahead hnone htext
  obtain rfl : ahead.width = w := by simpa using hw
  exact .inr ⟨ahead.width, delimiter, rfl, rfl, hcompletes, hdrop ▸ hopening⟩

theorem widthOf_blank (before : Nat) :
    widthOf (if before == 0 then [] else [(Gap.blank, before)]) = before := by
  by_cases hzero : before = 0 <;> simp [hzero, widthOf]

theorem gapsFit_blank {before : Nat} {text : List Char} (h : Blanks (text.take before)) :
    GapsFit (if before == 0 then [] else [(Gap.blank, before)]) text := by
  split
  · trivial
  · exact ⟨h, trivial⟩

theorem layoutLexeme_fits {e : Expect} {layout : Layout} {text : List Char} {lexeme : Lexeme}
    (h : layoutLexeme e layout text = some lexeme) :
    GapsFit lexeme.gaps text ∧ (isLayout lexeme.category = true → lexeme.width = 0) := by
  obtain ⟨-, hgaps, hwidth⟩ | ⟨before, delimiter, hquote, hgaps, hblanks, -⟩ := layoutLexeme_cases h
  · rw [hgaps]
    exact ⟨trivial, fun _ => hwidth⟩
  · rw [hgaps, hquote]
    exact ⟨gapsFit_blank hblanks, nofun⟩

theorem GapsFit.append {gaps more : List (Gap × Nat)} {text : List Char} (h : GapsFit gaps text)
    (hmore : GapsFit more (text.drop (widthOf gaps))) : GapsFit (gaps ++ more) text := by
  induction gaps generalizing text with
  | nil => simpa [widthOf] using hmore
  | cons gap gaps ih =>
      obtain ⟨hgap, hgaps⟩ := h
      refine ⟨hgap, ih hgaps ?_⟩
      simpa [widthOf, Nat.add_comm] using hmore

theorem plainLexeme_gaps (e : Expect) (layout : Layout) (text : List Char) :
    (plainLexeme e layout text).gaps = [] ∧
      isLayout (plainLexeme e layout text).category = false := by
  unfold plainLexeme
  split
  · exact ⟨rfl, rfl⟩
  · dsimp only
    split_ifs <;> exact ⟨rfl, rfl⟩

theorem leading_fits (text : List Char) (space : Nat)
    (h : space = (text.takeWhile isSpace).length) :
    GapsFit (if space == 0 then [] else [(Gap.blank, space)]) text ∧
      widthOf (if space == 0 then [] else [(Gap.blank, space)]) = space := by
  subst h
  exact ⟨gapsFit_blank (spells_blank_takeWhile text), widthOf_blank _⟩

/-- A letter or underscore with what may follow it in a name. -/
structure IsIdentifier (text : List Char) : Prop where
  beginning : ∃ c ∈ text.head?, isBeginning c = true
  inner : ∀ c ∈ text, isInner c = true

theorem isIdentifier_cons {c : Char} {rest : List Char} (hc : isBeginning c = true)
    (hrest : ∀ d ∈ rest, isInner d = true) : IsIdentifier (c :: rest) where
  beginning := ⟨c, rfl, hc⟩
  inner := List.forall_mem_cons.mpr ⟨isInner_of_isBeginning hc, hrest⟩

theorem IsIdentifier.append {a b : List Char} (ha : IsIdentifier a) (hb : IsIdentifier b) :
    IsIdentifier (a ++ b) where
  beginning := by
    obtain ⟨c, hc, hbeginning⟩ := ha.beginning
    exact ⟨c, by simp_all, hbeginning⟩
  inner c hc := (List.mem_append.mp hc).elim (ha.inner c) (hb.inner c)

theorem plainLexeme_name {e : Expect} {layout : Layout} {text : List Char}
    (h : (plainLexeme e layout text).category = .name) :
    IsIdentifier (text.take (plainLexeme e layout text).width) := by
  unfold plainLexeme at h ⊢
  split at h
  · cases h
  · rename_i c rest
    dsimp only at h ⊢
    by_cases hc : isBeginning c = true
    · rw [if_pos hc]
      dsimp only
      rw [List.take_succ_cons, take_length_takeWhile]
      exact isIdentifier_cons hc fun d hd => List.mem_takeWhile_imp hd
    · rw [if_neg hc] at h
      split_ifs at h

theorem layoutLexeme_ne_name {e : Expect} {layout : Layout} {text : List Char} {lexeme : Lexeme}
    (h : layoutLexeme e layout text = some lexeme) : lexeme.category ≠ .name := by
  obtain ⟨hlayout, -⟩ | ⟨_, _, hquote, -⟩ := layoutLexeme_cases h
  · intro hname
    rw [hname] at hlayout
    cases hlayout
  · simp [hquote]

@[simp] theorem widthOf_append (a b : List (Gap × Nat)) :
    widthOf (a ++ b) = widthOf a + widthOf b := by
  simp [widthOf]

@[simp] theorem widthOf_cons (gap : Gap) (width : Nat) (gaps : List (Gap × Nat)) :
    widthOf ((gap, width) :: gaps) = width + widthOf gaps := by
  simp [widthOf]

theorem read_name {e : Expect} {layout : Layout} {fuel : Nat} {text : List Char}
    (h : (Source.Lexemes.read e layout fuel text).category = .name) :
    IsIdentifier ((text.drop (widthOf (Source.Lexemes.read e layout fuel text).gaps)).take
      (Source.Lexemes.read e layout fuel text).width) := by
  induction fuel generalizing text with
  | zero => cases h
  | succ fuel ih =>
      unfold Source.Lexemes.read at h ⊢
      split at h
      · rename_i lexeme hlexeme
        exact absurd h (layoutLexeme_ne_name hlexeme)
      · simp only at h ⊢
        obtain ⟨-, hwidth⟩ := leading_fits text _ rfl
        generalize (if (text.takeWhile isSpace).length == 0 then []
          else [(Gap.blank, (text.takeWhile isSpace).length)]) = before at hwidth h ⊢
        split_ifs at h ⊢ with hcomment hjoined
        · simpa [widthOf_append, widthOf_cons, hwidth, Nat.add_assoc] using ih h
        · simpa [widthOf_append, widthOf_cons, hwidth, Nat.add_assoc] using ih h
        · rw [hwidth]
          exact plainLexeme_name h

theorem read_fits (e : Expect) (layout : Layout) (fuel : Nat) (text : List Char) :
    GapsFit (Source.Lexemes.read e layout fuel text).gaps text ∧
      (isLayout (Source.Lexemes.read e layout fuel text).category = true →
        (Source.Lexemes.read e layout fuel text).width = 0) := by
  induction fuel generalizing text with
  | zero => exact ⟨trivial, fun h => by cases h⟩
  | succ fuel ih =>
      unfold Source.Lexemes.read
      split
      · rename_i lexeme h
        exact layoutLexeme_fits h
      · dsimp only
        obtain ⟨hbefore, hwidth⟩ := leading_fits text _ rfl
        generalize (if (text.takeWhile isSpace).length == 0 then []
          else [(Gap.blank, (text.takeWhile isSpace).length)]) = before at hbefore hwidth ⊢
        split_ifs with hcomment hjoined
        · refine ⟨hbefore.append ?_, (ih _).2⟩
          rw [hwidth]
          exact ⟨spells_comment hcomment, (ih _).1⟩
        · refine ⟨hbefore.append ?_, (ih _).2⟩
          rw [hwidth]
          exact ⟨spells_continuation hjoined, (ih _).1⟩
        · exact ⟨hbefore, fun h => absurd h (by simp [(plainLexeme_gaps e layout _).2])⟩

end Cythonizer.Proofs.Source.Gaps
