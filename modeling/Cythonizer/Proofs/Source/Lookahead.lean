import Cythonizer.Proofs.Source.Telling
import Cythonizer.Proofs.Text.Digits

namespace Cythonizer.Proofs.Source.Lookahead

open Cythonizer.Source.Reader
open Cythonizer.Source.Gaps
open Cythonizer.Source.Lexemes
open Cythonizer.Source.Quote
open Cythonizer.Source.Trees
open Cythonizer.Text.Identifier
open Cythonizer.Proofs.Source.Gaps
open Cythonizer.Proofs.Text.Digits

/-- The lexeme that is found at the start of a text. -/
def lookAt (e : Expect) (layout : Layout) (text : List Char) : Next :=
  let lexeme := Source.Lexemes.read e layout (text.length + 1) text
  { lexeme, text := (text.drop lexeme.before).take lexeme.width }

/-- No blank or one. -/
def spacing (spaced : Bool) : List Tree :=
  if spaced then [.gap .blank [' ']] else []

/-- A lexeme of a list of parameters, behind a blank or not. -/
def nextOf (category : Category) (spaced : Bool) (layout : Layout) (text : List Char) : Next :=
  { lexeme := {
      gaps := if spaced then [(.blank, 1)] else []
      category
      width := text.length
      layout }
    text }

theorem layoutLexeme_eq_none {e : Expect} {layout : Layout} {text : List Char} {ahead : Ahead}
    (hahead : lookAhead (e.indent || e.dedent || e.lineEnd || e.handler) .blank
      {} text = some ahead)
    (hline : ahead.lineEnded = false) (hopening : e.quote = true → opening ahead.text = none) :
    layoutLexeme e layout text = none := by
  simp only [layoutLexeme, hahead, hline, Option.bind_eq_bind, Option.bind_some]
  cases hquote : e.quote with
  | false => simp
  | true => simp [hopening hquote]

theorem lookAt_eq {e : Expect} {layout : Layout} {c : Char} {front rest : List Char}
    {category : Category}
    (hahead : ∀ throughComments seen, lookAhead throughComments .blank seen (c :: (front ++ rest)) =
      some { seen with text := c :: (front ++ rest) })
    (hopening : e.quote = true → opening (c :: (front ++ rest)) = none) (hspace : isSpace c = false)
    (hcomment : commentWidth (c :: (front ++ rest)) = 0)
    (hjoined : continuationWidth (c :: (front ++ rest)) = 0)
    (hplain : plainLexeme e layout (c :: (front ++ rest)) =
      { category, width := front.length + 1, layout }) (spaced : Bool) :
    lookAt e layout (spellAll (spacing spaced) ++ (c :: front ++ rest)) =
      nextOf category spaced layout (c :: front) := by
  have hread : Source.Lexemes.read e layout
      ((spellAll (spacing spaced) ++ (c :: front ++ rest)).length + 1)
      (spellAll (spacing spaced) ++ (c :: front ++ rest)) =
        (nextOf category spaced layout (c :: front)).lexeme := by
    have hlayout :
      layoutLexeme e layout (spellAll (spacing spaced) ++ (c :: front ++ rest)) = none := by
      cases spaced with
      | false => exact layoutLexeme_eq_none (hahead _ _) rfl hopening
      | true => exact layoutLexeme_eq_none (hahead _ _) rfl hopening
    rw [Source.Lexemes.read, hlayout]
    cases spaced with
    | false => simp [spacing, spellAll, hspace, hplain, hcomment, hjoined, nextOf]
    | true =>
        simp [spacing, spellAll, spell, show isSpace ' ' = true by decide, hspace, hplain,
          hcomment, hjoined,
          nextOf]
  unfold lookAt
  rw [hread]
  cases spaced <;> simp [nextOf, Lexeme.before, spacing, spellAll, spell]

/-- The signs of a list of parameters. -/
inductive IsListSign : Char → Prop
  | opening : IsListSign '('
  | closing : IsListSign ')'
  | comma : IsListSign ','
  | slash : IsListSign '/'
  | star : IsListSign '*'

theorem opening_listSign {s : Char} (h : IsListSign s) (rest : List Char) :
    opening (s :: rest) = none := by
  have hflag : isFlag s = false := by cases h <;> decide
  have hmark : isMark s = false := by cases h <;> decide
  rcases rest with _ | ⟨a, _ | ⟨b, rest⟩⟩ <;> simp [opening, hflag, hmark]

theorem lookAt_listSign {s : Char} (h : IsListSign s) {e : Expect} {rest : List Char}
    (hwidth : symbolWidth e (s :: rest) = 1) (layout : Layout) (spaced : Bool) :
    lookAt e layout (spellAll (spacing spaced) ++ s :: rest) =
      nextOf .symbol spaced layout [s] := by
  have hbeginning : isBeginning s = false := by cases h <;> decide
  have hnumber : Source.Numeral.width (s :: rest) = 0 := by cases h <;> rfl
  have hplain : plainLexeme e layout (s :: rest) = { category := .symbol, width := 1, layout } := by
    simp [plainLexeme, hbeginning, hnumber, hwidth]
  have hspace : isSpace s = false := by cases h <;> decide
  have hcomment : commentWidth (s :: rest) = 0 := by cases h <;> rfl
  have hjoined : continuationWidth (s :: rest) = 0 := by cases h <;> rfl
  refine @lookAt_eq e layout s [] rest .symbol ?_ (fun _ => opening_listSign h rest) hspace
    hcomment hjoined
    hplain spaced
  cases h <;> exact fun _ _ => rfl

/-- Brackets and commas are signs of their own, whatever follows. -/
inductive IsBoundary : Char → Prop
  | opening : IsBoundary '('
  | closing : IsBoundary ')'
  | comma : IsBoundary ','

theorem IsBoundary.isListSign {s : Char} (h : IsBoundary s) : IsListSign s := by
  cases h <;> constructor

theorem lookAt_boundary {s : Char} (h : IsBoundary s) (e : Expect) (layout : Layout)
    (rest : List Char) :
    lookAt e layout (s :: rest) = nextOf .symbol false layout [s] := by
  have hwidth : symbolWidth e (s :: rest) = 1 := by
    cases h <;> rcases rest with _ | ⟨a, _ | ⟨b, rest⟩⟩ <;> simp [symbolWidth]
  exact lookAt_listSign h.isListSign hwidth layout false

theorem lookAhead_beginning {c : Char} (h : isBeginning c = true)
    (throughComments : Bool) (seen : Ahead)
    (rest : List Char) :
    lookAhead throughComments .blank seen (c :: rest) = some { seen with text := c :: rest } := by
  unfold lookAhead
  dsimp only
  split <;> first | rfl | exact absurd h (by decide)

theorem isInner_of_isSpace {c : Char} (h : isSpace c = true) : isInner c = false := by
  have hcode : c.toNat ∈ [0x20, 9, 10, 11, 12, 13, 0xFEFF, 0x2060, 0x200B] := by
    simp only [isSpace, Bool.or_eq_true, Bool.and_eq_true, beq_iff_eq, decide_eq_true_eq] at h
    simp only [List.mem_cons, List.not_mem_nil]
    omega
  have hnone : ∀ code ∈ [0x20, 9, 10, 11, 12, 13, 0xFEFF, 0x2060, 0x200B],
      isInner (Char.ofNat code) = false := by
    decide +kernel
  have hfalse := hnone c.toNat hcode
  rwa [Char.ofNat_toNat] at hfalse

theorem isSpace_of_isBeginning {c : Char} (h : isBeginning c = true) : isSpace c = false := by
  by_contra hspace
  have hinner := isInner_of_isSpace (by simpa using hspace)
  rw [isInner_of_isBeginning h] at hinner
  cases hinner

theorem commentWidth_beginning {c : Char} (h : isBeginning c = true) (rest : List Char) :
    commentWidth (c :: rest) = 0 := by
  unfold commentWidth
  split
  · rename_i hc
    obtain ⟨rfl, -⟩ := List.cons.inj hc
    exact absurd h (by decide)
  · rfl

theorem continuationWidth_beginning {c : Char} (h : isBeginning c = true) (rest : List Char) :
    continuationWidth (c :: rest) = 0 := by
  unfold continuationWidth
  split
  all_goals first
    | rfl
    | rename_i hc
      obtain ⟨rfl, -⟩ := List.cons.inj hc
      exact absurd h (by decide)

theorem lookAt_name {e : Expect} (hquote : e.quote = false) {name rest : List Char}
    (hname : IsIdentifier name)
    (hrest : ∀ c ∈ rest.head?, isInner c = false) (layout : Layout) (spaced : Bool) :
    lookAt e layout (spellAll (spacing spaced) ++ (name ++ rest)) =
      nextOf .name spaced layout name := by
  obtain ⟨c, hc, hbeginning⟩ := hname.beginning
  obtain ⟨inner, rfl⟩ : ∃ inner, name = c :: inner := by
    cases name with
    | nil => cases hc
    | cons d inner =>
        obtain rfl : d = c := by simpa using hc
        exact ⟨inner, rfl⟩
  have hinner : ∀ d ∈ inner, isInner d = true := (List.forall_mem_cons.mp hname.inner).2
  have htake : (inner ++ rest).takeWhile isInner = inner := takeWhile_front hinner hrest
  have hplain : plainLexeme e layout (c :: (inner ++ rest)) =
      { category := .name, width := inner.length + 1, layout } := by
    simp [plainLexeme, hbeginning, htake]
  exact lookAt_eq (fun _ _ => lookAhead_beginning hbeginning _ _ _) (by simp [hquote])
    (isSpace_of_isBeginning hbeginning) (commentWidth_beginning hbeginning _)
    (continuationWidth_beginning hbeginning _) hplain spaced

end Cythonizer.Proofs.Source.Lookahead
