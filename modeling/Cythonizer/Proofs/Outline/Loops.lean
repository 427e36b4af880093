import Cythonizer.Proofs.Outline.Pieces

namespace Cythonizer.Proofs.Outline.Loops

open Cythonizer.Outline.Basic
open Cythonizer.Outline.Conversion
open Cythonizer.Outline.OfTree
open Cythonizer.Outline.Rendering
open Cythonizer.Settings.Basic
open Cythonizer.Source.Trees
open Cythonizer.Proofs.Outline.Pieces
open Cythonizer.Proofs.Outline.Segments

def isContinuation : Tree → Bool
  | .gap .continuation _ => true
  | _ => false

mutual

/-- Whether a line continuation stands in one of the brackets around an expression. -/
def joinedExpression (expression : List Tree) : Bool :=
  match expression with
  | [.node .parenthesized inner] =>
    match inner.filter isConstruct with
    | [_] => inner.any isContinuation || joinedBracket inner
    | _ => false
  | _ => false

def joinedBracket : List Tree → Bool
  | [] => false
  | .node .expression inner :: _ => joinedExpression inner
  | _ :: rest => joinedBracket rest

end

/-- Whether a line continuation stands in one of the brackets around what a loop iterates over. -/
def joinedIterable (iterable : List Tree) : Bool :=
  match iterable with
  | [.node .expression inner] => joinedExpression inner
  | _ => false

/-- The text of what a loop iterates over once it is converted. -/
def iterableText (settings : ConversionSettings) (iterable : Iterable) : List Char :=
  (renderIterable (convertLoop settings { head := "", iterable, tail := "" }).iterable).toList

theorem iterableText_other (settings : ConversionSettings) (text : String) :
    iterableText settings (.other text) = text.toList := rfl

theorem iterableText_call (settings : ConversionSettings) (callee arguments : List Char) :
    iterableText settings (.call (String.ofList callee) (String.ofList arguments)) =
      (if callee = rangeName then settings.parallelRange.toList else callee) ++ arguments := by
  have h : String.ofList callee = boundedRange ↔ callee = rangeName := by
    rw [rangeName, ← String.toList_inj, String.toList_ofList]
  unfold iterableText convertLoop
  dsimp only
  by_cases hcallee : callee = rangeName
  · rw [if_pos (h.mpr hcallee), if_pos hcallee]
    simp [renderIterable]
  · rw [if_neg (mt h.mp hcallee), if_neg hcallee]
    simp [renderIterable]

theorem iterableText_iterableOf (settings : ConversionSettings) (ts : List Tree) :
    iterableText settings (iterableOf ts) =
      (callPieces ts).flatMap (Piece.emitted settings) := by
  unfold iterableOf callPieces
  split
  · rename_i callee rest
    by_cases h : areArguments rest = true
    · rw [if_pos (show rest.all _ = true from h), textOf, iterableText_call]
      by_cases hcallee : callee = rangeName
      · simp [hcallee, h, Piece.emitted]
      · simp [hcallee, Piece.emitted]
    · rw [if_neg (show ¬rest.all _ = true from h), iterableText_other]
      simp [h, Piece.emitted, textOf, spellAll, spell]
  · simp [iterableText_other, textOf, Piece.emitted]

/-- What is found when brackets are taken off an expression: it keeps the text, and unless a line
continuation is in the way it is converted as the pieces are. -/
structure Peels (settings : ConversionSettings) (text : List Char) (joined : Bool)
    (pieces : List Piece) (found : List Char × List Tree × List Char) : Prop where
  spell : found.1 ++ spellAll found.2.1 ++ found.2.2 = text
  other : joined = true → iterableOf found.2.1 = .other (textOf found.2.1)
  emitted : joined = false → found.1 ++ iterableText settings (iterableOf found.2.1) ++ found.2.2 =
    pieces.flatMap (Piece.emitted settings)

theorem peels_self (settings : ConversionSettings) (ts : List Tree) :
    Peels settings (spellAll ts) false (callPieces ts) ([], ts, []) where
  spell := by simp
  other h := by cases h
  emitted _ := by simp [iterableText_iterableOf]

theorem Peels.whole {settings : ConversionSettings} {inner : List Tree} {joined : Bool}
    {ps : List Piece} (hps : joined = false →
      ps.flatMap (Piece.emitted settings) = spellAll inner) :
    Peels settings (spellAll inner) joined ps ([], [.node .parenthesized inner], []) where
  spell := by simp [spellAll, Source.Trees.spell]
  other _ := rfl
  emitted h := by
    rw [hps h, show iterableOf [.node .parenthesized inner] = .other (textOf _) from rfl,
      iterableText_other]
    simp [textOf, spellAll, Source.Trees.spell]

theorem filter_isPart_eq {ts : List Tree} (h : ts.any isContinuation = false) :
    ts.filter isPart = ts.filter isConstruct := by
  refine List.filter_congr fun t ht => ?_
  have hnot : isContinuation t = false := by
    simp only [List.any_eq_false] at h
    simpa using h t ht
  rcases t with ⟨g, text⟩ | ⟨l, text⟩ | ⟨kind, children⟩
  · cases g <;> first | rfl | cases hnot
  · rfl
  · rfl

theorem filter_isPart_ne_singleton {ts : List Tree} (h : ts.any isContinuation = true)
    (hconstruct : ts.filter isConstruct ≠ []) (p : Tree) : ts.filter isPart ≠ [p] := by
  intro hsingle
  obtain ⟨t, ht, hcontinuation⟩ := List.any_eq_true.mp h
  obtain ⟨c, hc⟩ := List.exists_mem_of_ne_nil _ hconstruct
  obtain ⟨hc, hconstruct⟩ := List.mem_filter.mp hc
  have hmem {q : Tree} (hq : q ∈ ts) (hpart : isPart q = true) : q = p := by
    have := List.mem_filter.mpr ⟨hq, hpart⟩
    rwa [hsingle, List.mem_singleton] at this
  have htp : t = p := by
    refine hmem ht ?_
    unfold isContinuation at hcontinuation
    split at hcontinuation
    · rfl
    · cases hcontinuation
  have hcp : c = p := by
    refine hmem hc ?_
    cases c with
    | gap g text => cases hconstruct
    | leaf l text => cases hconstruct
    | node kind children => rfl
  subst htp hcp
  cases c with
  | gap g text => cases hconstruct
  | leaf l text => cases hconstruct
  | node kind children => cases hcontinuation

section

variable {t : Tree} (h : ∀ inner, t ≠ .node .expression inner) (rest : List Tree)
include h

theorem unbracketedIn_cons : unbracketedIn (t :: rest) =
    (unbracketedIn rest).map fun found => (spell t ++ found.1, found.2.1, found.2.2) := by
  rw [unbracketedIn]
  exact h

theorem joinedBracket_cons : joinedBracket (t :: rest) = joinedBracket rest := by
  rw [joinedBracket]
  exact h

theorem bracketPieces_cons : bracketPieces (t :: rest) = .kept (spell t) :: bracketPieces rest := by
  rw [bracketPieces]
  exact h

end

theorem unbracketedIn_eq_none {ts : List Tree} (h : unbracketedIn ts = none) :
    joinedBracket ts = false ∧ ∀ settings : ConversionSettings,
      (bracketPieces ts).flatMap (Piece.emitted settings) = spellAll ts := by
  induction ts with
  | nil =>
      rw [joinedBracket, bracketPieces]
      exact ⟨rfl, fun _ => rfl⟩
  | cons t rest ih =>
      by_cases hne : ∀ inner, t ≠ .node .expression inner
      · rw [unbracketedIn_cons hne, Option.map_eq_none_iff] at h
        rw [joinedBracket_cons hne, bracketPieces_cons hne]
        refine ⟨(ih h).1, fun settings => ?_⟩
        rw [List.flatMap_cons, (ih h).2]
        rfl
      · obtain ⟨inner, rfl⟩ := not_forall_not.mp hne
        rw [unbracketedIn] at h
        cases h

theorem filter_isConstruct_ne_nil {ts : List Tree} (h : unbracketedIn ts ≠ none) :
    ts.filter isConstruct ≠ [] := by
  induction ts with
  | nil =>
      rw [unbracketedIn] at h
      exact absurd rfl h
  | cons t rest ih =>
      by_cases hne : ∀ inner, t ≠ .node .expression inner
      · rw [unbracketedIn_cons hne] at h
        have hrest := ih fun hnone => h (by rw [hnone]; rfl)
        intro hnil
        refine hrest (List.filter_eq_nil_iff.mpr fun q hq => ?_)
        exact List.filter_eq_nil_iff.mp hnil q (List.mem_cons_of_mem t hq)
      · obtain ⟨inner, rfl⟩ := not_forall_not.mp hne
        exact List.cons_ne_nil _ _

section

variable {ts : List Tree} (h : ∀ inner, ts ≠ [.node .parenthesized inner])
include h

theorem unbracketed_plain : unbracketed ts = ([], ts, []) := by
  unfold unbracketed
  split
  · exact absurd rfl (h _)
  · rfl

theorem joinedExpression_plain : joinedExpression ts = false := by
  unfold joinedExpression
  split
  · exact absurd rfl (h _)
  · rfl

theorem expressionPieces_plain : expressionPieces ts = callPieces ts := by
  unfold expressionPieces
  split
  · exact absurd rfl (h _)
  · rfl

end

section

variable {iterable : List Tree} (h : ∀ inner, iterable ≠ [.node .expression inner])
include h

theorem iterated_plain : iterated iterable = ([], iterable, []) := by
  unfold iterated
  split
  · exact absurd rfl (h _)
  · rfl

theorem joinedIterable_plain : joinedIterable iterable = false := by
  unfold joinedIterable
  split
  · exact absurd rfl (h _)
  · rfl

theorem iterablePieces_plain : iterablePieces iterable = callPieces iterable := by
  unfold iterablePieces
  split
  · exact absurd rfl (h _)
  · rfl

end

section

variable {inner : List Tree}

theorem unbracketed_single {p : Tree} {found : List Char × List Tree × List Char}
    (h : inner.filter isPart = [p]) (hfound : unbracketedIn inner = some found) :
    unbracketed [.node .parenthesized inner] = found := by
  rw [unbracketed, h, hfound]

theorem unbracketed_whole (h : ∀ p, inner.filter isPart = [p] → unbracketedIn inner = none) :
    unbracketed [.node .parenthesized inner] = ([], [.node .parenthesized inner], []) := by
  rw [unbracketed]
  split
  · rename_i hsingle hfound
    rw [h _ hsingle] at hfound
    cases hfound
  · rfl

variable (h : ∀ c, inner.filter isConstruct ≠ [c])
include h

theorem unbracketed_many :
    unbracketed [.node .parenthesized inner] = ([], [.node .parenthesized inner], []) := by
  refine unbracketed_whole fun p hp => ?_
  by_contra hsome
  have hconstruct := filter_isConstruct_ne_nil hsome
  by_cases hjoined : inner.any isContinuation = true
  · exact filter_isPart_ne_singleton hjoined hconstruct p hp
  · rw [filter_isPart_eq (by simpa using hjoined)] at hp
    exact h p hp

theorem joinedExpression_many : joinedExpression [.node .parenthesized inner] = false := by
  rw [joinedExpression]
  split
  · exact absurd ‹_› (h _)
  · rfl

theorem expressionPieces_many :
    expressionPieces [.node .parenthesized inner] = [.kept (spellAll inner)] := by
  rw [expressionPieces]
  split
  · exact absurd ‹_› (h _)
  · rfl

end

mutual

theorem peels_unbracketed (settings : ConversionSettings) (ts : List Tree) :
    Peels settings (spellAll ts) (joinedExpression ts) (expressionPieces ts) (unbracketed ts) := by
  by_cases hplain : ∀ inner, ts ≠ [.node .parenthesized inner]
  · rw [joinedExpression_plain hplain, expressionPieces_plain hplain, unbracketed_plain hplain]
    exact peels_self settings ts
  obtain ⟨inner, rfl⟩ := not_forall_not.mp hplain
  rw [show spellAll [.node .parenthesized inner] = spellAll inner by simp [spellAll, spell]]
  -- A line continuation counts as a part and not as a construct, so brackets with one construct may
  -- have several parts: they are then left as they are.
  by_cases hsingle : ∃ c, inner.filter isConstruct = [c]
  · obtain ⟨c, hsingle⟩ := hsingle
    rw [joinedExpression, expressionPieces, hsingle]
    by_cases hjoined : inner.any isContinuation = true
    · rw [unbracketed_whole fun p hp => absurd hp
        (filter_isPart_ne_singleton hjoined (by simp [hsingle]) p)]
      exact .whole fun h => by simp [hjoined] at h
    · rw [Bool.not_eq_true] at hjoined
      rw [hjoined, Bool.false_or]
      rw [← filter_isPart_eq hjoined] at hsingle
      cases hfound : unbracketedIn inner with
      | none =>
          rw [unbracketed_whole fun _ _ => hfound, (unbracketedIn_eq_none hfound).1]
          exact .whole fun _ => (unbracketedIn_eq_none hfound).2 settings
      | some found =>
          rw [unbracketed_single hsingle hfound]
          exact peels_unbracketedIn settings inner hfound
  · have hmany : ∀ c, inner.filter isConstruct ≠ [c] := fun c hc => hsingle ⟨c, hc⟩
    rw [joinedExpression_many hmany, expressionPieces_many hmany, unbracketed_many hmany]
    exact .whole fun _ => by simp [Piece.emitted]

theorem peels_unbracketedIn (settings : ConversionSettings) (ts : List Tree)
    {found : List Char × List Tree × List Char} (h : unbracketedIn ts = some found) :
    Peels settings (spellAll ts) (joinedBracket ts) (bracketPieces ts) found :=
  match ts with
  | [] => by
      rw [unbracketedIn] at h
      cases h
  | t :: rest => by
      by_cases hne : ∀ inner, t ≠ .node .expression inner
      · rw [unbracketedIn_cons hne] at h
        obtain ⟨found', hfound, rfl⟩ := Option.map_eq_some_iff.mp h
        have ih := peels_unbracketedIn settings rest hfound
        rw [joinedBracket_cons hne, bracketPieces_cons hne]
        exact ⟨by simp [← ih.spell, spellAll], ih.other, fun hjoined => by
          simp [← ih.emitted hjoined, Piece.emitted]⟩
      · obtain ⟨inner, rfl⟩ := not_forall_not.mp hne
        rw [unbracketedIn] at h
        cases h
        have ih := peels_unbracketed settings inner
        rw [joinedBracket, bracketPieces]
        exact ⟨by simp [← ih.spell, spellAll, spell], ih.other, fun hjoined => by
          simp [← ih.emitted hjoined, Piece.emitted]⟩

end

theorem declaration_not_mem_callPieces (line : List Char) (t : Tree) (ts : List Tree) :
    .declaration line t ∉ callPieces ts := by
  unfold callPieces
  split
  · split <;> simp
  · simp

mutual

theorem declaration_not_mem_expressionPieces (line : List Char) (t : Tree) (ts : List Tree) :
    .declaration line t ∉ expressionPieces ts := by
  unfold expressionPieces
  split
  · rename_i inner
    split
    · exact declaration_not_mem_bracketPieces line t inner
    · simp
  · exact declaration_not_mem_callPieces line t ts

theorem declaration_not_mem_bracketPieces (line : List Char) (t : Tree) (ts : List Tree) :
    .declaration line t ∉ bracketPieces ts := by
  unfold bracketPieces
  split
  · simp
  · rename_i inner rest
    have := declaration_not_mem_expressionPieces line t inner
    simp [this]
  · rename_i rest _
    have := declaration_not_mem_bracketPieces line t rest
    simp [this]

end

theorem peels_iterated (settings : ConversionSettings) (iterable : List Tree) :
    Peels settings (spellAll iterable) (joinedIterable iterable) (iterablePieces iterable)
      (iterated iterable) := by
  by_cases h : ∀ inner, iterable ≠ [.node .expression inner]
  · rw [joinedIterable_plain h, iterablePieces_plain h, iterated_plain h]
    exact peels_self settings iterable
  · obtain ⟨inner, rfl⟩ := not_forall_not.mp h
    have hspell : spellAll [.node .expression inner] = spellAll inner := by
      simp [spellAll, spell]
    rw [hspell]
    exact peels_unbracketed settings inner

theorem declaration_not_mem_iterablePieces (line : List Char) (t : Tree) (ts : List Tree) :
    .declaration line t ∉ iterablePieces ts := by
  unfold iterablePieces
  split
  · exact declaration_not_mem_expressionPieces line t _
  · exact declaration_not_mem_callPieces line t ts

def rangesIn (pieces : List Piece) : Nat :=
  pieces.countP fun
    | .range => true
    | _ => false

/-- Conversion changes the length of pieces by their calls of `range` only. -/
theorem length_emitted (settings : ConversionSettings) {pieces : List Piece}
    (h : ∀ line t, .declaration line t ∉ pieces) :
    (pieces.flatMap (Piece.emitted settings)).length + rangesIn pieces * rangeName.length =
      (pieces.flatMap Piece.source).length +
        rangesIn pieces * settings.parallelRange.toList.length := by
  induction pieces with
  | nil => simp [rangesIn]
  | cons piece rest ih =>
      have hrest := ih fun line t hmem => h line t (List.mem_cons_of_mem _ hmem)
      cases piece with
      | kept text =>
          simp only [List.flatMap_cons, List.length_append, rangesIn, List.countP_cons,
            Piece.emitted, Piece.source] at hrest ⊢
          simpa [Nat.add_assoc] using hrest
      | range =>
          simp only [List.flatMap_cons, List.length_append, rangesIn, List.countP_cons,
            Piece.emitted, Piece.source, if_true, Nat.add_mul, Nat.one_mul] at hrest ⊢
          omega
      | declaration line t => exact absurd List.mem_cons_self (h line t)

theorem emitted_eq_source (settings : ConversionSettings) {pieces : List Piece}
    (h : ∀ line t, .declaration line t ∉ pieces) (hrange : rangesIn pieces = 0) :
    pieces.flatMap (Piece.emitted settings) = pieces.flatMap Piece.source := by
  refine List.flatMap_congr fun piece hpiece => ?_
  cases piece with
  | kept text => rfl
  | range => exact absurd rfl (List.countP_eq_zero.mp hrange _ hpiece)
  | declaration line t => exact absurd hpiece (h line t)

end Cythonizer.Proofs.Outline.Loops
