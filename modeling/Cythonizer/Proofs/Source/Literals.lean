import Cythonizer.Proofs.Source.Edges
import Cythonizer.Source.Syntax

namespace Cythonizer.Proofs.Source.Literals

open Cythonizer.Source.Reader
open Cythonizer.Source.Gaps
open Cythonizer.Source.Rules.Literal
open Cythonizer.Source.Rules.Phrases
open Cythonizer.Source.Quote
open Cythonizer.Source.Trees
open Cythonizer.Proofs.Source.Contents
open Cythonizer.Proofs.Source.Edges
open Cythonizer.Proofs.Source.Gaps
open Cythonizer.Proofs.Source.Phrasing
open Cythonizer.Proofs.Source.Telling

variable {source : List Char} {α : Type}

theorem stretch_ne_gap {d : Delimiter} {fuel : Nat} {filled : Bool} {width : Nat}
    {text : List Char} {piece : Piece} {w : Nat}
    (h : stretch d fuel filled width text = some (piece, w)) (g : Gap) : piece ≠ .gap g := by
  fun_induction stretch d fuel filled width text
  all_goals grind

theorem interruption_spells {n : Nat} {text : List Char} {blanks width : Nat} {p : Piece}
    (h : interruption n text = some (blanks, p, width)) :
    (blanks = n ∨ blanks = 0) ∧ ∀ g, p = .gap g → blanks = n ∧ Spells g (text.take width) := by
  unfold interruption at h
  dsimp only at h
  split at h
  · cases h; simp
  · cases h
    refine ⟨.inl rfl, fun g hg => ?_⟩
    cases hg
    exact ⟨rfl, spells_comment (by simp [commentWidth])⟩
  · split at h
    · cases h; simp
    · split at h
      · rename_i hjoined
        cases h
        refine ⟨.inl rfl, fun g hg => ?_⟩
        cases hg
        exact ⟨rfl, spells_continuation hjoined⟩
      · cases h
  · cases h

theorem piece_spells {d : Delimiter} {fuel : Nat} {text : List Char}
    {blanks width : Nat} {p : Piece}
    (h : piece d fuel text = some (blanks, p, width)) :
    Spells .blank (text.take blanks) ∧ ∀ g, p = .gap g →
      Spells g ((text.drop blanks).take width) := by
  unfold piece at h
  dsimp only at h
  split at h
  · cases h; exact ⟨.nil, by simp⟩
  · cases h; exact ⟨.nil, by simp⟩
  · cases h; exact ⟨.nil, by simp⟩
  · cases h
  · rcases Option.or_eq_some_iff.mp h with h | ⟨-, h⟩
    · obtain ⟨⟨found, w⟩, hfound, h⟩ := Option.map_eq_some_iff.mp h
      cases h
      exact ⟨.nil, fun g hg => absurd hg (stretch_ne_gap hfound g)⟩
    · obtain ⟨hblanks, hgap⟩ := interruption_spells h
      refine ⟨?_, fun g hg => ?_⟩
      · rcases hblanks with rfl | rfl
        · exact spells_blank_takeWhile _
        · exact .nil
      · obtain ⟨rfl, hspells⟩ := hgap g hg
        exact hspells

theorem tells_get_bind {before : Cursor source → Prop} {f : Cursor source → Parser source α}
    {after : α → Cursor source → List Tree → Prop}
    (h : ∀ c, before c → Tells (fun c' => c' = c) (f c) after) :
    Tells before ((get : Parser source (Cursor source)) >>= f) after :=
  fun c hc hbefore way hway => h c hbefore c hc rfl way hway

theorem tells_passGap {gap : Gap} {width : Nat} {text : List Char}
    (h : Spells gap (text.take width)) :
    Tells (fun c : Cursor source => c.rest = text) (passGap gap width) fun _ c ts =>
      AreGaps ts ∧ c.rest = text.drop width := by
  apply tells_modify
  rintro c hc rfl
  split
  · rename_i hzero
    obtain rfl : width = 0 := by simpa using hzero
    exact ⟨[], Told.refl hc, AreGaps.nil, rfl⟩
  · exact ⟨_, told_shift_gap hc gap width, AreGaps.cons h AreGaps.nil, rfl⟩

theorem tells_shift_leaf {l : Leaf} (h : ∀ text, IsLexeme l text) (width : Nat) :
    TellsPhrases (modify fun c : Cursor source => c.shift (.leaf l) (fun _ => rfl) width :
      Parser source Unit) := by
  constructor
  apply tells_modify
  intro c hc _
  refine ⟨_, told_shift_leaf hc l width, ?_⟩
  simpa using IsNeat.leaf (h _)

instance (width : Nat) : TellsPhrases (modify fun c : Cursor source =>
    c.shift (.leaf .literal) (fun _ => rfl) width : Parser source Unit) :=
  tells_shift_leaf isLexeme_literal width

instance (width : Nat) : TellsPhrases (modify fun c : Cursor source =>
    c.shift (.leaf .sign) (fun _ => rfl) width : Parser source Unit) :=
  tells_shift_leaf isLexeme_sign width

instance (width : Nat) : TellsPhrases (modify fun c : Cursor source =>
    let passed := c.shift (.leaf .literal) (fun _ => rfl) width
    let strings := c.layout.strings.drop 1
    { passed with layout := { c.layout with strings, inFormat := false } } :
      Parser source Unit) := by
  constructor
  apply tells_modify
  intro c hc _
  have hleaf := told_shift_leaf hc .literal width
  refine ⟨_, ⟨⟨hleaf.valid.size, hleaf.valid.ahead⟩, hleaf.log⟩, ?_⟩
  simpa using IsNeat.leaf (isLexeme_literal _)

instance (n : Nat) : TellsPhrases (throw n : Parser source α) := by
  constructor
  apply tells_of_forall
  intro c hc _ a c' h
  cases h

theorem tells_gap_bind {gap : Gap} {width : Nat} {text : List Char} {f : Unit → Parser source α}
    (h : Spells gap (text.take width))
    (hf : Tells (fun c => c.rest = text.drop width) (f ()) fun _ _ ts => ∀ t ∈ ts, IsNeat t) :
    Tells (fun c => c.rest = text) (passGap gap width >>= f) fun _ _ ts =>
      ∀ t ∈ ts, IsNeat t := by
  apply tells_bind (tells_passGap h)
  intro _ gaps c hc h way hway
  obtain ⟨hgaps, hrest⟩ := h
  obtain ⟨ts, htold, hts⟩ := hf c hc hrest way hway
  refine ⟨ts, htold, fun t ht => ?_⟩
  rcases List.mem_append.mp ht with ht | ht
  · exact forall_of_areGaps hgaps t ht
  · exact hts t ht

theorem specificationJoin_spells (text : List Char) :
    Spells .blank (text.take (specificationJoin text).1) ∧
      (0 < (specificationJoin text).2 →
        Spells .continuation ((text.drop (specificationJoin text).1).take
          (specificationJoin text).2)) := by
  refine ⟨?_, spells_continuation⟩
  simp only [specificationJoin, take_length_takeWhile]
  refine Blanks.of_forall fun c hc => ?_
  exact (by simpa using List.mem_takeWhile_imp hc : _ ∧ _).1

instance : TellsPhrases (specificationText : Parser source Bool) := by
  constructor
  apply tells_get_bind
  intro c _
  have hlines : Spells .blank (c.rest.take (c.rest.takeWhile (· == '\n')).length) := by
    rw [take_length_takeWhile]
    refine Blanks.of_forall fun d hd => ?_
    obtain rfl : d = '\n' := by simpa using List.mem_takeWhile_imp hd
    rfl
  refine Tells.mono (tells_gap_bind hlines ?_) (fun c' h => by rw [h]) fun _ _ _ h => h
  apply tells_get_bind
  intro c' _
  obtain ⟨hblanks, hjoin⟩ := specificationJoin_spells c'.rest
  dsimp only
  refine tells_ite (fun hpos => ?_) fun _ => ?_
  · refine Tells.mono (tells_gap_bind hblanks (tells_gap_bind (hjoin hpos) ?_))
      (fun c h => by rw [h]) fun _ _ _ h => h
    exact tells_pure fun _ _ => by simp
  · exact TellsOnly.from inferInstance _

section

variable {g : Grammar source} [hg : ∀ p, TellsPhrases (g p)]

instance : TellsPhrases (fieldTail g) := by
  unfold fieldTail
  refine .bind fun _ => ?_
  extract_lets ended specified converted
  have hspecified (u : Unit) : TellsPhrases (specified u) := by unfold specified; infer_instance
  clear_value specified
  infer_instance

instance : TellsPhrases (field g) := by
  unfold field
  infer_instance

instance : TellsPhrases (specification g) := by
  unfold specification
  infer_instance

instance (d : Delimiter) : TellsPhrases (pieces g d) := by
  refine TellsOnly.loopWhile ⟨tells_get_bind fun c _ => ?_⟩
  split
  · exact TellsOnly.from inferInstance _
  · rename_i blanks kind width h
    obtain ⟨hblanks, hgap⟩ := piece_spells h
    refine Tells.mono (tells_gap_bind hblanks ?_) (fun c h => by rw [h]) fun _ _ _ h => h
    split
    · exact TellsOnly.from inferInstance _
    · rename_i gap
      exact tells_gap_bind (hgap gap rfl) (tells_pure fun _ _ => by simp)
    · exact TellsOnly.from inferInstance _
    · exact TellsOnly.from inferInstance _

instance tellsPhrases_opened : TellsPhrases ((get : Parser source (Cursor source)) >>= fun c =>
    match c.layout.strings with
    | d :: _ => pieces g d
    | [] => fail) := by
  refine ⟨tells_get_bind fun c _ => ?_⟩
  split
  · exact TellsOnly.from inferInstance _
  · exact tells_fail

instance : TellsFlush (string g) := by
  unfold string
  infer_instance

instance : TellsSome (string g) := by
  unfold string
  infer_instance

end

end Cythonizer.Proofs.Source.Literals
