import Cythonizer.Proofs.Outline.Invariance
import Cythonizer.Proofs.Outline.Layout

namespace Cythonizer.Proofs.Outline.Declarations

open Cythonizer.Outline.Basic
open Cythonizer.Outline.OfTree
open Cythonizer.Source.Syntax
open Cythonizer.Source.Trees
open Cythonizer.Text.Blank
open Cythonizer.Proofs.Outline.Correspondence
open Cythonizer.Proofs.Outline.Defects
open Cythonizer.Proofs.Outline.Fragments
open Cythonizer.Proofs.Outline.Invariance
open Cythonizer.Proofs.Outline.Layout (declared declared_eq_nil declared_segments declared_items)
open Cythonizer.Proofs.Outline.Pieces
open Cythonizer.Proofs.Outline.Segments
open Cythonizer.Proofs.Source.Shapes

/-- The body of a function: what stands between its colon and its first statement, and the text from
there on. `start` stands before the gap on its line. -/
def bodyOf (outer start gap text : List Char) : Body :=
  { inline := !gap.contains '\n'
    outerIndent := String.ofList (indentOf outer)
    leading := if gap.contains '\n' then String.ofList gap else ""
    indent := if gap.contains '\n' then String.ofList (indentOf (lineAfter start gap)) else ""
    text := String.ofList (trimEnd text)
    injected := [] }

/-- What a function is read off, part by part. -/
theorem functionOf_of_splits {outer line : List Char} {decorators : List String} {f : Function}
    {children front between block parameters : List Tree} (h : Splits children front between block)
    (hparameters : find? .parameters front = some parameters)
    (hf : functionOf outer line decorators children = .ok f) :
    IsLed block ∧
      f = { name := nameOf children
            isAsync := front.any (isLeaf .word ['a', 's', 'y', 'n', 'c'])
            decorators
            typeParameters := (find? .typeParameters front).map textOf
            parameters := parametersOf false parameters
            returns := (find? .hint front).map hintOf
            body := bodyOf outer (lineAfter line (spellAll front ++ [':'])) (spellAll between)
              (spellAll block) } := by
  unfold functionOf at hf
  simp only [h.header, h.name, hparameters, h.found, List.tail?_cons, require_some, pure_bind] at hf
  obtain hled | rfl := h.complete
  · refine ⟨hled, ?_⟩
    obtain ⟨kind, statement, rest, rfl⟩ := hled
    have hbefore : List.takeWhile (fun t => !isPart t) (.node kind statement :: rest) = [] := rfl
    simp only [hbefore, spellAll, List.append_nil, List.length_nil, List.drop_zero] at hf
    cases hf
    by_cases hbreak : '\n' ∈ spellAll between
    · simp [bodyOf, trimmedTextOf, hbreak]
    · simp [bodyOf, trimmedTextOf, hbreak]
  · cases hf

theorem isDefinition_definitionOf {t : Tree} (h : Sound t) (hdeclaration : isDeclaration t = true) :
    IsDefinition (definitionOf t) := by
  unfold isDeclaration at hdeclaration
  split at hdeclaration
  · exact h.definition
  · rename_i children
    obtain ⟨definition, hfind⟩ := Option.isSome_iff_exists.mp hdeclaration
    have hdefinition : Sound (.node .function definition) :=
      h.children _ (Tokens.mem_of_find? hfind)
    simpa [definitionOf, hfind] using hdefinition.definition
  · cases hdeclaration

/-- A function that is read off a declaration behind the characters before it on its line. -/
structure IsReadOff (part : List Char × Tree) (f : Function) : Prop where
  sound : Sound part.2
  isDeclaration : isDeclaration part.2 = true
  eq : statementOf part.1 part.2 = .ok (.function f)

section

variable {α β γ δ : Type} {R : α → β → Prop} {as : List α} {bs : List β}

theorem forall₂_mem (h : List.Forall₂ R as bs) : List.Forall₂ (fun a b => a ∈ as ∧ R a b) as bs :=
  (List.forall₂_and_left as bs).mpr ⟨fun _ => id, h⟩

theorem forall₂_flatMap {S : γ → δ → Prop} {f : α → List γ} {g : β → List δ}
    (h : List.Forall₂ R as bs)
    (hfg : ∀ a ∈ as, ∀ b, R a b → List.Forall₂ S (f a) (g b)) :
    List.Forall₂ S (as.flatMap f) (bs.flatMap g) :=
  List.rel_flatMap (forall₂_mem h) fun a b hab => hfg a hab.1 b hab.2

end

theorem declared_of_not_cut {line : List Char} {t : Tree} {s : Statement} (ht : IsSoundItem t)
    (hcut : isCut t = false) (hs : statementOf line t = .ok s) :
    List.Forall₂ IsReadOff (declared (pieces line t)) s.functions := by
  cases hdeclaration : isDeclaration t with
  | true =>
      obtain ⟨f, rfl⟩ := eq_function hdeclaration hs
      rw [Emission.pieces_of_isDeclaration hdeclaration]
      exact .cons ⟨ht.2, hdeclaration, hs⟩ .nil
  | false =>
      have hnone : declared (pieces line t) = [] := declared_eq_nil fun l p hmem => by
        simp [Layout.isDeclaration_of_not_cut ht.1 hcut hmem] at hdeclaration
      have hfunctions := (readsOff_of_not_cut hcut hs).functions
      rw [List.filter_cons_of_neg (by simp [hdeclaration]), List.filter_nil,
        List.forall₂_nil_left_iff] at hfunctions
      rw [hnone, hfunctions]
      exact .nil

theorem forall₂_declared {line : List Char} {t : Tree} {s : Statement} (ht : IsSoundItem t)
    (hs : statementOf line t = .ok s) :
      List.Forall₂ IsReadOff (declared (pieces line t)) s.functions := by
  by_cases hcut : isCut t = true
  · obtain ⟨fragments, hfragments, rfl⟩ := statementOf_cut hcut hs
    rw [(functions_ofFragments (gather fragments)).1, statementsIn_gather, pieces_of_isCut hcut,
      declared_segments line (cuttable_children ht.1 hcut)]
    refine forall₂_flatMap (statementsIn_of_resolved hfragments) fun part hpart s hs => ?_
    have hp : part.2 ∈ blockParts (childrenOf t) := mem_blockParts_of_mem_segments hpart
    exact forall₂_declared (isSoundItem_of_mem_blockParts ht hcut hp) hs
  · exact declared_of_not_cut ht (by simpa using hcut) hs
termination_by sizeOf t
decreasing_by exact sizeOf_lt_of_mem_children hp

theorem forall₂_functions {source : List Char} {outline : Outline} {trees : List Tree}
    (hread : Outline.Reading.read source = .ok outline) (htrees : ofSource source = .ok trees) :
    List.Forall₂ IsReadOff (Layout.declarations trees) outline.functions := by
  obtain ⟨trees', htrees', -, houtline⟩ := ofTrees_of_read hread
  obtain rfl : trees = trees' := Except.ok.inj (htrees.symm.trans htrees')
  have hdeclarations : Layout.declarations trees = declared (piecesOf [] trees) := rfl
  rw [hdeclarations, declared_items, Outline.functions]
  refine forall₂_flatMap (forall₂_statementsOf (statementsOf_of_ofTrees houtline)) fun part
    hpart s hs => ?_
  exact forall₂_declared (isSoundItem_of_ofSource htrees (mem_of_mem_items hpart)) hs

theorem lineAfter_append (line a b : List Char) :
    lineAfter (lineAfter line a) b = lineAfter line (a ++ b) := by
  by_cases hb : '\n' ∈ b
  · have hstops : (b.reverse.takeWhile (· != '\n')).length ≠ b.length := fun hall => by
      have hevery := List.takeWhile_eq_self_iff.mp
        ((List.takeWhile_prefix _).eq_of_length (hall.trans List.length_reverse.symm))
      simpa using hevery '\n' (by simpa using hb)
    simp [lineAfter, hb, List.takeWhile_append, hstops]
  · have hevery : ∀ c ∈ b.reverse, (c != '\n') = true := by
      intro c hc
      have hmem : c ∈ b := by simpa using hc
      simpa using fun heq : c = '\n' => hb (heq ▸ hmem)
    by_cases ha : '\n' ∈ a
    · simp [lineAfter, ha, hb, List.takeWhile_append_of_pos hevery]
    · simp [lineAfter, ha, hb]

theorem lineAfter_nil (line : List Char) : lineAfter line [] = line := by
  simp [lineAfter]

theorem functionOf_of_isReadOff {part : List Char × Tree} {f : Function} (h : IsReadOff part f) :
    ∃ above, spell part.2 = above ++ spellAll (definitionOf part.2) ∧
      functionOf part.1 (lineAfter part.1 above) (decoratorsOf (decorationOf part.2))
        (definitionOf part.2) = .ok f := by
  obtain ⟨line, t⟩ := part
  obtain ⟨hsound, hdeclaration, heq⟩ := h
  dsimp only at hsound hdeclaration heq ⊢
  unfold isDeclaration at hdeclaration
  split at hdeclaration
  · rw [statementOf] at heq
    obtain ⟨f', hf, hfunction⟩ := bind_eq_ok.mp heq
    cases hfunction
    exact ⟨[], rfl, by rwa [lineAfter_nil]⟩
  · obtain ⟨above, definition, habove, rfl⟩ | ⟨hnone, -⟩ := decoration_cases hsound.decoration
    · rw [statementOf, find?_function habove] at heq
      obtain ⟨f', hf, hfunction⟩ := bind_eq_ok.mp heq
      cases hfunction
      rw [takeWhile_append (isNode_function_of_isAbove habove)] at hf
      refine ⟨spellAll above, ?_, ?_⟩
      · simp [definitionOf, find?_function habove, spell, spellAll, spellAll_append]
      · simpa [definitionOf, decorationOf, find?_function habove] using hf
    · simp [hnone] at hdeclaration
  · cases hdeclaration

theorem line_of_singleton {line l : List Char} {p t : Tree} {a b : List Piece}
    (h : [.declaration line t] = a ++ .declaration l p :: b) :
      l = lineAfter line (a.flatMap Piece.source) := by
  obtain ⟨rfl, ⟨rfl, -⟩, -⟩ : a = [] ∧ (l = line ∧ p = t) ∧ b = [] := by
    simpa [List.cons_eq_append_iff] using h
  exact (lineAfter_nil l).symm

mutual

theorem line_of_pieces {line l : List Char} {t p : Tree} {a b : List Piece}
    (h : pieces line t = a ++ .declaration l p :: b) :
      l = lineAfter line (a.flatMap Piece.source) := by
  have hmem : .declaration l p ∈ pieces line t := by simp [h]
  unfold pieces at h hmem
  split at h
  · simp at hmem
  · simp at hmem
  · rename_i kind children
    split at h
    · exact line_of_singleton h
    · split at h
      · exact line_of_singleton h
      · exact line_of_piecesOf h
    · exact absurd hmem (Layout.declaration_not_mem_loopPieces children)
    · exact line_of_piecesOf h

theorem line_of_piecesOf {line l : List Char} {ts : List Tree} {p : Tree} {a b : List Piece}
    (h : piecesOf line ts = a ++ .declaration l p :: b) :
      l = lineAfter line (a.flatMap Piece.source) := by
  cases ts with
  | nil => simp [piecesOf] at h
  | cons t rest =>
      rw [piecesOf] at h
      have hbehind {between : List Piece}
          (hrest : piecesOf (lineAfter line (spell t)) rest = between ++ .declaration l p :: b) :
          l = lineAfter line ((pieces line t ++ between).flatMap Piece.source) := by
        rw [List.flatMap_append, source_pieces, ← lineAfter_append]
        exact line_of_piecesOf hrest
      obtain ⟨between, rfl, hrest⟩ | ⟨between, hfirst, hrest⟩ := List.append_eq_append_iff.mp h
      · exact hbehind hrest
      · cases between with
        | nil =>
            rw [List.append_nil] at hfirst
            rw [← hfirst, ← List.append_nil (pieces line t)]
            exact hbehind hrest.symm
        | cons piece between =>
            obtain ⟨rfl, -⟩ := List.cons.inj hrest
            exact line_of_pieces hfirst

end

theorem at_place {source : List Char} {trees : List Tree} {part : List Char × Tree}
    (htrees : ofSource source = .ok trees) (h : part ∈ Layout.declarations trees) :
    ∃ before after, source = before ++ spell part.2 ++ after ∧ part.1 = lineAfter [] before := by
  obtain ⟨a, b, hpieces⟩ := List.append_of_mem (Layout.mem_piecesOf_of_mem_declarations h)
  refine ⟨a.flatMap Piece.source, b.flatMap Piece.source, ?_, line_of_piecesOf hpieces⟩
  rw [← spellAll_ofSource htrees, ← source_piecesOf [] trees, hpieces]
  simp [Piece.source]

end Cythonizer.Proofs.Outline.Declarations
