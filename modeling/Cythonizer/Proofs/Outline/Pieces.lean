import Cythonizer.Outline.Conversion
import Cythonizer.Outline.Rendering
import Cythonizer.Proofs.Outline.Segments
import Cythonizer.Proofs.Source.Statements

namespace Cythonizer.Proofs.Outline.Pieces

open Cythonizer.Outline.Basic
open Cythonizer.Outline.Conversion
open Cythonizer.Outline.OfTree
open Cythonizer.Outline.Rendering
open Cythonizer.Settings.Basic
open Cythonizer.Source.Gaps
open Cythonizer.Source.Trees
open Cythonizer.Proofs.Outline.Segments
open Cythonizer.Proofs.Source.Phrasing
open Cythonizer.Proofs.Source.Statements

/-- A piece of a source text as it is emitted. -/
inductive Piece
  | kept (text : List Char)
  /-- The name `range` where a loop calls it. -/
  | range
  /-- The definition of a function with the characters before it on its line. -/
  | declaration (line : List Char) (definition : Tree)

/-- The name of what loops call to be converted. -/
def rangeName : List Char :=
  boundedRange.toList

def Piece.source : Piece → List Char
  | .kept text => text
  | .range => rangeName
  | .declaration _ definition => spell definition

def functionText (settings : ConversionSettings) (f : Function) : List Char :=
  (renderFunction (if f.isAsync then f else convertFunction settings f)).toList

def Piece.emitted (settings : ConversionSettings) : Piece → List Char
  | .kept text => text
  | .range => settings.parallelRange.toList
  | .declaration line definition =>
    match statementOf line definition with
    | .ok (.function f) => functionText settings f
    | _ => spell definition

def areArguments (ts : List Tree) : Bool :=
  ts.all fun t => isGap t || isNode .arguments t

def callPieces (expression : List Tree) : List Piece :=
  match expression with
  | [.node .call (.leaf .name callee :: rest)] =>
    if callee = rangeName ∧ areArguments rest = true then [.range, .kept (spellAll rest)]
    else [.kept (callee ++ spellAll rest)]
  | _ => [.kept (spellAll expression)]

mutual

/-- The pieces of an expression that may be a call of `range` in any number of brackets. -/
def expressionPieces (expression : List Tree) : List Piece :=
  match expression with
  | [.node .parenthesized inner] =>
    match inner.filter isConstruct with
    | [_] => bracketPieces inner
    | _ => [.kept (spellAll inner)]
  | _ => callPieces expression

/-- The pieces of brackets with one expression in them. -/
def bracketPieces : List Tree → List Piece
  | [] => []
  | .node .expression inner :: rest => expressionPieces inner ++ [.kept (spellAll rest)]
  | t :: rest => .kept (spell t) :: bracketPieces rest

end

def iterablePieces (iterable : List Tree) : List Piece :=
  match iterable with
  | [.node .expression inner] => expressionPieces inner
  | _ => callPieces iterable

def loopPieces : List Tree → List Piece
  | [] => []
  | .node .iterable iterable :: rest => iterablePieces iterable ++ [.kept (spellAll rest)]
  | t :: rest => .kept (spell t) :: loopPieces rest

mutual

/-- The pieces of a tree. Functions and loops are not entered. -/
def pieces (line : List Char) : Tree → List Piece
  | .gap _ text => [.kept text]
  | .leaf _ text => [.kept text]
  | .node kind children =>
    match kind with
    | .function => [.declaration line (.node .function children)]
    | .decorated =>
      match find? .function children with
      | some _ => [.declaration line (.node .decorated children)]
      | none => piecesOf line children
    | .forLoop => loopPieces children
    | _ => piecesOf line children

def piecesOf (line : List Char) : List Tree → List Piece
  | [] => []
  | t :: rest => pieces line t ++ piecesOf (lineAfter line (spell t)) rest

end

def expected (settings : ConversionSettings) (line : List Char) (t : Tree) : List Char :=
  (pieces line t).flatMap (Piece.emitted settings)

theorem source_callPieces (ts : List Tree) :
    (callPieces ts).flatMap Piece.source = spellAll ts := by
  unfold callPieces
  split
  · rename_i callee rest
    split
    · rename_i h
      simp [Piece.source, spellAll, spell, h.1]
    · simp [Piece.source, spellAll, spell]
  · simp [Piece.source]

mutual

theorem source_expressionPieces (ts : List Tree) :
    (expressionPieces ts).flatMap Piece.source = spellAll ts := by
  unfold expressionPieces
  split
  · rename_i inner
    have hspell : spellAll [.node .parenthesized inner] = spellAll inner := by
      simp [spellAll, spell]
    rw [hspell]
    split
    · exact source_bracketPieces inner
    · simp [Piece.source]
  · exact source_callPieces ts

theorem source_bracketPieces (ts : List Tree) :
    (bracketPieces ts).flatMap Piece.source = spellAll ts := by
  unfold bracketPieces
  split
  · rfl
  · rename_i inner rest
    rw [List.flatMap_append, source_expressionPieces inner]
    simp [Piece.source, spellAll, spell]
  · rename_i t rest _
    rw [List.flatMap_cons, source_bracketPieces rest]
    rfl

end

theorem source_iterablePieces (ts : List Tree) :
    (iterablePieces ts).flatMap Piece.source = spellAll ts := by
  unfold iterablePieces
  split
  · rw [source_expressionPieces]
    simp [spellAll, spell]
  · exact source_callPieces ts

theorem source_loopPieces (ts : List Tree) :
    (loopPieces ts).flatMap Piece.source = spellAll ts := by
  fun_induction loopPieces ts with
  | case1 => rfl
  | case2 iterable rest =>
      rw [List.flatMap_append, source_iterablePieces]
      simp [Piece.source, spellAll, spell]
  | case3 t rest _ ih =>
      rw [List.flatMap_cons, ih]
      rfl

mutual

theorem source_pieces (line : List Char) (t : Tree) :
    (pieces line t).flatMap Piece.source = spell t := by
  unfold pieces
  split
  · simp [Piece.source, spell]
  · simp [Piece.source, spell]
  · rename_i kind children
    rw [spell]
    split
    · simp [Piece.source, spell]
    · split
      · simp [Piece.source, spell]
      · exact source_piecesOf line children
    · exact source_loopPieces children
    · exact source_piecesOf line children

theorem source_piecesOf (line : List Char) (ts : List Tree) :
    (piecesOf line ts).flatMap Piece.source = spellAll ts := by
  cases ts with
  | nil => rfl
  | cons t rest =>
      rw [piecesOf, List.flatMap_append, source_pieces line t, source_piecesOf _ rest, spellAll]

end

/-- The text of a segment that is to be emitted. -/
def segmentText (settings : ConversionSettings) : Segment → List Char
  | .text t => t
  | .part line t => expected settings line t

/-- A tree that may stand for a part of a block. -/
def IsItem (t : Tree) : Prop :=
  Formed .item t ∨ Formed .matchCase t

/-- A tree in a statement: the segments of the statement are found in it. -/
inductive Cuttable : Tree → Prop
  | gap (g : Gap) (text : List Char) : Cuttable (.gap g text)
  | leaf (l : Leaf) (text : List Char) : Cuttable (.leaf l text)
  | block {children : List Tree} (h : ∀ t ∈ children, IsItem t) : Cuttable (.node .block children)
  | node {kind : Kind} {children : List Tree} (hblock : kind ≠ .block)
      (hfunction : kind ≠ .function) (hdecorated : kind ≠ .decorated) (hloop : kind ≠ .forLoop)
      (h : ∀ t ∈ children, Cuttable t) : Cuttable (.node kind children)

theorem cuttable_of_phraseKind {kind : Kind} {children : List Tree} (hkind : PhraseKind kind)
    (h : ∀ t ∈ children, Cuttable t) : Cuttable (.node kind children) := by
  refine .node ?_ ?_ ?_ ?_ h <;> rintro rfl <;> cases hkind

theorem cuttable_of_isPhrase {t : Tree} (h : IsPhrase t) : Cuttable t := by
  induction h with
  | gap _ => exact .gap _ _
  | leaf _ => exact .leaf _ _
  | node hkind _ ih => exact cuttable_of_phraseKind hkind ih

theorem cuttable_of_component {t : Tree} (h : Formed .component t) : Cuttable t := by
  generalize hrole : Role.component = role at h
  induction h with
  | phrase h => exact cuttable_of_isPhrase h
  | mark => exact .leaf _ _
  | clause _ ih =>
      exact .node (by decide) (by decide) (by decide) (by decide) fun t ht => ih t ht rfl
  | block h _ => exact .block fun t ht => .inl (h t ht)
  | cases h _ => exact .block fun t ht => .inr (h t ht)
  | _ => cases hrole

theorem not_mem_function {children others : List Tree}
    (h : isCut (.node .decorated others) = true) : .node .function children ∉ others := by
  intro hmem
  have hnone : find? .function others = none := by simpa [isCut] using h
  simp only [find?, Option.map_eq_none_iff, List.find?_eq_none] at hnone
  exact hnone _ hmem rfl

theorem cuttable_of_decorated {t : Tree} (h : Formed .decorated t)
    (hfunction : ∀ children, t ≠ .node .function children) : Cuttable t := by
  cases h with
  | gapBeforeDefinition _ => exact .gap _ _
  | decorator hchildren =>
      exact .node (by decide) (by decide) (by decide) (by decide) fun t ht =>
        cuttable_of_component (hchildren t ht)
  | definition hkind hchildren =>
      cases hkind with
      | function => exact absurd rfl (hfunction _)
      | compound =>
          exact .node (by decide) (by decide) (by decide) (by decide) fun t ht =>
            cuttable_of_component (hchildren t ht)

theorem cuttable_children {t : Tree} (h : IsItem t) (hcut : isCut t = true) :
    ∀ c ∈ childrenOf t, Cuttable c := by
  rcases h with h | h
  · cases h with
    | separator h => cases h <;> cases hcut
    | simple _ hchildren => exact fun c hc => cuttable_of_isPhrase (hchildren c hc)
    | compound _ hchildren => exact fun c hc => cuttable_of_component (hchildren c hc)
    | decorated hchildren =>
        intro c hc
        refine cuttable_of_decorated (hchildren c hc) fun _ => ?_
        rintro rfl
        exact not_mem_function hcut hc
  · cases h with
    | gapBeforeCase _ => cases hcut
    | markBeforeCase => cases hcut
    | matchCase hchildren => exact fun c hc => cuttable_of_component (hchildren c hc)

section

variable {settings : ConversionSettings} {line : List Char}

theorem pieces_node {kind : Kind} (hfunction : kind ≠ .function) (hdecorated : kind ≠ .decorated)
    (hloop : kind ≠ .forLoop) (children : List Tree) :
    pieces line (.node kind children) = piecesOf line children := by
  rw [pieces]
  · exact hfunction
  · exact hdecorated
  · exact hloop

theorem expected_node {kind : Kind} (hfunction : kind ≠ .function) (hdecorated : kind ≠ .decorated)
    (hloop : kind ≠ .forLoop) (children : List Tree) :
    expected settings line (.node kind children) =
      (piecesOf line children).flatMap (Piece.emitted settings) := by
  rw [expected, pieces_node hfunction hdecorated hloop]

theorem emitted_piecesOf_cons (t : Tree) (rest : List Tree) :
    (piecesOf line (t :: rest)).flatMap (Piece.emitted settings) =
      expected settings line t ++
        (piecesOf (lineAfter line (spell t)) rest).flatMap (Piece.emitted settings) := by
  rw [piecesOf, List.flatMap_append, expected]

theorem expected_of_not_isConstruct {t : Tree} (h : isConstruct t = false) :
    expected settings line t = spell t := by
  cases t with
  | gap g text => simp [expected, pieces, Piece.emitted, spell]
  | leaf l text => simp [expected, pieces, Piece.emitted, spell]
  | node kind children => cases h

theorem emitted_items (ts : List Tree) :
    (piecesOf line ts).flatMap (Piece.emitted settings) =
      (items line ts).flatMap (segmentText settings) := by
  induction ts generalizing line with
  | nil => rfl
  | cons t rest ih =>
      rw [emitted_piecesOf_cons, items, List.flatMap_cons, ih]
      by_cases h : isPart t
      · rw [if_pos h, segmentText]
      · rw [if_neg h, segmentText, expected_of_not_isConstruct]
        cases t <;> first | rfl | exact absurd rfl h

theorem emitted_piecesOf {ts : List Tree}
    (h : ∀ t ∈ ts, ∀ line, expected settings line t = spell t) :
    (piecesOf line ts).flatMap (Piece.emitted settings) = spellAll ts := by
  induction ts generalizing line with
  | nil => rfl
  | cons t rest ih =>
      obtain ⟨hfirst, hrest⟩ := List.forall_mem_cons.mp h
      rw [emitted_piecesOf_cons, hfirst, ih hrest, spellAll]

theorem expected_of_isPhrase {t : Tree} (h : IsPhrase t) (line : List Char) :
    expected settings line t = spell t := by
  induction h generalizing line with
  | gap _ => exact expected_of_not_isConstruct rfl
  | leaf _ => exact expected_of_not_isConstruct rfl
  | node hkind _ ih =>
      rw [expected_node, emitted_piecesOf ih, spell]
      all_goals
        rintro rfl
        cases hkind

theorem emitted_segments (settings : ConversionSettings) (line : List Char) (ts : List Tree)
    (h : ∀ t ∈ ts, Cuttable t) :
    (piecesOf line ts).flatMap (Piece.emitted settings) =
      (segments line ts).flatMap (segmentText settings) := by
  induction ts using trees_induction generalizing line with
  | nil =>
      rw [segments]
      rfl
  | gap g text rest ih =>
      obtain ⟨-, hrest⟩ := List.forall_mem_cons.mp h
      rw [emitted_piecesOf_cons, segments, List.flatMap_cons, ih _ hrest,
        expected_of_not_isConstruct rfl]
      rfl
  | leaf l text rest ih =>
      obtain ⟨-, hrest⟩ := List.forall_mem_cons.mp h
      rw [emitted_piecesOf_cons, segments, List.flatMap_cons, ih _ hrest,
        expected_of_not_isConstruct rfl]
      rfl
  | block children rest ih =>
      obtain ⟨-, hrest⟩ := List.forall_mem_cons.mp h
      rw [emitted_piecesOf_cons, ih _ hrest, segments_block, List.flatMap_append,
        expected_node (by decide) (by decide) (by decide), emitted_items]
      rfl
  | node kind children rest hblock ihchildren ih =>
      obtain ⟨hfirst, hrest⟩ := List.forall_mem_cons.mp h
      obtain _ | _ | _ | ⟨-, hfunction, hdecorated, hloop, hchildren⟩ := hfirst
      · exact absurd rfl hblock
      · rw [emitted_piecesOf_cons, ih _ hrest, segments_node hblock, List.flatMap_append,
          expected_node hfunction hdecorated hloop, ihchildren _ hchildren]
        rfl

theorem pieces_of_isCut {t : Tree} (h : isCut t = true) :
    pieces line t = piecesOf line (childrenOf t) := by
  obtain ⟨children, rfl, hnone⟩ | ⟨kind, children, rfl, hkind⟩ := cut_cases h
  · rw [pieces, hnone, childrenOf]
  · rw [pieces, childrenOf]
    all_goals
      rintro rfl
      simp at hkind

theorem expected_of_isCut {t : Tree} (h : IsItem t) (hcut : isCut t = true) :
    expected settings line t =
      (segments line (childrenOf t)).flatMap (segmentText settings) := by
  rw [expected, pieces_of_isCut hcut]
  exact emitted_segments settings line _ (cuttable_children h hcut)

end

theorem isItem_of_mem_blockParts {p : Tree} (ts : List Tree) (h : ∀ t ∈ ts, Cuttable t)
    (hp : p ∈ blockParts ts) : IsItem p := by
  induction ts using trees_induction with
  | nil => simp [blockParts] at hp
  | gap g text rest ih =>
      rw [blockParts] at hp
      exact ih (List.forall_mem_cons.mp h).2 hp
  | leaf l text rest ih =>
      rw [blockParts] at hp
      exact ih (List.forall_mem_cons.mp h).2 hp
  | block children rest ih =>
      obtain ⟨hfirst, hrest⟩ := List.forall_mem_cons.mp h
      rw [blockParts, List.mem_append] at hp
      obtain _ | _ | hitems | hnode := hfirst
      · exact hp.elim (fun hp => hitems p (List.mem_filter.mp hp).1) (ih hrest)
      · exact absurd rfl hnode
  | node kind children rest hblock ihchildren ih =>
      obtain ⟨hfirst, hrest⟩ := List.forall_mem_cons.mp h
      rw [blockParts_node hblock, List.mem_append] at hp
      obtain _ | _ | _ | ⟨-, -, -, -, hchildren⟩ := hfirst
      · exact absurd rfl hblock
      · exact hp.elim (ihchildren hchildren) (ih hrest)

end Cythonizer.Proofs.Outline.Pieces
