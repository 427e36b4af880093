import Mathlib.Algebra.Ring.Nat
import Cythonizer.Proofs.Outline.Correspondence
import Cythonizer.Proofs.Outline.Loops

/-!
What is emitted of a statement and what is to be emitted. White space at the end of a statement is
lost, and a call of `range` that a line continuation hides is not converted; apart from that the two
agree.
-/

namespace Cythonizer.Proofs.Outline.Emission

open Cythonizer.Outline.Basic
open Cythonizer.Outline.Conversion
open Cythonizer.Outline.OfTree
open Cythonizer.Outline.Rendering
open Cythonizer.Settings.Basic
open Cythonizer.Source.Syntax
open Cythonizer.Source.Trees
open Cythonizer.Text.Blank
open Cythonizer.Proofs.Outline.Correspondence
open Cythonizer.Proofs.Outline.Fragments
open Cythonizer.Proofs.Outline.Loops
open Cythonizer.Proofs.Outline.Pieces
open Cythonizer.Proofs.Outline.Segments
open Cythonizer.Proofs.Source.Phrasing
open Cythonizer.Proofs.Source.Statements

variable {settings : ConversionSettings} {line : List Char}

def convertedText (settings : ConversionSettings) (s : Statement) : List Char :=
  (renderStatement (convertStatement settings s)).toList

/-- The text before the expression that a loop iterates over, the expression, and the text after it.
-/
def loopSplit (children : List Tree) : List Char × List Tree × List Char :=
  iterated ((find? .iterable children).getD [])

/-- The text of a loop after the expression that it iterates over. -/
def loopTail (children : List Tree) : List Char :=
  let front := children.takeWhile fun t => !isNode .iterable t
  (loopSplit children).2.2 ++ spellAll (children.drop (front.length + 1))

/-- The text at the end of a part of which white space is taken off. -/
def lastText : Tree → List Char
  | .gap _ text => text
  | .leaf _ _ => []
  | .node .importNames children => spellAll children
  | .node .importFrom children => spellAll children
  | .node .function _ => []
  | .node .decorated children =>
    match find? .function children with
    | some _ => []
    | none => closingText (segments [] children)
  | .node .forLoop children => loopTail children
  | .node _ children => closingText (segments [] children)

/-- The number of calls of `range` that a loop does not find for a line continuation in brackets. -/
def hiddenRanges : Tree → Nat
  | .node .forLoop children =>
    let iterable := (find? .iterable children).getD []
    if joinedIterable iterable then rangesIn (iterablePieces iterable) else 0
  | _ => 0

def blanksAfter (text : List Char) : Nat :=
  text.length - (trimEnd text).length

/-- A text is emitted for an expected one. It lacks `lost` characters, and `hidden` calls of `range`
are not converted in it. -/
structure Emits (settings : ConversionSettings) (text expected : List Char) (lost hidden : Nat) :
    Prop where
  length : text.length + lost + hidden * settings.parallelRange.toList.length =
    expected.length + hidden * rangeName.length
  eq : lost = 0 → hidden = 0 → text = expected

theorem Emits.refl (text : List Char) : Emits settings text text 0 0 :=
  ⟨by simp, fun _ _ => rfl⟩

theorem Emits.append {a b a' b' : List Char} {lost hidden lost' hidden' : Nat}
    (h : Emits settings a b lost hidden) (h' : Emits settings a' b' lost' hidden') :
    Emits settings (a ++ a') (b ++ b') (lost + lost') (hidden + hidden') where
  length := by
    have := h.length
    have := h'.length
    simp only [List.length_append, Nat.add_mul]
    omega
  eq hlost hhidden := by
    rw [h.eq (by omega) (by omega), h'.eq (by omega) (by omega)]

theorem trimEnd_isPrefix (text : List Char) : trimEnd text <+: text := by
  have h := List.reverse_prefix.mpr (List.dropWhile_suffix isBlank (l := text.reverse))
  rwa [List.reverse_reverse] at h

theorem Emits.trim {front text expected : List Char} {lost hidden : Nat}
    (h : Emits settings (front ++ text) expected lost hidden) :
    Emits settings (front ++ trimEnd text) expected (blanksAfter text + lost) hidden := by
  have hstart := trimEnd_isPrefix text
  have hle := hstart.length_le
  constructor
  · have := h.length
    simp only [List.length_append, blanksAfter] at this ⊢
    omega
  · intro hlost hhidden
    have hlength : (trimEnd text).length = text.length := by
      unfold blanksAfter at hlost
      omega
    rw [hstart.eq_of_length hlength]
    exact h.eq (by omega) hhidden

theorem emits_trimEnd (text : List Char) :
    Emits settings (trimEnd text) text (blanksAfter text) 0 := by
  have h : Emits settings ([] ++ text) text 0 0 := .refl text
  exact h.trim

theorem blanksAfter_eq_zero_iff (text : List Char) : blanksAfter text = 0 ↔
    trimEnd text = text := by
  have hstart := trimEnd_isPrefix text
  constructor
  · intro h
    refine hstart.eq_of_length ?_
    have := hstart.length_le
    unfold blanksAfter at h
    omega
  · intro h
    rw [blanksAfter, h, Nat.sub_self]

theorem convertedText_other (text : String) :
    convertedText settings (.other text) = text.toList := by
  rw [convertedText, convertStatement, renderStatement]
  all_goals simp

theorem convertedText_importNames (text : String) :
    convertedText settings (.importNames text) = text.toList := by
  rw [convertedText, convertStatement, renderStatement]
  all_goals simp

theorem convertedText_importFrom (text : String) :
    convertedText settings (.importFrom text) = text.toList := by
  rw [convertedText, convertStatement, renderStatement]
  all_goals simp

theorem flatten_convertFragments (fragments : List Fragment) :
    (renderFragments (convertFragments settings fragments)).toList =
      flatten (convertedText settings) fragments := by
  induction fragments with
  | nil => rw [convertFragments, renderFragments]; rfl
  | cons f rest ih =>
      cases f with
      | text t => rw [convertFragments, renderFragments, String.toList_append, ih, flatten]
      | statement s =>
          rw [convertFragments, renderFragments, String.toList_append, ih, flatten, convertedText]

theorem convertedText_ofFragments (fragments : List Fragment) :
    convertedText settings (ofFragments fragments) =
      flatten (convertedText settings) (trimLast fragments) := by
  unfold ofFragments
  split
  · rename_i h
    rw [h, convertedText_other]
    rfl
  · rename_i h
    rw [h, convertedText_other, flatten, flatten, List.append_nil]
  · rw [← flatten_convertFragments, convertedText, convertStatement, renderStatement]

theorem convertedText_loop (l : Loop) :
    convertedText settings (.loop l) =
      l.head.toList ++ iterableText settings l.iterable ++ l.tail.toList := by
  obtain ⟨head, iterable, tail⟩ := l
  rw [convertedText, convertStatement, renderStatement, renderLoop]
  unfold iterableText convertLoop
  cases iterable with
  | call callee arguments => by_cases h : callee = boundedRange <;> simp [h]
  | other text => simp

theorem isNode_eq_false {kind : Kind} {t : Tree} (h : ∀ children, t = .node kind children → False) :
    isNode kind t = false := by
  cases t with
  | gap g text => rfl
  | leaf l text => rfl
  | node k children =>
      by_contra hnode
      obtain rfl : k = kind := by simpa [isNode] using hnode
      exact h children rfl

theorem emitted_loopPieces (children : List Tree) :
    (loopPieces children).flatMap (Piece.emitted settings) =
      spellAll (children.takeWhile fun t => !isNode .iterable t) ++
        (iterablePieces ((find? .iterable children).getD [])).flatMap (Piece.emitted settings) ++
        spellAll (children.drop
          ((children.takeWhile fun t => !isNode .iterable t).length + 1)) := by
  fun_induction loopPieces children with
  | case1 => simp [find?, iterablePieces, callPieces, Piece.emitted, spellAll]
  | case2 iterable rest => simp [find?, isNode, childrenOf, Piece.emitted, spellAll]
  | case3 t rest h ih =>
      have hnode : isNode .iterable t = false := isNode_eq_false h
      have hfind : find? .iterable (t :: rest) = find? .iterable rest := by
        simp [find?, hnode]
      rw [List.flatMap_cons, ih, hfind]
      simp [hnode, Piece.emitted, spellAll]

theorem emits_iterable (settings : ConversionSettings) (iterable : List Tree) :
    Emits settings
      ((iterated iterable).1 ++ iterableText settings (iterableOf (iterated iterable).2.1) ++
        (iterated iterable).2.2)
      ((iterablePieces iterable).flatMap (Piece.emitted settings)) 0
      (if joinedIterable iterable then rangesIn (iterablePieces iterable) else 0) := by
  have hpeels := peels_iterated settings iterable
  cases hjoined : joinedIterable iterable with
  | false =>
      rw [hpeels.emitted hjoined]
      exact .refl _
  | true =>
      have hdeclaration line t := declaration_not_mem_iterablePieces line t iterable
      have htext : (iterated iterable).1 ++ iterableText settings
          (iterableOf (iterated iterable).2.1) ++ (iterated iterable).2.2 = spellAll iterable := by
        rw [hpeels.other hjoined, iterableText_other, textOf, String.toList_ofList, hpeels.spell]
      rw [htext, ← source_iterablePieces, if_pos rfl]
      exact ⟨(length_emitted settings hdeclaration).symm, fun _ hnone =>
        (emitted_eq_source settings hdeclaration hnone).symm⟩

theorem loopOf_eq (children : List Tree) :
    loopOf children =
      { head := String.ofList (spellAll (children.takeWhile fun t => !isNode .iterable t) ++
          (loopSplit children).1)
        iterable := iterableOf (loopSplit children).2.1
        tail := String.ofList (trimEnd (loopTail children)) } := rfl

theorem emits_loop (settings : ConversionSettings) (line : List Char) (children : List Tree) :
    Emits settings (convertedText settings (.loop (loopOf children)))
      (expected settings line (.node .forLoop children)) (blanksAfter (loopTail children))
      (hiddenRanges (.node .forLoop children)) := by
  rw [convertedText_loop, loopOf_eq, expected, pieces, emitted_loopPieces]
  generalize spellAll (children.takeWhile fun t => !isNode .iterable t) = front
  have hiterable := emits_iterable settings ((find? .iterable children).getD [])
  have hall := ((Emits.refl front).append hiterable).append (.refl (spellAll (children.drop
    ((children.takeWhile fun t => !isNode .iterable t).length + 1))))
  rw [← Nat.add_zero (blanksAfter _), ← Nat.zero_add (hiddenRanges _)]
  simp only [String.toList_ofList]
  refine Emits.trim ?_
  simpa [loopTail, loopSplit, hiddenRanges] using hall

/-- The number of characters of white space that are lost at the ends of the parts reached. -/
def lost (t : Tree) : Nat :=
  ((reached t).map fun p => blanksAfter (lastText p)).sum

/-- The number of calls of `range` that are not converted in the parts reached. -/
def hidden (t : Tree) : Nat :=
  ((reached t).map hiddenRanges).sum

theorem sum_flatMap_reached (f : Tree → Nat) (ts : List Tree) :
    ((ts.flatMap reached).map f).sum = (ts.map fun t => ((reached t).map f).sum).sum := by
  induction ts with
  | nil => rfl
  | cons t rest ih => simp [ih]

theorem sum_reached_of_isCut (f : Tree → Nat) {t : Tree} (h : isCut t = true) :
    ((reached t).map f).sum =
      f t + ((blockParts (childrenOf t)).map fun p => ((reached p).map f).sum).sum := by
  rw [reached_of_isCut h, List.map_cons, List.sum_cons, sum_flatMap_reached]

theorem lost_of_isCut {t : Tree} (h : isCut t = true) :
    lost t = blanksAfter (lastText t) + ((blockParts (childrenOf t)).map lost).sum :=
  sum_reached_of_isCut _ h

theorem hidden_of_isCut {t : Tree} (h : isCut t = true) :
    hidden t = hiddenRanges t + ((blockParts (childrenOf t)).map hidden).sum :=
  sum_reached_of_isCut _ h

theorem emits_segments {segments : List Segment} {fragments : List Fragment}
    (h : List.Forall₂ (fun segment fragment => resolve segment = .ok fragment) segments fragments)
    (hparts : ∀ part ∈ partsIn segments, ∀ s, statementOf part.1 part.2 = .ok s →
      Emits settings (convertedText settings s) (expected settings part.1 part.2) (lost part.2)
        (hidden part.2)) :
    Emits settings (flatten (convertedText settings) fragments)
      (segments.flatMap (segmentText settings)) ((partsIn segments).map fun part => lost part.2).sum
      ((partsIn segments).map fun part => hidden part.2).sum := by
  induction h with
  | nil => exact .refl []
  | @cons segment fragment segments fragments hfirst _ ih =>
      cases segment with
      | text t =>
          obtain rfl := resolve_text hfirst
          have hall := Emits.append (.refl t) (ih hparts)
          simpa [flatten, segmentText, partsIn] using hall
      | part line t =>
          obtain ⟨s, hs, rfl⟩ := resolve_part hfirst
          obtain ⟨hpart, hrest⟩ := List.forall_mem_cons.mp hparts
          exact (hpart s hs).append (ih hrest)

theorem lost_of_not_cut {t : Tree} (h : isCut t = false) : lost t = blanksAfter (lastText t) := by
  rw [lost, reached_of_not_cut h, List.map_singleton, List.sum_singleton]

theorem hidden_of_not_cut {t : Tree} (h : isCut t = false) : hidden t = hiddenRanges t := by
  rw [hidden, reached_of_not_cut h, List.map_singleton, List.sum_singleton]

theorem convertedText_function (f : Function) :
    convertedText settings (.function f) = functionText settings f := by
  rw [convertedText, convertStatement, renderStatement, functionText]

theorem phrases_of_simpleKind {kind : Kind} {children : List Tree} (hkind : SimpleKind kind)
    (h : IsItem (.node kind children)) : ∀ t ∈ children, IsPhrase t := by
  rcases h with h | h
  · cases h with
    | separator h => cases h
    | simple _ hchildren => exact hchildren
    | compound hcompound _ => cases hcompound <;> cases hkind
    | decorated _ => cases hkind
  · cases h
    cases hkind

theorem emits_phrases {kind : Kind} {children : List Tree} (hkind : SimpleKind kind)
    (h : IsItem (.node kind children)) :
    Emits settings (trimEnd (spellAll children)) (expected settings line (.node kind children))
      (blanksAfter (spellAll children)) 0 := by
  have hphrases := phrases_of_simpleKind hkind h
  rw [expected_node, emitted_piecesOf fun t ht => expected_of_isPhrase (hphrases t ht)]
  · exact emits_trimEnd (spellAll children)
  all_goals
    rintro rfl
    cases hkind

theorem pieces_of_isDeclaration {t : Tree} (h : isDeclaration t = true) :
    pieces line t = [.declaration line t] := by
  unfold isDeclaration at h
  split at h
  · rw [pieces]
  · rename_i children
    obtain ⟨definition, hfind⟩ := Option.isSome_iff_exists.mp h
    rw [pieces, hfind]
  · cases h

theorem emits_declaration {t : Tree} {s : Statement} (h : isDeclaration t = true)
    (hs : statementOf line t = .ok s) :
    Emits settings (convertedText settings s) (expected settings line t) 0 0 := by
  obtain ⟨f, rfl⟩ := eq_function h hs
  have hexpected : expected settings line t = functionText settings f := by
    simp [expected, pieces_of_isDeclaration h, Piece.emitted, hs]
  rw [hexpected, convertedText_function]
  exact .refl _

theorem emits_of_not_cut {t : Tree} {s : Statement} (hitem : IsItem t) (hpart : isPart t = true)
    (hcut : isCut t = false) (hs : statementOf line t = .ok s) :
    Emits settings (convertedText settings s) (expected settings line t) (lost t) (hidden t) := by
  rw [lost_of_not_cut hcut, hidden_of_not_cut hcut]
  unfold isCut at hcut
  split at hcut
  case h_1 children =>
    cases hs
    rw [convertedText_importNames, trimmedTextOf, String.toList_ofList]
    exact emits_phrases .importNames hitem
  case h_2 children =>
    cases hs
    rw [convertedText_importFrom, trimmedTextOf, String.toList_ofList]
    exact emits_phrases .importFrom hitem
  case h_3 children => exact emits_declaration rfl hs
  case h_4 children =>
    obtain ⟨definition, hfind⟩ : ∃ definition, find? .function children = some definition := by
      cases hfind : find? .function children with
      | none => simp [hfind] at hcut
      | some definition => exact ⟨definition, rfl⟩
    rw [lastText, hfind]
    exact emits_declaration (by simp [isDeclaration, hfind]) hs
  case h_5 children =>
    cases hs
    exact emits_loop settings line children
  case h_6 => cases hcut
  case h_7 g text =>
    cases hs
    rw [convertedText_other, String.toList_ofList, expected_of_not_isConstruct rfl]
    exact emits_trimEnd text
  case h_8 l text => cases hpart

theorem lastText_of_isCut {t : Tree} (h : isCut t = true) :
    lastText t = closingText (segments [] (childrenOf t)) := by
  obtain ⟨children, rfl, hnone⟩ | ⟨kind, children, rfl, hkind⟩ := cut_cases h
  · rw [lastText, hnone, childrenOf]
  · rw [lastText, childrenOf]
    all_goals
      rintro rfl
      simp at hkind

theorem hiddenRanges_of_isCut {t : Tree} (h : isCut t = true) : hiddenRanges t = 0 := by
  unfold hiddenRanges
  split
  · cases h
  · rfl

theorem emits_part (settings : ConversionSettings) (line : List Char) {t : Tree} {s : Statement}
    (hitem : IsItem t) (hpart : isPart t = true) (hs : statementOf line t = .ok s) :
    Emits settings (convertedText settings s) (expected settings line t) (lost t) (hidden t) := by
  by_cases hcut : isCut t = true
  · obtain ⟨fragments, hfragments, rfl⟩ := statementOf_cut hcut hs
    obtain ⟨front, hflat, htrimmed⟩ :=
      flatten_trimLast_gather (convertedText settings) fragments
    have hall : Emits settings (flatten (convertedText settings) fragments)
        ((segments line (childrenOf t)).flatMap (segmentText settings))
        ((partsIn (segments line (childrenOf t))).map fun part => lost part.2).sum
        ((partsIn (segments line (childrenOf t))).map fun part => hidden part.2).sum := by
      refine emits_segments hfragments fun part hmem s hs => ?_
      have hp : part.2 ∈ blockParts (childrenOf t) := mem_blockParts_of_mem_segments hmem
      exact emits_part settings part.1
        (isItem_of_mem_blockParts _ (cuttable_children hitem hcut) hp)
        (isPart_of_mem_blockParts hp) hs
    rw [hflat, closing_of_resolved hfragments, closingText_segments line []] at hall
    rw [closing_of_resolved hfragments, closingText_segments line []] at htrimmed
    rw [convertedText_ofFragments, htrimmed, expected_of_isCut hitem hcut, lost_of_isCut hcut,
      hidden_of_isCut hcut, hiddenRanges_of_isCut hcut, Nat.zero_add, lastText_of_isCut hcut,
      ← partsIn_segments line, List.map_map, List.map_map]
    exact hall.trim
  · exact emits_of_not_cut hitem hpart (by simpa using hcut) hs
termination_by sizeOf t
decreasing_by exact sizeOf_lt_of_mem_children hp

theorem lost_eq_zero_iff (t : Tree) :
    lost t = 0 ↔ ∀ p ∈ reached t, trimEnd (lastText p) = lastText p := by
  simp [lost, List.sum_eq_zero_iff_forall_eq_nat, blanksAfter_eq_zero_iff]

theorem hidden_eq_zero_iff (t : Tree) : hidden t = 0 ↔ ∀ p ∈ reached t, hiddenRanges p = 0 := by
  simp [hidden, List.sum_eq_zero_iff_forall_eq_nat]

theorem emits_part_iff {t : Tree} {s : Statement} (hitem : IsItem t) (hpart : isPart t = true)
    (hs : statementOf line t = .ok s) :
    (∀ settings, convertedText settings s = expected settings line t) ↔
      ∀ p ∈ reached t, trimEnd (lastText p) = lastText p ∧ hiddenRanges p = 0 := by
  simp only [forall_and, ← lost_eq_zero_iff, ← hidden_eq_zero_iff]
  have hemits settings := emits_part settings line hitem hpart hs
  constructor
  · intro h
    -- Where `range` is replaced by itself only white space can be missing. Where it is replaced by
    -- nothing, hidden calls are too long by its length.
    have hsame := (hemits { parallelRange := boundedRange }).length
    have hnone := (hemits { parallelRange := "" }).length
    rw [h] at hsame hnone
    have hrange : boundedRange.toList.length = rangeName.length := rfl
    have hpositive : 0 < rangeName.length := by decide
    simp only [hrange] at hsame
    have hzero : "".toList.length = 0 := rfl
    simp only [hzero, Nat.mul_zero, Nat.add_zero] at hnone
    have hlost : lost t = 0 := by omega
    refine ⟨hlost, ?_⟩
    have hmul : hidden t * rangeName.length = 0 := by omega
    exact (Nat.mul_eq_zero.mp hmul).resolve_right hpositive.ne'
  · rintro ⟨hlost, hhidden⟩ settings
    exact (hemits settings).eq hlost hhidden

/-- The statements at the top of a source with the characters before them on their lines. -/
def topStatements (trees : List Tree) : List (List Char × Tree) :=
  (partsIn (items [] trees)).filter fun part => isConstruct part.2

def expectedTexts (settings : ConversionSettings) (trees : List Tree) : List (List Char) :=
  (topStatements trees).map fun part => expected settings part.1 part.2

theorem ending_convertStatement (s : Statement) :
    ending (convertStatement settings s) = ending s := by
  cases s with
  | function f =>
      rw [convertStatement]
      by_cases h : f.isAsync = true
      · rw [if_pos h]
      · rw [if_neg h]
        rfl
  | _ => rw [convertStatement] <;> first | rfl | simp

theorem emit_convert (compiler : CompilerSettings) (settings : ConversionSettings)
    (outline : Outline) :
    emit compiler (convert settings outline) = preamble compiler ++
      String.join (outline.statements.map fun s =>
        String.ofList (convertedText settings s) ++ ending s) := by
  rw [emit, renderStatements, convert, List.map_map]
  congr 3
  funext s
  simp [convertedText, ending_convertStatement]

section

variable {α β γ : Type} {Q : α → β → Prop} {R : γ → α → β → Prop} {as : List α} {bs : List β}

theorem forall₂_forall (h : List.Forall₂ Q as bs) :
    (∀ c, List.Forall₂ (R c) as bs) ↔ List.Forall₂ (fun a b => ∀ c, R c a b) as bs := by
  induction h with
  | nil => simp
  | cons _ _ ih => simp [forall_and, ih]

end

theorem forall_parts_iff (trees : List Tree) (N : Tree → Prop) :
    (∀ part ∈ partsIn (items [] trees), N part.2) ↔ ∀ t ∈ trees.filter isPart, N t := by
  rw [← partsIn_items [] trees, List.forall_mem_map]

theorem forall_parts_isConstruct_iff (trees : List Tree) :
    (∀ part ∈ partsIn (items [] trees), isConstruct part.2 = true) ↔
      ∀ text, .gap .continuation text ∉ trees := by
  rw [forall_parts_iff trees fun t => isConstruct t = true,
    forall_isConstruct_iff fun p hp => (List.mem_filter.mp hp).2]
  refine forall_congr' fun text => not_congr ?_
  exact List.mem_filter.trans (and_iff_left rfl)

theorem forall_reachedAmong_iff (trees : List Tree) (N : Tree → Prop) :
    (∀ p ∈ reachedAmong trees, N p) ↔
      ∀ part ∈ partsIn (items [] trees), ∀ p ∈ reached part.2, N p := by
  rw [reachedAmong_eq, List.forall_mem_flatMap, ← forall_parts_iff]

theorem texts_eq_iff {parts : List (List Char × Tree)} {statements : List Statement} :
    statements.map (convertedText settings) =
        parts.map (fun part => expected settings part.1 part.2) ↔
      List.Forall₂ (fun part s => convertedText settings s = expected settings part.1 part.2) parts
        statements := by
  rw [eq_comm, ← List.forall₂_eq_eq_eq, List.forall₂_map_left_iff, List.forall₂_map_right_iff]
  simp only [eq_comm]

/-- The trees of a source that is read are separators and statements and spell the source. What is
emitted are the preamble and the statements with their endings, and each statement is what is to be
emitted for one of the source, exactly if no line continuation is taken for a statement, no white
space is lost at the end of a part that is reached, and no loop that is reached hides a call of
`range`. -/
theorem survives_iff {source : List Char} {outline : Outline}
    (h : Outline.Reading.read source = .ok outline) :
    ∃ trees, ofSource source = .ok trees ∧ spellAll trees = source ∧
      (∀ t ∈ trees, Formed .item t) ∧
      (∀ compiler settings, emit compiler (convert settings outline) = preamble compiler ++
        String.join (outline.statements.map fun s =>
          String.ofList (convertedText settings s) ++ ending s)) ∧
      ((∀ settings, outline.statements.map (convertedText settings) =
          expectedTexts settings trees) ↔
        (∀ text, .gap .continuation text ∉ trees) ∧
          ∀ p ∈ reachedAmong trees, trimEnd (lastText p) = lastText p ∧ hiddenRanges p = 0) := by
  obtain ⟨trees, htrees, -, houtline⟩ := ofTrees_of_read h
  have hstatements := forall₂_statementsOf (statementsOf_of_ofTrees houtline)
  have hformed := formed_of_ofSource htrees
  refine ⟨trees, htrees, spellAll_ofSource htrees, hformed,
    fun compiler settings => emit_convert compiler settings outline, ?_⟩
  have hpart : ∀ part ∈ partsIn (items [] trees), IsItem part.2 ∧ isPart part.2 = true := by
    rw [forall_parts_iff trees fun t => IsItem t ∧ isPart t = true]
    intro t ht
    obtain ⟨hmem, hpart⟩ := List.mem_filter.mp ht
    exact ⟨.inl (hformed t hmem), hpart⟩
  have hone (part : List Char × Tree) (hmem : part ∈ partsIn (items [] trees)) (s : Statement)
      (hs : statementOf part.1 part.2 = .ok s) :
      (∀ settings, convertedText settings s = expected settings part.1 part.2) ↔
        ∀ p ∈ reached part.2, trimEnd (lastText p) = lastText p ∧ hiddenRanges p = 0 :=
    emits_part_iff (hpart part hmem).1 (hpart part hmem).2 hs
  calc
    (∀ settings, outline.statements.map (convertedText settings) = expectedTexts settings trees) ↔
        ∀ settings, (∀ part ∈ partsIn (items [] trees), isConstruct part.2 = true) ∧
          List.Forall₂ (fun part s => convertedText settings s = expected settings part.1 part.2)
            (partsIn (items [] trees)) outline.statements := by
      refine forall_congr' fun settings => ?_
      rw [expectedTexts, topStatements, texts_eq_iff, forall₂_filter_iff hstatements]
    _ ↔ (∀ part ∈ partsIn (items [] trees), isConstruct part.2 = true) ∧
          List.Forall₂ (fun part s => ∀ settings,
            convertedText settings s = expected settings part.1 part.2)
            (partsIn (items [] trees)) outline.statements := by
      have : Nonempty ConversionSettings := ⟨{}⟩
      rw [forall_and, forall_const, forall₂_forall hstatements]
    _ ↔ _ := by
      rw [forall_parts_isConstruct_iff, forall_reachedAmong_iff,
        forall₂_iff_forall hstatements hone]

/-- A line continuation between the statements of a block: what is emitted lacks its line end. -/
theorem nested_line_end_lost :
    ¬∀ (source : List Char) (outline : Outline) (trees : List Tree)
      (settings : ConversionSettings), Outline.Reading.read source = .ok outline →
        ofSource source = .ok trees →
          outline.statements.map (convertedText settings) = expectedTexts settings trees := by
  intro hall
  let source : List Char := "if x:\n    pass\n  \\\n    y = 1\n".toList
  have hstatements : (Outline.Reading.read source).toOption.map
      (fun o => o.statements.map fun s => (convertedText {} s).length) = some [27] := by
    decide +kernel
  have htrees : (ofSource source).toOption.map
      (fun ts => (expectedTexts {} ts).map List.length) = some [28] := by
    decide +kernel
  cases hread : Outline.Reading.read source with
  | error fault => simp [hread, Except.toOption] at hstatements
  | ok outline =>
      cases hsource : ofSource source with
      | error reached => simp [hsource, Except.toOption] at htrees
      | ok trees =>
          rw [hread] at hstatements
          rw [hsource] at htrees
          have hlengths := congrArg (List.map List.length)
            (hall source outline trees {} hread hsource)
          rw [List.map_map] at hlengths
          have : [27] = [28] :=
            (Option.some.inj hstatements).symm.trans (hlengths.trans (Option.some.inj htrees))
          cases this

theorem survives_iff_assignment :
    ∃ outline, Outline.Reading.read ['x', ' ', '=', ' ', '1', '\n'] = .ok outline ∧
      ∃ trees, ofSource ['x', ' ', '=', ' ', '1', '\n'] = .ok trees ∧
        spellAll trees = ['x', ' ', '=', ' ', '1', '\n'] ∧ (∀ t ∈ trees, Formed .item t) ∧
        (∀ compiler settings, emit compiler (convert settings outline) = preamble compiler ++
          String.join (outline.statements.map fun s =>
            String.ofList (convertedText settings s) ++ ending s)) ∧
        ((∀ settings, outline.statements.map (convertedText settings) =
            expectedTexts settings trees) ↔
          (∀ text, .gap .continuation text ∉ trees) ∧
            ∀ p ∈ reachedAmong trees, trimEnd (lastText p) = lastText p ∧ hiddenRanges p = 0) := by
  obtain ⟨outline, hread⟩ :=
    exists_of_isOk (x := Outline.Reading.read ['x', ' ', '=', ' ', '1', '\n'])
    (by decide +kernel)
  exact ⟨outline, hread, survives_iff hread⟩

end Cythonizer.Proofs.Outline.Emission
