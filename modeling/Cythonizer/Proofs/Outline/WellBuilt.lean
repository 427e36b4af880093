import Cythonizer.Proofs.Outline.Declarations
import Cythonizer.Proofs.Outline.Interleaving
import Cythonizer.Proofs.Outline.Traversal
import Cythonizer.Proofs.Source.Headings

/-!
The form of an outline at every depth: text and statements take turns in a compound statement, and
the body of a function is text behind white space that lines up with its indent. What is read has
this form, and conversion keeps it (`built_throughout`).
-/

namespace Cythonizer.Proofs.Outline.WellBuilt

open Cythonizer.Outline.Basic
open Cythonizer.Outline.Conversion
open Cythonizer.Outline.OfTree
open Cythonizer.Settings.Basic
open Cythonizer.Source.Syntax
open Cythonizer.Source.Trees
open Cythonizer.Text.Blank
open Cythonizer.Proofs.Outline.Correspondence
open Cythonizer.Proofs.Outline.Declarations
open Cythonizer.Proofs.Outline.Defects
open Cythonizer.Proofs.Outline.Fragments
open Cythonizer.Proofs.Outline.Interleaving
open Cythonizer.Proofs.Outline.Layout (exists_of_forall₂)
open Cythonizer.Proofs.Outline.Invariance
open Cythonizer.Proofs.Outline.Pieces
open Cythonizer.Proofs.Outline.Segments
open Cythonizer.Proofs.Outline.Traversal
open Cythonizer.Proofs.Source.Headings
open Cythonizer.Proofs.Source.Lexemes
open Cythonizer.Proofs.Source.Shapes
open Cythonizer.Proofs.Source.Statements
open Cythonizer.Proofs.Source.Visibility

/-- Where the text of a body stands: behind its header, or on lines of its own. There the margin is
what stands in front of it on its first line. -/
inductive IsPlaced (body : Body) : Prop
  | inline (hinline : body.inline = true) (hleading : body.leading = "")
    (hindent : body.indent = "")
  | onLines {before margin : List Char} (hinline : body.inline = false)
      (hleading : body.leading.toList = before ++ '\n' :: margin) (hline : '\n' ∉ margin)
      (hwidth : margin.length = body.indent.toList.length)
      (hplain : (∀ c ∈ margin, c = ' ' ∨ c = '\t') → margin = body.indent.toList)

/-- The form of the body of a function, whatever was put in front of its text. -/
structure IsLaidOut (body : Body) : Prop where
  text_ne : body.text ≠ ""
  trimmed : ∀ c ∈ body.text.toList.getLast?, isBlank c = false
  placed : IsPlaced body

/-- The form of a body that was read. -/
structure IsFresh (body : Body) : Prop extends IsLaidOut body where
  injected : body.injected = []

/-- A statement in which text and statements take turns at every depth and every body has the form
`P`. -/
inductive IsWellBuilt (P : Body → Prop) : Statement → Prop
  | importNames (text : String) : IsWellBuilt P (.importNames text)
  | importFrom (text : String) : IsWellBuilt P (.importFrom text)
  | function {f : Function} (h : P f.body) : IsWellBuilt P (.function f)
  | loop (l : Loop) : IsWellBuilt P (.loop l)
  | compound {fragments : List Fragment} (h : IsInterleaved fragments)
      (hinner : ∀ s, .statement s ∈ fragments → IsWellBuilt P s) :
        IsWellBuilt P (.compound fragments)
  | other (text : String) : IsWellBuilt P (.other text)

def Built (P : Body → Prop) (outline : Outline) : Prop :=
  ∀ s ∈ outline.statements, IsWellBuilt P s

section

variable {P Q : Body → Prop}

theorem IsWellBuilt.imp (h : ∀ body, P body → Q body) {s : Statement} (hs : IsWellBuilt P s) :
    IsWellBuilt Q s := by
  induction hs with
  | importNames text => exact .importNames text
  | importFrom text => exact .importFrom text
  | function hf => exact .function (h _ hf)
  | loop l => exact .loop l
  | compound hfragments _ ih => exact .compound hfragments ih
  | other text => exact .other text

end

section

variable {onFunction : Function → Function} {onLoop : Loop → Loop} {fragments : List Fragment}

variable (onFunction onLoop) in
def changeFragment : Fragment → Fragment
  | .text text => .text text
  | .statement s => .statement (changeStatement onFunction onLoop s)

theorem changeFragments_eq (fragments : List Fragment) :
    changeFragments onFunction onLoop fragments =
      fragments.map (changeFragment onFunction onLoop) := by
  induction fragments with
  | nil => rfl
  | cons f rest ih => cases f <;> simp [changeFragments, changeFragment, ih]

@[simp] theorem isText_changeFragment (f : Fragment) :
    isText (changeFragment onFunction onLoop f) = isText f := by
  cases f <;> rfl

theorem text_mem_changeFragments {text : String}
    (h : .text text ∈ changeFragments onFunction onLoop fragments) :
    .text text ∈ fragments := by
  rw [changeFragments_eq] at h
  obtain ⟨_ | s, hf, heq⟩ := List.mem_map.mp h
  · cases heq
    exact hf
  · cases heq

theorem statement_mem_changeFragments {s : Statement}
    (h : .statement s ∈ changeFragments onFunction onLoop fragments) :
    ∃ s', .statement s' ∈ fragments ∧ s = changeStatement onFunction onLoop s' := by
  rw [changeFragments_eq] at h
  obtain ⟨_ | s', hf, heq⟩ := List.mem_map.mp h
  · cases heq
  · cases heq
    exact ⟨s', hf, rfl⟩

theorem IsInterleaved.change (h : IsInterleaved fragments) :
    IsInterleaved (changeFragments onFunction onLoop fragments) where
  filled hmem := h.filled (text_mem_changeFragments hmem)
  apart := by
    rw [changeFragments_eq, List.isChain_map]
    simpa using h.apart
  starts := by
    obtain ⟨text, rest, rfl⟩ := h.starts
    exact ⟨text, _, rfl⟩
  statement := by
    obtain ⟨s, hs⟩ := h.statement
    rw [changeFragments_eq]
    exact ⟨_, List.mem_map_of_mem hs⟩

theorem IsWellBuilt.change {P : Body → Prop} (hP : ∀ f, P f.body → P (onFunction f).body)
    {s : Statement}
    (h : IsWellBuilt P s) : IsWellBuilt P (changeStatement onFunction onLoop s) := by
  induction h with
  | importNames text => exact .importNames text
  | importFrom text => exact .importFrom text
  | function hf => exact .function (hP _ hf)
  | loop l => exact .loop (onLoop l)
  | compound hfragments _ ih =>
      refine .compound (IsInterleaved.change hfragments) fun s hs => ?_
      obtain ⟨s, hmem, rfl⟩ := statement_mem_changeFragments hs
      exact ih s hmem
  | other text => exact .other text

end

theorem IsLaidOut.insertFirst {body : Body} (h : IsLaidOut body) (statement : String) :
    IsLaidOut (body.insertFirst statement) where
  text_ne := h.text_ne
  trimmed := h.trimmed
  placed := by
    obtain ⟨hinline, hleading, hindent⟩ | ⟨hinline, hleading, hline, hwidth, hplain⟩ := h.placed
    · exact .inline hinline hleading hindent
    · exact .onLines hinline hleading hline hwidth hplain

theorem built_convert (settings : ConversionSettings) {outline : Outline}
    (h : Built IsLaidOut outline) :
    Built IsLaidOut (convert settings outline) := by
  rw [convert_eq]
  intro s hs
  obtain ⟨s, hmem, rfl⟩ := List.mem_map.mp hs
  refine (h s hmem).change fun f hf => ?_
  unfold converted
  split
  · exact hf
  · exact hf.insertFirst _

theorem exists_lastLine {gap : List Char} (h : '\n' ∈ gap) (line : List Char) :
    ∃ before, gap = before ++ '\n' :: lineAfter line gap ∧ '\n' ∉ lineAfter line gap := by
  have hline : lineAfter line gap = (gap.reverse.takeWhile (· != '\n')).reverse :=
    by simp [lineAfter, h]
  have hnone : '\n' ∉ lineAfter line gap := by
    rw [hline, List.mem_reverse]
    intro hmem
    simpa using List.mem_takeWhile_imp hmem
  cases hrest : gap.reverse.dropWhile (· != '\n') with
  | nil =>
      have hall := List.dropWhile_eq_nil_iff.mp hrest '\n' (by simpa using h)
      simp at hall
  | cons c rest =>
      obtain rfl : c = '\n' := by
        have hhead := List.head_dropWhile_not (· != '\n') (l := gap.reverse) (by simp [hrest])
        simpa [hrest] using hhead
      refine ⟨rest.reverse, ?_, hnone⟩
      calc
        gap = (gap.reverse.takeWhile (· != '\n') ++ '\n' :: rest).reverse := by
          rw [← hrest, List.takeWhile_append_dropWhile, List.reverse_reverse]
        _ = rest.reverse ++ '\n' :: lineAfter line gap := by simp [hline]

theorem length_indentOf (line : List Char) : (indentOf line).length = line.length := by
  unfold indentOf
  split <;> simp

theorem indentOf_of_plain {line : List Char} (h : ∀ c ∈ line, c = ' ' ∨ c = '\t') :
    indentOf line = line := by
  rw [indentOf, if_pos (by simpa [List.all_eq_true] using h)]

theorem isBlank_getLast?_trimEnd (text : List Char) :
    ∀ c ∈ (trimEnd text).getLast?, isBlank c = false := by
  intro c hc
  rw [trimEnd, List.getLast?_reverse] at hc
  have hhead := List.head?_dropWhile_not isBlank text.reverse
  rw [show (text.reverse.dropWhile isBlank).head? = some c from hc] at hhead
  simpa using hhead

theorem isPlaced_bodyOf (outer start gap text : List Char) :
    IsPlaced (bodyOf outer start gap text) := by
  by_cases hbreak : '\n' ∈ gap
  · obtain ⟨before, hgap, hline⟩ := exists_lastLine hbreak start
    have hleading : (bodyOf outer start gap text).leading.toList = before ++ '\n' ::
      lineAfter start gap := by
      simpa [bodyOf, hbreak] using hgap
    refine .onLines (by simp [bodyOf, hbreak]) hleading hline ?_ fun hplain => ?_
    · simp [bodyOf, hbreak, length_indentOf]
    · simp [bodyOf, hbreak, indentOf_of_plain hplain]
  · exact .inline (by simp [bodyOf, hbreak]) (by simp [bodyOf, hbreak]) (by simp [bodyOf, hbreak])

theorem isFresh_bodyOf (outer start gap : List Char) {text : List Char} (h : IsVisible text) :
    IsFresh (bodyOf outer start gap text) where
  text_ne := by simpa [bodyOf] using trimEnd_ne_nil h
  trimmed := by simpa [bodyOf] using isBlank_getLast?_trimEnd text
  placed := isPlaced_bodyOf outer start gap text
  injected := rfl

theorem inherits_isShown : Inherits IsShown := by
  intro t h
  cases t with
  | gap g text => simp [childrenOf]
  | leaf l text => simp [childrenOf]
  | node kind children => exact h.children

/-- What holds of a part of a block in the source. -/
structure IsShownItem (t : Tree) : Prop where
  sound : IsSoundItem t
  shown : IsShown t

theorem isStatement_of_isItem {kind : Kind} {children : List Tree}
    (h : IsItem (.node kind children)) :
    isStatement kind = true := by
  rcases h with h | h
  · cases h with
    | separator h => cases h
    | simple h _ => cases h <;> rfl
    | compound h _ => cases h <;> rfl
    | decorated _ => rfl
  · cases h with
    | matchCase _ => rfl

theorem isItem_of_block {block : List Tree} (h : Formed .component (.node .block block)) :
    ∀ c ∈ block, IsItem c := by
  cases h with
  | phrase h =>
      obtain _ | _ | ⟨hkind, -⟩ := h
      cases hkind
  | block h => exact fun c hc => .inl (h c hc)
  | cases h => exact fun c hc => .inr (h c hc)

theorem exists_definition {t : Tree} (h : isDeclaration t = true) :
    t = .node .function (definitionOf t) ∨
      ∃ children, t = .node .decorated children ∧ .node .function (definitionOf t) ∈ children := by
  unfold isDeclaration at h
  split at h
  · exact .inl rfl
  · rename_i children
    obtain ⟨definition, hfind⟩ := Option.isSome_iff_exists.mp h
    exact .inr ⟨children, rfl, by simpa [definitionOf, hfind] using Tokens.mem_of_find? hfind⟩
  · cases h

theorem formed_definitionOf {t : Tree} (h : IsItem t) (hdeclaration : isDeclaration t = true) :
    ∀ c ∈ definitionOf t, Formed .component c := by
  obtain heq | ⟨children, rfl, hmem⟩ := exists_definition hdeclaration
  · rw [heq] at h
    obtain h | h := h
    · cases h with
      | separator h => cases h
      | simple h _ => cases h
      | compound _ hchildren => exact hchildren
    · cases h
  · obtain h | h := h
    · cases h with
      | separator h => cases h
      | simple h _ => cases h
      | compound h _ => cases h
      | decorated hchildren =>
          cases hchildren _ hmem with
          | definition _ hdefinition => exact hdefinition
    · cases h

theorem shown_definitionOf {t : Tree} (h : IsShown t) (hdeclaration : isDeclaration t = true) :
    ∀ c ∈ definitionOf t, IsShown c := by
  obtain heq | ⟨children, rfl, hmem⟩ := exists_definition hdeclaration
  · rw [heq] at h
    exact h.children
  · exact (h.children _ hmem).children

theorem shows_block {t : Tree} (ht : IsShownItem t) (hdeclaration : isDeclaration t = true)
    {block : List Tree}
    (hblock : .node .block block ∈ definitionOf t) (hled : IsLed block) : Shows block := by
  obtain ⟨kind, children, rest, rfl⟩ := hled
  have hitem : IsItem (.node kind children) :=
    isItem_of_block (formed_definitionOf ht.sound.1 hdeclaration _ hblock) _ List.mem_cons_self
  have hfirst : IsShown (.node kind children) :=
    (shown_definitionOf ht.shown hdeclaration _ hblock).children _ List.mem_cons_self
  exact (shows_node (hfirst.shows (isStatement_of_isItem hitem))).append rest

theorem isFresh_of_isReadOff {part : List Char × Tree} {f : Function} (ht : IsShownItem part.2)
    (h : IsReadOff part f) : IsFresh f.body := by
  obtain ⟨above, -, hf⟩ := functionOf_of_isReadOff h
  obtain ⟨front, between, block, hsplits⟩ :=
    splits_of_isDefinition (isDefinition_definitionOf h.sound h.isDeclaration)
  obtain ⟨parameters, hparameters, -⟩ := hsplits.parameters
  obtain ⟨hled, rfl⟩ := functionOf_of_splits hsplits hparameters hf
  have hblock : .node .block block ∈ definitionOf part.2 := by
    rw [hsplits.eq]
    simp
  exact isFresh_bodyOf _ _ _ (shows_block ht h.isDeclaration hblock hled)

section

variable {line : List Char} {t : Tree} {s : Statement}

theorem front_of_isCut (ht : IsShownItem t) (hcut : isCut t = true)
    (hparts : blockParts (childrenOf t) ≠ []) :
    frontIn (segments line (childrenOf t)) ≠ [] := by
  obtain ⟨⟨hitem, hsound⟩, hshown⟩ := ht
  obtain ⟨children, rfl, hnone⟩ | ⟨kind, children, rfl, hkind⟩ := cut_cases hcut
  · obtain @⟨above, inner, kind, habove, hkind⟩ := hsound.decoration
    cases hkind with
    | function => exact absurd List.mem_concat_self (not_mem_function hcut)
    | compound =>
        have hclass : IsShown (.node .compound inner) := hshown.children _ List.mem_concat_self
        exact front_of_decoration habove (by decide) (hclass.headed rfl) line
  · have hheaded : isBranch kind = true := by
      obtain h | h := hitem
      · cases h with
        | separator h => cases h
        | simple _ hchildren =>
            exact absurd (blockParts_eq_nil fun c hc =>
              blockParts_of_isPhrase (hchildren c hc)) hparts
        | compound h _ => cases h <;> simp_all [isBranch]
        | decorated _ => simp at hkind
      · cases h with
        | matchCase _ => rfl
    exact front_of_isHeaded (hshown.headed hheaded) line

theorem wellBuilt_of_not_cut (ht : IsShownItem t) (hcut : isCut t = false)
    (hs : statementOf line t = .ok s) :
    IsWellBuilt IsFresh s := by
  cases hdeclaration : isDeclaration t with
  | true =>
      obtain ⟨f, rfl⟩ := eq_function hdeclaration hs
      have hreadOff : IsReadOff (line, t) f := ⟨ht.sound.2, hdeclaration, hs⟩
      exact .function (isFresh_of_isReadOff ht hreadOff)
  | false =>
      unfold isCut at hcut
      split at hcut
      · rw [statementOf] at hs
        cases hs
        exact .importNames _
      · rw [statementOf] at hs
        cases hs
        exact .importFrom _
      · cases hdeclaration
      · simp [isDeclaration] at hdeclaration
        simp [hdeclaration] at hcut
      · rw [statementOf] at hs
        cases hs
        exact .loop _
      · cases hcut
      · rw [statementOf] at hs
        cases hs
        exact .other _
      · rw [statementOf] at hs
        cases hs
        exact .other _

theorem IsShownItem.of_mem_blockParts (ht : IsShownItem t) (hcut : isCut t = true) {p : Tree}
    (hp : p ∈ blockParts (childrenOf t)) : IsShownItem p where
  sound := isSoundItem_of_mem_blockParts ht.sound hcut hp
  shown := inherits_isShown.of_mem_blockParts (inherits_isShown t ht.shown) hp

end

theorem wellBuilt_of_statementOf {line : List Char} {t : Tree} {s : Statement} (ht : IsShownItem t)
    (hs : statementOf line t = .ok s) : IsWellBuilt IsFresh s := by
  by_cases hcut : isCut t = true
  · obtain ⟨fragments, hfragments, rfl⟩ := statementOf_cut hcut hs
    have hparts {s : Statement} (hs : s ∈ statementsIn fragments) :
        ∃ part ∈ partsIn (segments line (childrenOf t)), statementOf part.1 part.2 = .ok s :=
      exists_of_forall₂ (R := fun s (part : List Char × Tree) => statementOf part.1 part.2 = .ok s)
        (.flip (statementsIn_of_resolved hfragments)) hs
    by_cases hnone : statementsIn fragments = []
    · rw [gather_eq_consText hnone, ofFragments_consText]
      exact .other _
    · rw [ofFragments_of_statements (by simpa using hnone)]
      refine .compound (interleaved_of_frontOf ?_ hnone) fun s hs => ?_
      · obtain ⟨s, hs⟩ := List.exists_mem_of_ne_nil _ hnone
        obtain ⟨part, hpart, -⟩ := hparts hs
        rw [frontOf_of_resolved hfragments]
        exact front_of_isCut ht hcut (List.ne_nil_of_mem (mem_blockParts_of_mem_segments hpart))
      · rw [← mem_statementsIn, statementsIn_trimLast, statementsIn_gather] at hs
        obtain ⟨part, hpart, hstatement⟩ := hparts hs
        have hp := mem_blockParts_of_mem_segments hpart
        exact wellBuilt_of_statementOf (ht.of_mem_blockParts hcut hp) hstatement
  · exact wellBuilt_of_not_cut ht (by simpa using hcut) hs
termination_by sizeOf t
decreasing_by exact sizeOf_lt_of_mem_children hp

theorem built_of_read {source : List Char} {outline : Outline}
    (h : Outline.Reading.read source = .ok outline) :
    Built IsFresh outline := by
  obtain ⟨trees, htrees, -, houtline⟩ := ofTrees_of_read h
  intro s hs
  obtain ⟨part, hpart, hstatement⟩ :=
    exists_of_forall₂ (R := fun s (part : List Char × Tree) => statementOf part.1 part.2 = .ok s)
      (.flip (forall₂_statementsOf (statementsOf_of_ofTrees houtline))) hs
  have htree := mem_of_mem_items hpart
  exact wellBuilt_of_statementOf
    ⟨isSoundItem_of_ofSource htrees htree, shown_of_ofSource htrees _ htree⟩ hstatement

/-- What is read has the form at every depth, with nothing put in front of its bodies, and whatever
has the form keeps it when it is converted. -/
theorem built_throughout {source : List Char} {outline : Outline}
    (h : Outline.Reading.read source = .ok outline) (settings : ConversionSettings) :
    Built IsFresh outline ∧
      ∀ other, Built IsLaidOut other → Built IsLaidOut (convert settings other) :=
  ⟨built_of_read h, fun _ => built_convert settings⟩

/-- Functions in two blocks of one statement, one behind its header and one below a comment. -/
def branches : List Char :=
  "if a:\n\n    def f(): return 1\nelse:\n    @b\n    def g():  # c\n        # d\n\n        pass\n".toList

theorem built_throughout_branches :
    ∃ outline, Outline.Reading.read branches = .ok outline ∧
      outline.functions.map (·.name) = ["f", "g"] ∧
      Built IsFresh outline ∧ Built IsLaidOut (convert {} outline) := by
  obtain ⟨outline, hread⟩ := exists_of_isOk (x := Outline.Reading.read branches) (by decide +kernel)
  have hnames : (Outline.Reading.read branches).toOption.map (·.functions.map (·.name)) = some
    ["f", "g"] := by
    decide +kernel
  rw [hread] at hnames
  obtain ⟨hfresh, hkept⟩ := built_throughout hread {}
  exact ⟨outline, hread, Option.some.inj hnames, hfresh,
    hkept outline fun s hs => (hfresh s hs).imp fun _ => IsFresh.toIsLaidOut⟩

end Cythonizer.Proofs.Outline.WellBuilt
