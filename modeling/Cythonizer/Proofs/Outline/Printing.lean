import Cythonizer.Outline.Conversion
import Cythonizer.Proofs.Outline.Functions

/-!
Sources that are written as they are printed: every declaration with the layout that is printed, and
every statement at the top with the line end that is printed behind it. Such a source is printed as
it stands (`renderStatements_of_isPrinted`). What is printed for another layout need not read back:
a line end that a backslash hides in the header of a function is printed in a place where it means
something else.
-/

namespace Cythonizer.Proofs.Outline.Printing

open Cythonizer.Outline.Basic
open Cythonizer.Outline.Conversion
open Cythonizer.Outline.OfTree
open Cythonizer.Outline.Reading (read)
open Cythonizer.Outline.Rendering
open Cythonizer.Settings.Basic
open Cythonizer.Source.Keywords
open Cythonizer.Source.Syntax
open Cythonizer.Source.Trees
open Cythonizer.Text.Blank
open Cythonizer.Text.Identifier
open Cythonizer.Proofs.Outline.Correspondence
open Cythonizer.Proofs.Outline.Declarations
open Cythonizer.Proofs.Outline.Defects
open Cythonizer.Proofs.Outline.Emission
open Cythonizer.Proofs.Outline.Fragments
open Cythonizer.Proofs.Outline.Functions
open Cythonizer.Proofs.Outline.Invariance (definitionOf decorationOf)
open Cythonizer.Proofs.Outline.Layout
open Cythonizer.Proofs.Outline.Loops
open Cythonizer.Proofs.Outline.Pieces
open Cythonizer.Proofs.Outline.Segments
open Cythonizer.Proofs.Source.Shapes

/-- The header of a function that is not `async`, up to its colon. -/
def plainOpening : List Tree → Bool
  | .leaf .word ['d', 'e', 'f'] :: .gap .blank [' '] :: .leaf .name _ :: rest => plainSignature rest
  | _ => false

theorem not_async_of_signature {ts : List Tree} (h : plainSignature ts = true) :
    ts.any (isLeaf .word ['a', 's', 'y', 'n', 'c']) = false := by
  have hreturn {rest : List Tree} (h : plainReturn rest = true) :
      rest.any (isLeaf .word ['a', 's', 'y', 'n', 'c']) = false := by
    unfold plainReturn at h
    split at h
    · rfl
    · rfl
    · cases h
  unfold plainSignature at h
  split at h
  · simpa [isLeaf] using hreturn ((Bool.and_eq_true _ _).mp h).2
  · simpa [isLeaf] using hreturn ((Bool.and_eq_true _ _).mp h).2
  · cases h

/-- The parts of a function are read off the trees up to its colon. -/
structure IsHeadedBy (f : Function) (front : List Tree) : Prop where
  name : name? front = some f.name
  isAsync : f.isAsync = front.any (isLeaf .word ['a', 's', 'y', 'n', 'c'])
  typeParameters : f.typeParameters = (find? .typeParameters front).map textOf
  parameters : ∃ parameters, find? .parameters front = some parameters ∧
    f.parameters = parametersOf false parameters
  returns : f.returns = (find? .hint front).map hintOf

theorem headOf_of_plainOpening {f : Function} {front : List Tree} (hf : IsHeadedBy f front)
    (h : plainOpening front = true) : (headOf f).toList = spellAll front := by
  obtain ⟨hname, hasync, htypes, ⟨parameters, hfound, hparameters⟩, hreturns⟩ := hf
  unfold plainOpening at h
  split at h
  · rename_i name rest
    have hnot : f.isAsync = false := hasync.trans (by simpa [isLeaf] using not_async_of_signature h)
    obtain hspelled : String.ofList name = f.name := Option.some.inj hname
    have htext := headerText_of_signature f.name h hfound
    have hrest (kind : Source.Trees.Kind) : find? kind (.leaf .word ['d', 'e', 'f'] ::
        .gap .blank [' '] :: .leaf .name name :: rest) = find? kind rest := rfl
    rw [hrest] at htypes hreturns
    rw [headOf, hnot, htypes, hparameters, hreturns]
    simpa [headerText, spellAll, spell, ← hspelled] using htext
  · cases h

theorem headOf_of_plain {f : Function} {front : List Tree} (hf : IsHeadedBy f front)
    (h : (plainHeader front || plainOpening front) = true) :
    (headOf f).toList = spellAll front := by
  rcases (Bool.or_eq_true _ _).mp h with h | h
  · obtain ⟨hname, hasync, htypes, ⟨parameters, hfound, hparameters⟩, hreturns⟩ := hf
    obtain ⟨hany, htext⟩ := headerText_of_plain h hname hfound
    rw [headOf_async (hasync.trans hany), htypes, hparameters, hreturns, htext]
  · exact headOf_of_plainOpening hf h

/-- What stands before the definition in a declaration. -/
def aboveOf (t : Tree) : List Tree :=
  (decorationOf t).takeWhile fun c => !isNode .function c

/-- A declaration that is written as it is printed. `line` stands before it on its line. -/
def plainDeclaration (line : List Char) (t : Tree) : Bool :=
  let (front, back) := header (definitionOf t)
  plainDecorators (indentOf line) (aboveOf t) && (plainHeader front || plainOpening front) &&
    plainBody back.tail ((find? .block (definitionOf t)).getD [])

theorem spell_declaration {t : Tree} (hsound : Sound t) (h : isDeclaration t = true) :
    decoratorsOf (decorationOf t) = decoratorsOf (aboveOf t) ∧
      spell t = spellAll (aboveOf t) ++ spellAll (definitionOf t) := by
  unfold isDeclaration at h
  split at h
  · exact ⟨rfl, rfl⟩
  · obtain ⟨above, definition, habove, rfl⟩ | ⟨hnone, -⟩ := decoration_cases hsound.decoration
    · have hbefore : aboveOf (.node .decorated (above ++ [.node .function definition])) = above :=
        takeWhile_append (isNode_function_of_isAbove habove) definition []
      rw [hbefore]
      refine ⟨decoratorsOf_append above definition, ?_⟩
      simp [definitionOf, find?_function habove, spell, spellAll, spellAll_append]
    · simp [hnone] at h
  · cases h

/-- A body that is written as it is printed begins after one blank or on lines of its own, and no
white space is taken off its end. -/
theorem renderBody_of_plainBody {between block : List Tree} (hled : IsLed block)
    (h : plainBody between block = true) (outer start : List Char) :
    (renderBody (bodyOf outer start (spellAll between) (spellAll block))).toList =
      spellAll between ++ spellAll block := by
  obtain ⟨kind, statement, rest, rfl⟩ := hled
  have hbefore : List.takeWhile (fun t => !isPart t) (.node kind statement :: rest) = [] := rfl
  unfold plainBody at h
  simp only [hbefore, spellAll, List.append_nil, List.length_nil, List.drop_zero] at h
  obtain ⟨hgap, htrim⟩ := (Bool.and_eq_true _ _).mp h
  have hprinted := renderBody_bodyOf outer start (spellAll between)
    (spellAll (.node kind statement :: rest)) []
  have hkept : trimEnd (spellAll (.node kind statement :: rest)) =
    spellAll (.node kind statement :: rest) := by
    simpa [spellAll] using htrim
  rw [hkept] at hprinted
  refine hprinted.trans (congrArg (· ++ _) ?_)
  by_cases hbreak : '\n' ∈ spellAll between
  · simp [opening, hbreak]
  · have hblank : spellAll between = [' '] := by simpa [hbreak] using hgap
    simp [opening, hblank]

theorem renderFunction_of_plain {part : List Char × Tree} {f : Function} (h : IsReadOff part f)
    (hplain : plainDeclaration part.1 part.2 = true) :
    (renderFunction f).toList = spell part.2 := by
  obtain ⟨above, -, hf⟩ := functionOf_of_isReadOff h
  obtain ⟨front, between, block, hsplits⟩ :=
    splits_of_isDefinition (isDefinition_definitionOf h.sound h.isDeclaration)
  obtain ⟨parameters, hparameters, -⟩ := hsplits.parameters
  obtain ⟨hled, rfl⟩ := functionOf_of_splits hsplits hparameters hf
  obtain ⟨hdecorators, hspell⟩ := spell_declaration h.sound h.isDeclaration
  unfold plainDeclaration at hplain
  simp only [hsplits.header, hsplits.found, List.tail_cons, Option.getD_some,
    Bool.and_eq_true] at hplain
  obtain ⟨⟨habove, hfront⟩, hbody⟩ := hplain
  rw [renderFunction_eq,
    headOf_of_plain ⟨hsplits.name, rfl, rfl, ⟨parameters, hparameters, rfl⟩, rfl⟩ hfront,
    renderBody_of_plainBody hled hbody, hspell, hdecorators]
  have hindent :
    (bodyOf part.1 (lineAfter (lineAfter part.1 above) (spellAll front ++ [':'])) (spellAll between)
      (spellAll block)).outerIndent.toList = indentOf part.1 := String.toList_ofList
  rw [hindent, decoratorText_of_plain habove]
  conv_rhs => rw [hsplits.eq]
  simp [spellAll_append, spellAll, spell]

def renderedText (s : Statement) : List Char :=
  (renderStatement s).toList

theorem flatten_renderedText (fragments : List Fragment) :
    (renderFragments fragments).toList = flatten renderedText fragments := by
  induction fragments with
  | nil => rw [renderFragments]; rfl
  | cons f rest ih =>
      cases f with
      | text t => rw [renderFragments, String.toList_append, ih, flatten]
      | statement s => rw [renderFragments, String.toList_append, ih, flatten, renderedText]

theorem renderedText_other (text : String) : renderedText (.other text) = text.toList := by
  rw [renderedText, renderStatement]

theorem renderedText_function (f : Function) :
    renderedText (.function f) = (renderFunction f).toList := by
  rw [renderedText, renderStatement]

theorem renderedText_ofFragments (fragments : List Fragment) :
    renderedText (ofFragments fragments) = flatten renderedText (trimLast fragments) := by
  unfold ofFragments
  split
  · rename_i h
    rw [h, renderedText_other]
    rfl
  · rename_i h
    rw [h, renderedText_other, flatten, flatten, List.append_nil]
  · rw [renderedText, renderStatement, flatten_renderedText]

theorem spell_loop (children : List Tree) :
    spellAll children = spellAll (children.takeWhile fun t => !isNode .iterable t) ++
      spellAll ((find? .iterable children).getD []) ++
      spellAll (children.drop ((children.takeWhile fun t => !isNode .iterable t).length + 1)) := by
  induction children with
  | nil => rfl
  | cons t rest ih =>
      cases hnode : isNode .iterable t with
      | true =>
          cases t with
          | gap g text => cases hnode
          | leaf l text => cases hnode
          | node kind inner => simp [find?, hnode, childrenOf, spellAll, spell]
      | false =>
          rw [spellAll, ih]
          simp [find?, hnode, spellAll]

theorem renderIterable_iterableOf (expression : List Tree) :
    (renderIterable (iterableOf expression)).toList = spellAll expression := by
  unfold iterableOf
  split
  · split <;> simp [renderIterable, textOf, spellAll, spell]
  · simp [renderIterable, textOf]

theorem renderLoop_loopOf {children : List Tree}
    (h : trimEnd (loopTail children) = loopTail children) :
    (renderLoop (loopOf children)).toList = spellAll children := by
  have hpeels := (peels_iterated {} ((find? .iterable children).getD [])).spell
  rw [renderLoop, loopOf_eq, h, spell_loop children, ← hpeels]
  simp [renderIterable_iterableOf, loopTail, loopSplit]

theorem flatten_of_resolved {segments : List Segment} {fragments : List Fragment}
    (h : List.Forall₂ (fun segment fragment => resolve segment = .ok fragment) segments fragments)
    (hparts : ∀ part ∈ partsIn segments, ∀ s, statementOf part.1 part.2 = .ok s →
      renderedText s = spell part.2) :
    flatten renderedText fragments = segments.flatMap Segment.spell := by
  induction h with
  | nil => rfl
  | @cons segment fragment segments fragments hfirst _ ih =>
      cases segment with
      | text t =>
          obtain rfl := resolve_text hfirst
          rw [flatten, ih hparts]
          simp [Segment.spell]
      | part line t =>
          obtain ⟨s, hs, rfl⟩ := resolve_part hfirst
          obtain ⟨hpart, hrest⟩ := List.forall_mem_cons.mp hparts
          rw [flatten, ih hrest, hpart s hs]
          rfl

theorem spell_of_isCut {t : Tree} (h : isCut t = true) : spell t = spellAll (childrenOf t) := by
  obtain ⟨children, rfl, -⟩ | ⟨kind, children, rfl, -⟩ := cut_cases h
  · rfl
  · rfl

theorem rendered_of_not_cut {line : List Char} {t : Tree} {s : Statement} (ht : IsSoundItem t)
    (hpart : isPart t = true) (hcut : isCut t = false) (hs : statementOf line t = .ok s)
    (hends : trimEnd (lastText t) = lastText t)
    (hplain : isDeclaration t = true → plainDeclaration line t = true) :
      renderedText s = spell t := by
  have hdeclared (hdeclaration : isDeclaration t = true) : renderedText s = spell t := by
    obtain ⟨f, rfl⟩ := eq_function hdeclaration hs
    rw [renderedText_function]
    have hread : IsReadOff (line, t) f := ⟨ht.2, hdeclaration, hs⟩
    exact renderFunction_of_plain hread (hplain hdeclaration)
  unfold isCut at hcut
  split at hcut
  case h_1 children =>
    cases hs
    rw [renderedText, renderStatement, trimmedTextOf, String.toList_ofList]
    exact hends
  case h_2 children =>
    cases hs
    rw [renderedText, renderStatement, trimmedTextOf, String.toList_ofList]
    exact hends
  case h_3 children => exact hdeclared rfl
  case h_4 children => exact hdeclared (by simpa [isDeclaration] using hcut)
  case h_5 children =>
    cases hs
    rw [renderedText, renderStatement]
    exact renderLoop_loopOf hends
  case h_6 => cases hcut
  case h_7 g text =>
    cases hs
    rw [renderedText_other, String.toList_ofList]
    exact hends
  case h_8 l text => cases hpart

/-- A statement is printed as it was written if no white space is taken off the ends of its parts
and every declaration in it is written as it is printed. -/
theorem rendered_of_part {line : List Char} {t : Tree} {s : Statement} (ht : IsSoundItem t)
    (hpart : isPart t = true) (hs : statementOf line t = .ok s)
    (hends : ∀ p ∈ reached t, trimEnd (lastText p) = lastText p)
    (hplain : ∀ part ∈ declared (pieces line t), plainDeclaration part.1 part.2 = true) :
    renderedText s = spell t := by
  by_cases hcut : isCut t = true
  · obtain ⟨fragments, hfragments, rfl⟩ := statementOf_cut hcut hs
    obtain ⟨front, hflat, htrimmed⟩ := flatten_trimLast_gather renderedText fragments
    have hlast : trimEnd (closing fragments) = closing fragments := by
      rw [closing_of_resolved hfragments, closingText_segments line [], ← lastText_of_isCut hcut]
      exact hends t (mem_reached t)
    rw [reached_of_isCut hcut, List.forall_mem_cons, List.forall_mem_flatMap] at hends
    rw [pieces_of_isCut hcut, declared_segments line (cuttable_children ht.1 hcut),
      List.forall_mem_flatMap] at hplain
    have hwhole := flatten_of_resolved hfragments fun part hmem s hs => by
      have hp : part.2 ∈ blockParts (childrenOf t) := mem_blockParts_of_mem_segments hmem
      exact rendered_of_part (isSoundItem_of_mem_blockParts ht hcut hp)
        (isPart_of_mem_blockParts hp) hs
        (hends.2 part.2 hp) (hplain part hmem)
    rw [renderedText_ofFragments, htrimmed, hlast, ← hflat, hwhole, spell_segments,
      spell_of_isCut hcut]
  · rw [Bool.not_eq_true] at hcut
    refine rendered_of_not_cut ht hpart hcut hs (hends t (mem_reached t)) fun hdeclaration => ?_
    rw [pieces_of_isDeclaration hdeclaration] at hplain
    exact hplain (line, t) (by simp [declared])
termination_by sizeOf t
decreasing_by exact sizeOf_lt_of_mem_children hp

/-- What is printed behind a statement at the top. -/
def endingOf (t : Tree) : List Char :=
  if isDeclaration t && !isAsync t then ['\n', '\n'] else ['\n']

theorem isAsync_eq {t : Tree} (h : isDeclaration t = true) :
    isAsync t = (header (definitionOf t)).1.any (isLeaf .word ['a', 's', 'y', 'n', 'c']) := by
  unfold isDeclaration at h
  split at h
  · rfl
  · obtain ⟨definition, hfind⟩ := Option.isSome_iff_exists.mp h
    simp [isAsync, definitionOf, hfind]
  · cases h

theorem isAsync_of_isReadOff {part : List Char × Tree} {f : Function} (h : IsReadOff part f) :
    f.isAsync = isAsync part.2 := by
  obtain ⟨above, -, hf⟩ := functionOf_of_isReadOff h
  obtain ⟨front, between, block, hsplits⟩ :=
    splits_of_isDefinition (isDefinition_definitionOf h.sound h.isDeclaration)
  obtain ⟨parameters, hparameters, -⟩ := hsplits.parameters
  obtain ⟨-, rfl⟩ := functionOf_of_splits hsplits hparameters hf
  rw [isAsync_eq h.isDeclaration, hsplits.header]

theorem ending_of_not_function {s : Statement} (h : ∀ f, s ≠ .function f) :
    (ending s).toList = ['\n'] := by
  cases s with
  | function f => exact absurd rfl (h f)
  | _ => simp [ending]

theorem ending_of_statementOf {line : List Char} {t : Tree} {s : Statement} (ht : IsSoundItem t)
    (hs : statementOf line t = .ok s) : (ending s).toList = endingOf t := by
  cases hdeclaration : isDeclaration t with
  | true =>
      obtain ⟨f, rfl⟩ := eq_function hdeclaration hs
      have hread : IsReadOff (line, t) f := ⟨ht.2, hdeclaration, hs⟩
      have hasync := isAsync_of_isReadOff hread
      cases h : f.isAsync <;> simp [ending, endingOf, hdeclaration, ← hasync, h]
  | false =>
      have hending : endingOf t = ['\n'] := by simp [endingOf, hdeclaration]
      rw [hending]
      refine ending_of_not_function fun f hfunction => ?_
      subst hfunction
      by_cases hcut : isCut t = true
      · obtain ⟨fragments, -, heq⟩ := statementOf_cut hcut hs
        unfold ofFragments at heq
        split at heq <;> cases heq
      · unfold isCut at hcut
        split at hcut
        case h_3 => cases hdeclaration
        case h_4 children => simp_all [isDeclaration]
        case h_6 => exact absurd rfl hcut
        all_goals cases hs

/-- Whether a source is written as it is printed: its statements, each with the line end that is
printed behind it and nothing else among them, plain declarations, and no white space at the end of
a statement. -/
def isPrinted (trees : List Tree) : Bool :=
  spellAll trees == (trees.filter isPart).flatMap (fun t => spell t ++ endingOf t) &&
    (declarations trees).all (fun part => plainDeclaration part.1 part.2) &&
    (reachedAmong trees).all fun p => trimEnd (lastText p) == lastText p

theorem toList_renderStatements (outline : Outline) :
    (renderStatements outline).toList = outline.statements.flatMap fun s =>
      renderedText s ++ (ending s).toList := by
  simp [renderStatements, renderedText, String.toList_join, List.flatMap_map]

theorem flatMap_of_forall₂ {α β γ : Type} {R : α → β → Prop} {as : List α} {bs : List β}
    {f : α → List γ}
    {g : β → List γ} (h : List.Forall₂ R as bs) (hfg : ∀ a ∈ as, ∀ b, R a b → g b = f a) :
    bs.flatMap g = as.flatMap f := by
  induction h with
  | nil => rfl
  | cons hfirst _ ih =>
      obtain ⟨ha, has⟩ := List.forall_mem_cons.mp hfg
      rw [List.flatMap_cons, List.flatMap_cons, ha _ hfirst, ih has]

theorem renderStatements_of_isPrinted {source : List Char} {outline : Outline}
    (h : Outline.Reading.read source = .ok outline) :
    ∃ trees, ofSource source = .ok trees ∧
      (isPrinted trees = true → (renderStatements outline).toList = source) := by
  obtain ⟨trees, htrees, -, houtline⟩ := ofTrees_of_read h
  refine ⟨trees, htrees, fun hprinted => ?_⟩
  unfold isPrinted at hprinted
  simp only [Bool.and_eq_true, beq_iff_eq, List.all_eq_true] at hprinted
  obtain ⟨⟨hlines, hplain⟩, hends⟩ := hprinted
  rw [show declarations trees = declared (piecesOf [] trees) from rfl, declared_items,
    List.forall_mem_flatMap] at hplain
  rw [forall_reachedAmong_iff] at hends
  rw [toList_renderStatements, flatMap_of_forall₂
    (forall₂_statementsOf (statementsOf_of_ofTrees houtline))
    (f := fun part => spell part.2 ++ endingOf part.2), ← spellAll_ofSource htrees, hlines,
    ← partsIn_items [] trees, List.flatMap_map]
  intro part hpart s hs
  have hitem : IsSoundItem part.2 := isSoundItem_of_ofSource htrees (mem_of_mem_items hpart)
  have hispart : isPart part.2 = true := by
    have hmem : part.2 ∈ trees.filter isPart := by
      rw [← partsIn_items [] trees]
      exact List.mem_map_of_mem hpart
    exact (List.mem_filter.mp hmem).2
  rw [rendered_of_part hitem hispart hs (hends part hpart) (hplain part hpart),
    ending_of_statementOf hitem hs]

/-- An import, a decorated function and a loop in the layout that is printed. -/
def printedModule : List Char :=
  ("import os\n@c.d\ndef f(a, /, n: int = 1, *r) -> x:  # e\n    return n\n\n" ++
    "for i in (range(3)):\n    k = i\n").toList

example : (ofSource printedModule).toOption.map isPrinted = some true := by decide +kernel

/-- The statement without the white space before a function at the top, which is not printed. -/
def atTop : Statement → Statement
  | .function f => .function { f with body := { f.body with outerIndent := "" } }
  | s => s

/-- The statements that are printed for an outline read as those of the outline. -/
def ReadsBack (outline : Outline) : Prop :=
  ∃ again, read (renderStatements outline).toList = .ok again ∧
    again.statements.map atTop = outline.statements.map atTop

/-- A line end hidden between two parameters is taken for a parameter, and commas are printed around
it. -/
theorem hidden_line_end_not_readsBack :
    ¬∀ (source : List Char) (outline : Outline), read source = .ok outline → ReadsBack outline := by
  intro hall
  let source : List Char := "def f(a, \\\n      b): pass\n".toList
  have hagain : (read source).toOption.map
      (fun o => (read (renderStatements o).toList).isOk) = some false := by
    decide +kernel
  cases hread : read source with
  | error fault => simp [hread, Except.toOption] at hagain
  | ok outline =>
      obtain ⟨again, hok, -⟩ := hall source outline hread
      simp [hread, hok, Except.toOption, Except.isOk, Except.toBool] at hagain

/-- Whether a text is a name that is no keyword anywhere. -/
def isFreeName : List Char → Bool
  | [] => false
  | c :: rest => isBeginning c && rest.all isInner && (ofSpelling? (c :: rest)).isNone

/-- Whether every parameter of a function that takes up its type has a free name then. -/
def hasFreeNames (f : Function) : Bool :=
  (f.parameters.filter isTyped).all fun p =>
    match foldHint p with
    | .positional name _ _ => isFreeName name.toList
    | _ => false

/-- What a function that was converted is to read back as: one without decorators and type hint,
whose body is that of the function with the directive on a line in front. -/
structure Opens (settings : ConversionSettings) (f again : Function) : Prop where
  decorators : again.decorators = []
  returns : again.returns = none
  body : ∃ margin : List Char, (∀ c ∈ margin, c = ' ' ∨ c = '\t') ∧
    again.body.text.toList =
      (directive (modeOf settings f) (typeOf f)).toList ++ '\n' :: margin ++ f.body.text.toList

/-- The statements that are printed for a converted outline read as statements of the same number
with the same functions, and each function that was converted opens with its directive. -/
def KeepsBodies (settings : ConversionSettings) (outline : Outline) : Prop :=
  ∃ again, read (renderStatements (convert settings outline)).toList = .ok again ∧
    again.statements.length = outline.statements.length ∧
    List.Forall₂ (fun f f' => f'.name = f.name ∧ f'.isAsync = f.isAsync ∧
      (f.isAsync = false → Opens settings f f')) outline.functions again.functions

/-- A body joined to its header: the directive goes to the line of the header, and the body leaves
the function. -/
theorem joined_body_not_kept :
    ¬∀ (source : List Char) (settings : ConversionSettings) (outline : Outline),
      read source = .ok outline → (∀ f ∈ outline.functions, f.isAsync = false → hasFreeNames f) →
        KeepsBodies settings outline := by
  intro hall
  let source : List Char := "def f(): \\\n  return x\n".toList
  have hfree : (read source).toOption.map (fun o => o.functions.all hasFreeNames) = some true := by
    decide +kernel
  have hlengths : (read source).toOption.map (fun o => (o.statements.length,
      (read (renderStatements (convert {} o)).toList).toOption.map (·.statements.length))) =
      some (1, some 2) := by
    decide +kernel
  cases hread : read source with
  | error fault => simp [hread, Except.toOption] at hlengths
  | ok outline =>
      have hnames : ∀ f ∈ outline.functions, f.isAsync = false → hasFreeNames f := by
        intro f hf _
        rw [hread] at hfree
        exact List.all_eq_true.mp (Option.some.inj hfree) f hf
      obtain ⟨again, hok, hlength, -⟩ := hall source {} outline hread hnames
      simp [hread, hok, Except.toOption] at hlengths
      omega

end Cythonizer.Proofs.Outline.Printing
