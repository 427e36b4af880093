import Cythonizer.Proofs.Outline.Defects
import Cythonizer.Proofs.Outline.Emission

/-!
The layout of the header of a function is not kept, it is printed anew. An `async` function is
emitted as it was written if it is written as it is printed (`plain_async_kept`).
-/

namespace Cythonizer.Proofs.Outline.Layout

open Cythonizer.Outline.Basic
open Cythonizer.Outline.Conversion
open Cythonizer.Outline.OfTree
open Cythonizer.Outline.Rendering
open Cythonizer.Settings.Basic
open Cythonizer.Source.Syntax
open Cythonizer.Source.Trees
open Cythonizer.Text.Blank
open Cythonizer.Proofs.Outline.Correspondence
open Cythonizer.Proofs.Outline.Defects
open Cythonizer.Proofs.Outline.Emission
open Cythonizer.Proofs.Outline.Fragments
open Cythonizer.Proofs.Outline.Loops
open Cythonizer.Proofs.Outline.Pieces
open Cythonizer.Proofs.Outline.Segments
open Cythonizer.Proofs.Source.Phrasing
open Cythonizer.Proofs.Source.Shapes
open Cythonizer.Proofs.Source.Statements

/-- A name, one blank after its colon, and blanks around the sign of a default only after a type. -/
def plainNamed : List Tree → Bool
  | [.leaf .name _] => true
  | [.leaf .name _, .leaf .sign ['='], .node .default _] => true
  | [.leaf .name _, .leaf .sign [':'], .gap .blank [' '], .node .hint _] => true
  | [.leaf .name _, .leaf .sign [':'], .gap .blank [' '], .node .hint _, .gap .blank [' '],
      .leaf .sign ['='], .gap .blank [' '], .node .default _] => true
  | _ => false

/-- A parameter that is written as it is printed. From the first star on any layout is kept. -/
def plainParameter (keywordOnly : Bool) : Tree → Bool
  | .node .slash children => spellAll children == ['/']
  | .node .named children => keywordOnly || plainNamed children
  | .node _ _ => true
  | _ => false

/-- Parameters up to the closing bracket, with one blank after each comma and none after the last
parameter. -/
def plainList : Bool → List Tree → Bool
  | keywordOnly, [p, .leaf .sign [')']] => plainParameter keywordOnly p
  | keywordOnly, p :: .leaf .sign [','] :: .gap .blank [' '] :: rest =>
    plainParameter keywordOnly p && plainList (keywordOnly || isNode .star p) rest
  | _, _ => false

def plainParameters : List Tree → Bool
  | [.leaf .sign ['('], .leaf .sign [')']] => true
  | .leaf .sign ['('] :: rest => plainList false rest
  | _ => false

theorem hintOf_text (children : List Tree) : (hintOf children).text = textOf children := by
  unfold hintOf
  split <;> simp [Hint.text, textOf, spellAll, spell]

theorem renderNamed_of_plain {children : List Tree} (h : plainNamed children = true) :
    (renderParameter (.positional (nameOf children) ((find? .hint children).map hintOf)
      ((find? .default children).map textOf))).toList = spellAll children := by
  unfold plainNamed at h
  split at h
  · simp [find?, isNode, nameOf, name?, renderParameter, spellAll, spell]
  · simp [find?, isNode, nameOf, name?, renderParameter, spellAll, spell, childrenOf, textOf]
  · simp [find?, isNode, nameOf, name?, renderParameter, spellAll, spell, childrenOf,
      hintOf_text, textOf]
  · simp [find?, isNode, nameOf, name?, renderParameter, spellAll, spell, childrenOf,
      hintOf_text, textOf]
  · cases h

theorem isNode_eq_false_of_ne {kind kind' : Kind} (h : kind' ≠ kind) (children : List Tree) :
    isNode kind (.node kind' children) = false := by
  simpa [isNode] using h

theorem parametersOf_of_plain {keywordOnly : Bool} {p : Tree}
    (h : plainParameter keywordOnly p = true)
    (rest : List Tree) :
    ∃ parameter, parametersOf keywordOnly (p :: rest) =
        parameter :: parametersOf (keywordOnly || isNode .star p) rest ∧
      (renderParameter parameter).toList = spell p := by
  unfold plainParameter at h
  split at h
  · rename_i children
    have hslash : spellAll children = ['/'] := by simpa using h
    rw [isNode_eq_false_of_ne (by decide), Bool.or_false]
    exact ⟨.positionalOnlyMarker, by simp [parametersOf], by simp [renderParameter, spell, hslash]⟩
  · rename_i children
    rw [isNode_eq_false_of_ne (by decide), Bool.or_false]
    cases keywordOnly with
    | true =>
        exact ⟨.verbatim (textOf children), by simp [parametersOf],
          by simp [renderParameter, textOf, spell]⟩
    | false =>
        have hplain : plainNamed children = true := by simpa using h
        exact ⟨_, by simp [parametersOf]; rfl, by rw [renderNamed_of_plain hplain, spell]⟩
  · rename_i kind children hslash hnamed
    refine ⟨.verbatim (textOf children), ?_, by simp [renderParameter, textOf, spell]⟩
    by_cases hstar : kind = .star
    · subst hstar
      simp [parametersOf, isNode]
    · rw [isNode_eq_false_of_ne hstar, Bool.or_false, parametersOf] <;> assumption
  · cases h

theorem renderParameters_cons_cons (p q : Parameter) (rest : List Parameter) :
    renderParameters (p :: q :: rest) = renderParameter p ++ ", " ++
      renderParameters (q :: rest) := by
  simp [renderParameters]

theorem renderParameters_of_plainList {keywordOnly : Bool} {ts : List Tree}
    (h : plainList keywordOnly ts = true) :
    parametersOf keywordOnly ts ≠ [] ∧
      (renderParameters (parametersOf keywordOnly ts)).toList ++ [')'] = spellAll ts := by
  fun_induction plainList keywordOnly ts with
  | case1 keywordOnly p =>
      obtain ⟨parameter, hparameters, htext⟩ := parametersOf_of_plain h [.leaf .sign [')']]
      rw [hparameters]
      simp [parametersOf, renderParameters, spellAll, spell, htext]
  | case2 keywordOnly p rest ih =>
      obtain ⟨hp, hrest⟩ := (Bool.and_eq_true _ _).mp h
      obtain ⟨hne, hlist⟩ := ih hrest
      obtain ⟨parameter, hparameters, htext⟩ :=
        parametersOf_of_plain hp (.leaf .sign [','] :: .gap .blank [' '] :: rest)
      obtain ⟨q, more, hmore⟩ := List.exists_cons_of_ne_nil hne
      rw [hparameters]
      simp only [parametersOf, hmore, renderParameters_cons_cons] at hlist ⊢
      simp [spellAll, spell, ← hlist, htext]
  | case3 => cases h

theorem renderParameters_of_plain {ts : List Tree} (h : plainParameters ts = true) :
    '(' :: (renderParameters (parametersOf false ts)).toList ++ [')'] = spellAll ts := by
  unfold plainParameters at h
  split at h
  · rfl
  · simpa [spellAll, spell, parametersOf] using (renderParameters_of_plainList h).2
  · cases h

/-- Nothing, or a type behind an arrow between blanks. -/
def plainReturn : List Tree → Bool
  | [] => true
  | [.gap .blank [' '], .leaf .sign ['-', '>'], .gap .blank [' '], .node .hint _] => true
  | _ => false

/-- What follows the name of a function up to its colon. -/
def plainSignature : List Tree → Bool
  | .node .parameters parameters :: rest => plainParameters parameters && plainReturn rest
  | .node .typeParameters _ :: .node .parameters parameters :: rest =>
    plainParameters parameters && plainReturn rest
  | _ => false

/-- The header of an `async` function up to its colon. -/
def plainHeader : List Tree → Bool
  | .leaf .word ['a', 's', 'y', 'n', 'c'] :: .gap .blank [' '] :: .leaf .word ['d', 'e', 'f'] ::
      .gap .blank [' '] :: .leaf .name _ :: rest => plainSignature rest
  | _ => false

def returnText : Option Hint → String
  | some hint => " -> " ++ hint.text
  | none => ""

/-- What is printed of the parts of a header. -/
def headerText (name : String) (types : Option String) (parameters : List Parameter)
    (returns : Option Hint) : String :=
  "async def " ++ name ++ types.getD "" ++ "(" ++ renderParameters parameters ++ ")" ++
    returnText returns

theorem find?_cons {kind : Kind} {t : Tree} (h : isNode kind t = false) (rest : List Tree) :
    find? kind (t :: rest) = find? kind rest := by
  simp [find?, h]

theorem returnText_of_plain {ts : List Tree} (h : plainReturn ts = true) :
    find? .typeParameters ts = none ∧
      (returnText ((find? .hint ts).map hintOf)).toList = spellAll ts := by
  unfold plainReturn at h
  split at h
  · exact ⟨rfl, rfl⟩
  · exact ⟨rfl,
      by simp [find?, isNode, childrenOf, returnText, hintOf_text, textOf, spellAll, spell]⟩
  · cases h

theorem headerText_of_signature {ts parameters : List Tree} (name : String)
    (h : plainSignature ts = true)
    (hparameters : find? .parameters ts = some parameters) :
    (headerText name ((find? .typeParameters ts).map textOf) (parametersOf false parameters)
      ((find? .hint ts).map hintOf)).toList = "async def ".toList ++ name.toList ++
        spellAll ts := by
  unfold plainSignature at h
  split at h
  · rename_i children rest
    obtain ⟨hplain, hreturn⟩ := (Bool.and_eq_true _ _).mp h
    obtain ⟨htypes, htext⟩ := returnText_of_plain hreturn
    obtain rfl : children = parameters := Option.some.inj hparameters
    rw [find?_cons rfl, find?_cons rfl, htypes, spellAll, spell, ← htext,
      ← renderParameters_of_plain hplain]
    simp [headerText]
  · rename_i types children rest
    obtain ⟨hplain, hreturn⟩ := (Bool.and_eq_true _ _).mp h
    obtain ⟨-, htext⟩ := returnText_of_plain hreturn
    obtain rfl : children = parameters := Option.some.inj hparameters
    have htypes :
      find? .typeParameters (.node .typeParameters types :: .node .parameters children :: rest) =
        some types := rfl
    have hhint : find? .hint (.node .typeParameters types :: .node .parameters children :: rest) =
        find? .hint rest := by
      rw [find?_cons rfl, find?_cons rfl]
    rw [htypes, hhint, spellAll, spell, spellAll, spell, ← htext,
      ← renderParameters_of_plain hplain]
    simp [headerText, textOf]
  · cases h

/-- A header that is plain is printed as it was written. -/
theorem headerText_of_plain {front parameters : List Tree} {name : String}
    (h : plainHeader front = true) (hname : name? front = some name)
    (hparameters : find? .parameters front = some parameters) :
    front.any (isLeaf .word ['a', 's', 'y', 'n', 'c']) = true ∧
      (headerText name ((find? .typeParameters front).map textOf) (parametersOf false parameters)
        ((find? .hint front).map hintOf)).toList = spellAll front := by
  unfold plainHeader at h
  split at h
  · rename_i text rest
    obtain rfl : String.ofList text = name := Option.some.inj hname
    refine ⟨rfl, ?_⟩
    have hrest : find? .parameters rest = some parameters := hparameters
    have htext := headerText_of_signature (String.ofList text) h hrest
    exact htext.trans (by simp [spellAll, spell])
  · cases h

/-- The text between a colon and the first statement, and the text of the statements: a body on the
line of the header stands behind one blank, and no white space is lost at the end. -/
def plainBody (between block : List Tree) : Bool :=
  let before := block.takeWhile fun t => !isPart t
  let leading := spellAll between ++ spellAll before
  let text := spellAll (block.drop before.length)
  (leading.contains '\n' || leading == [' ']) && trimEnd text == text

def plainDefinition (children : List Tree) : Bool :=
  plainHeader (header children).1 &&
    plainBody (header children).2.tail ((find? .block children).getD [])

/-- Decorators without comments, each on a line of its own that is indented like the statement. -/
def plainDecorators (indent : List Char) : List Tree → Bool
  | [] => true
  | .node .decorator (.leaf .sign ['@'] :: part :: marks) :: .gap _ text :: rest =>
    isPart part && spellAll marks == [] && text == '\n' :: indent && plainDecorators indent rest
  | _ => false

/-- An `async` function that is written as it is printed. `line` stands before it on its line. -/
def plainAsync (line : List Char) : Tree → Bool
  | .node .function children => plainDefinition children
  | .node .decorated children =>
    match find? .function children with
    | some definition =>
      plainDecorators (indentOf line) (children.takeWhile fun t => !isNode .function t) &&
        plainDefinition definition
    | none => false
  | _ => false

def decoratorText (indent : List Char) (decorators : List String) : List Char :=
  decorators.flatMap fun d => '@' :: d.toList ++ '\n' :: indent

/-- What is printed of the header of a function up to its colon. -/
def headOf (f : Function) : String :=
  (if f.isAsync then "async " else "") ++ "def " ++ f.name ++ f.typeParameters.getD "" ++
    "(" ++ renderParameters f.parameters ++ ")" ++ returnText f.returns

theorem renderFunction_eq (f : Function) :
    (renderFunction f).toList = decoratorText f.body.outerIndent.toList f.decorators ++
      (headOf f).toList ++ ':' :: (renderBody f.body).toList := by
  have hdecorators : (String.join (f.decorators.map fun d =>
      "@" ++ d ++ "\n" ++ f.body.outerIndent)).toList =
        decoratorText f.body.outerIndent.toList f.decorators := by
    simp [decoratorText, String.toList_join, List.flatMap_map]
  unfold renderFunction headOf
  cases f.returns <;> simp [returnText, hdecorators]

theorem headOf_async {f : Function} (h : f.isAsync = true) :
    headOf f = headerText f.name f.typeParameters f.parameters f.returns := by
  rw [headOf, if_pos h]
  rfl

theorem spellAll_takeWhile_drop (block : List Tree) :
    spellAll block = spellAll (block.takeWhile fun t => !isPart t) ++
      spellAll (block.drop (block.takeWhile fun t => !isPart t).length) := by
  rw [← spellAll_append, drop_takeWhile, List.takeWhile_append_dropWhile]

theorem renderBody_of_plain {between block : List Tree} (h : plainBody between block = true)
    {body : Body} (hinjected : body.injected = [])
    (htext : body.text = trimmedTextOf (block.drop (block.takeWhile fun t => !isPart t).length))
    (hinline : body.inline = !(spellAll between ++
      spellAll (block.takeWhile fun t => !isPart t)).contains '\n')
    (hleading : body.leading = if body.inline then "" else String.ofList (spellAll between ++
      spellAll (block.takeWhile fun t => !isPart t))) :
    (renderBody body).toList = spellAll between ++ spellAll block := by
  rw [spellAll_takeWhile_drop block, ← List.append_assoc]
  unfold plainBody at h
  unfold renderBody
  dsimp only at h
  generalize spellAll between ++ spellAll (block.takeWhile fun t => !isPart t) = leading at *
  generalize block.drop (block.takeWhile fun t => !isPart t).length = statements at *
  obtain ⟨hleads, htrim⟩ := (Bool.and_eq_true _ _).mp h
  have htexts : body.text.toList = spellAll statements := by
    simpa [htext, trimmedTextOf] using htrim
  rw [hleading, hinline, hinjected]
  by_cases hlines : '\n' ∈ leading
  · simp [hlines, htexts]
  · have hblank : leading = [' '] := by simpa [hlines] using hleads
    simp [htexts, hblank]

theorem functionOf_of_plain {outer line : List Char} {decorators : List String}
    {children : List Tree}
    {f : Function} (hdefinition : IsDefinition children) (h : plainDefinition children = true)
    (hf : functionOf outer line decorators children = .ok f) :
    f.isAsync = true ∧
      (renderFunction f).toList = decoratorText (indentOf outer) decorators ++
        spellAll children := by
  obtain ⟨front, between, block, hsplits⟩ := splits_of_isDefinition hdefinition
  obtain ⟨parameters, hparameters, -⟩ := hsplits.parameters
  obtain ⟨hheader, hbody⟩ := (Bool.and_eq_true _ _).mp h
  rw [hsplits.header] at hheader hbody
  rw [hsplits.found] at hbody
  obtain ⟨hasync, htext⟩ := headerText_of_plain hheader hsplits.name hparameters
  unfold functionOf at hf
  simp only [hsplits.header, hsplits.name, hparameters, hsplits.found,
    List.tail?_cons, require_some,
    pure_bind] at hf
  split at hf
  · cases hf
  · cases hf
    refine ⟨hasync, ?_⟩
    rw [renderFunction_eq, headOf_async hasync, renderBody_of_plain hbody rfl rfl rfl rfl]
    have hspell : spellAll children = spellAll front ++ ':' ::
      (spellAll between ++ spellAll block) := by
      conv_lhs => rw [hsplits.eq]
      simp [spellAll_append, spellAll, spell]
    rw [htext, hspell]
    simp

theorem decoratorText_of_plain {indent : List Char} {above : List Tree}
    (h : plainDecorators indent above = true) :
    decoratorText indent (decoratorsOf above) = spellAll above := by
  fun_induction plainDecorators indent above with
  | case1 => rfl
  | case2 part marks g text rest ih =>
      simp only [Bool.and_eq_true, beq_iff_eq] at h
      obtain ⟨⟨⟨hpart, hmarks⟩, rfl⟩, hrest⟩ := h
      have hdecorators : decoratorsOf (.node .decorator (.leaf .sign ['@'] :: part :: marks) ::
          .gap g ('\n' :: indent) :: rest) = String.ofList (spell part) :: decoratorsOf rest := by
        simp [decoratorsOf, isNode, childrenOf, isPart, List.find?_cons_of_pos hpart]
      rw [hdecorators]
      simp [decoratorText, spellAll, spell, hmarks, ← ih hrest]
  | case3 => cases h

theorem decoratorsOf_append (above definition : List Tree) :
    decoratorsOf (above ++ [.node .function definition]) = decoratorsOf above := by
  simp [decoratorsOf, isNode]

theorem rendered_of_plain {line : List Char} {p : Tree} {f : Function} (hsound : Sound p)
    (h : plainAsync line p = true) (hf : statementOf line p = .ok (.function f)) :
    f.isAsync = true ∧ (renderFunction f).toList = spell p := by
  unfold plainAsync at h
  split at h
  · rw [statementOf] at hf
    obtain ⟨f', hf', heq⟩ := bind_eq_ok.mp hf
    cases heq
    exact functionOf_of_plain hsound.definition h hf'
  · rename_i children
    obtain ⟨above, definition, habove, rfl⟩ | ⟨hnone, -⟩ := decoration_cases hsound.decoration
    · have hdefinition : Sound (.node .function definition) :=
        hsound.children _ (by simp [childrenOf])
      rw [find?_function habove, takeWhile_append (isNode_function_of_isAbove habove)] at h
      obtain ⟨hdecorators, hplain⟩ := (Bool.and_eq_true _ _).mp h
      rw [statementOf, find?_function habove] at hf
      obtain ⟨f', hf', heq⟩ := bind_eq_ok.mp hf
      cases heq
      obtain ⟨hasync, htext⟩ := functionOf_of_plain hdefinition.definition hplain hf'
      refine ⟨hasync, ?_⟩
      rw [htext, decoratorsOf_append, decoratorText_of_plain hdecorators, spell, spellAll_append]
      simp [spellAll, spell]
    · rw [hnone] at h
      cases h
  · cases h

section

variable {settings : ConversionSettings} {line l : List Char} {p : Tree}

theorem exists_of_forall₂ {α β : Type} {R : α → β → Prop} {as : List α} {bs : List β} {a : α}
    (h : List.Forall₂ R as bs) (ha : a ∈ as) : ∃ b ∈ bs, R a b := by
  induction h with
  | nil => cases ha
  | @cons a' b as bs hfirst _ ih =>
      rcases List.mem_cons.mp ha with rfl | ha
      · exact ⟨b, List.mem_cons_self, hfirst⟩
      · obtain ⟨b', hb', hR⟩ := ih ha
        exact ⟨b', List.mem_cons_of_mem _ hb', hR⟩

theorem infix_flatten (text : Statement → List Char) {s : Statement} {fragments : List Fragment}
    (h : s ∈ statementsIn fragments) : text s <:+: flatten text fragments := by
  induction fragments with
  | nil => cases h
  | cons f rest ih =>
      cases f with
      | text t => exact (ih h).trans (List.suffix_append _ _).isInfix
      | statement s' =>
          rcases List.mem_cons.mp h with rfl | h
          · exact (List.prefix_append _ _).isInfix
          · exact (ih h).trans (List.suffix_append _ _).isInfix

theorem piece_not_mem_of_not_isConstruct {t : Tree} (h : isConstruct t = false) :
    .declaration l p ∉ pieces line t := by
  cases t with
  | gap g text => simp [pieces]
  | leaf k text => simp [pieces]
  | node kind children => cases h

theorem declaration_not_mem_piecesOf {ts : List Tree}
    (h : ∀ t ∈ ts, ∀ line, .declaration l p ∉ pieces line t) :
      .declaration l p ∉ piecesOf line ts := by
  induction ts generalizing line with
  | nil => simp [piecesOf]
  | cons t rest ih =>
      obtain ⟨hfirst, hrest⟩ := List.forall_mem_cons.mp h
      rw [piecesOf, List.mem_append, not_or]
      exact ⟨hfirst line, ih hrest⟩

theorem declaration_not_mem_of_isPhrase {t : Tree} (h : IsPhrase t) (line : List Char) :
    .declaration l p ∉ pieces line t := by
  induction h generalizing line with
  | gap _ => exact piece_not_mem_of_not_isConstruct rfl
  | leaf _ => exact piece_not_mem_of_not_isConstruct rfl
  | node hkind _ ih =>
      rw [pieces_node]
      · exact declaration_not_mem_piecesOf ih
      all_goals
        rintro rfl
        cases hkind

theorem declaration_not_mem_loopPieces (children : List Tree) :
    .declaration l p ∉ loopPieces children := by
  fun_induction loopPieces children with
  | case1 => simp
  | case2 iterable rest =>
      simpa using declaration_not_mem_iterablePieces l p iterable
  | case3 t rest _ ih => simpa using ih

/-- The declarations among pieces, with the characters before them on their lines. -/
def declared (pieces : List Piece) : List (List Char × Tree) :=
  pieces.filterMap fun
    | .declaration line p => some (line, p)
    | _ => none

theorem declared_append (a b : List Piece) : declared (a ++ b) = declared a ++ declared b :=
  List.filterMap_append

theorem declared_eq_nil {found : List Piece} (h : ∀ l p, .declaration l p ∉ found) :
    declared found = [] := by
  refine List.filterMap_eq_nil_iff.mpr fun piece hpiece => ?_
  cases piece with
  | declaration line p => exact absurd hpiece (h line p)
  | kept text => rfl
  | range => rfl

theorem declared_of_not_isConstruct {line : List Char} {t : Tree} (h : isConstruct t = false) :
    declared (pieces line t) = [] :=
  declared_eq_nil fun _ _ => piece_not_mem_of_not_isConstruct h

theorem declared_items (line : List Char) (ts : List Tree) :
    declared (piecesOf line ts) =
      (partsIn (items line ts)).flatMap fun part => declared (pieces part.1 part.2) := by
  induction ts generalizing line with
  | nil => rfl
  | cons t rest ih =>
      rw [piecesOf, declared_append, ih, items]
      by_cases hpart : isPart t
      · rw [if_pos hpart]
        rfl
      · rw [if_neg hpart, declared_of_not_isConstruct
          (isConstruct_of_isPart (by simpa using hpart))]
        rfl

theorem declared_segments (line : List Char) {ts : List Tree} (h : ∀ t ∈ ts, Cuttable t) :
    declared (piecesOf line ts) =
      (partsIn (segments line ts)).flatMap fun part => declared (pieces part.1 part.2) := by
  induction ts using trees_induction generalizing line with
  | nil =>
      rw [segments]
      rfl
  | gap g text rest ih =>
      obtain ⟨-, hrest⟩ := List.forall_mem_cons.mp h
      rw [piecesOf, declared_append, declared_of_not_isConstruct rfl, ih _ hrest, segments]
      rfl
  | leaf l text rest ih =>
      obtain ⟨-, hrest⟩ := List.forall_mem_cons.mp h
      rw [piecesOf, declared_append, declared_of_not_isConstruct rfl, ih _ hrest, segments]
      rfl
  | block children rest ih =>
      obtain ⟨-, hrest⟩ := List.forall_mem_cons.mp h
      rw [piecesOf, spell, declared_append, ih _ hrest, pieces_node (by decide)
        (by decide) (by decide),
        declared_items, segments_block, partsIn_append, List.flatMap_append]
  | node kind children rest hblock ihchildren ih =>
      obtain ⟨hfirst, hrest⟩ := List.forall_mem_cons.mp h
      obtain _ | _ | _ | ⟨-, hfunction, hdecorated, hloop, hchildren⟩ := hfirst
      · exact absurd rfl hblock
      · rw [piecesOf, spell, declared_append, ih _ hrest, pieces_node hfunction hdecorated hloop,
          ihchildren _ hchildren, segments_node hblock, partsIn_append, List.flatMap_append]

theorem mem_declared {found : List Piece} : (l, p) ∈ declared found ↔ .declaration l p ∈ found := by
  rw [declared, List.mem_filterMap]
  constructor
  · rintro ⟨piece, hmem, hpiece⟩
    cases piece with
    | declaration line t =>
        cases hpiece
        exact hmem
    | kept text => cases hpiece
    | range => cases hpiece
  · exact fun hmem => ⟨_, hmem, rfl⟩

theorem exists_segment {ts : List Tree} (hts : ∀ t ∈ ts, Cuttable t)
    (h : .declaration l p ∈ piecesOf line ts) :
    ∃ part ∈ partsIn (segments line ts), .declaration l p ∈ pieces part.1 part.2 := by
  rw [← mem_declared, declared_segments line hts] at h
  obtain ⟨part, hpart, hmem⟩ := List.mem_flatMap.mp h
  exact ⟨part, hpart, mem_declared.mp hmem⟩

theorem exists_item {ts : List Tree} (h : .declaration l p ∈ piecesOf line ts) :
    ∃ part ∈ partsIn (items line ts), .declaration l p ∈ pieces part.1 part.2 := by
  rw [← mem_declared, declared_items] at h
  obtain ⟨part, hpart, hmem⟩ := List.mem_flatMap.mp h
  exact ⟨part, hpart, mem_declared.mp hmem⟩

theorem declaration_not_mem_of_simpleKind {kind : Kind} {children : List Tree}
    (hkind : SimpleKind kind)
    (h : IsItem (.node kind children)) : .declaration l p ∉ pieces line (.node kind children) := by
  rw [pieces_node]
  · exact declaration_not_mem_piecesOf fun t ht =>
      declaration_not_mem_of_isPhrase (phrases_of_simpleKind hkind h t ht)
  all_goals
    rintro rfl
    cases hkind

theorem isDeclaration_of_not_cut {t : Tree} (hitem : IsItem t) (hcut : isCut t = false)
    (hmem : .declaration l p ∈ pieces line t) : isDeclaration t = true := by
  unfold isCut at hcut
  split at hcut
  · exact absurd hmem (declaration_not_mem_of_simpleKind .importNames hitem)
  · exact absurd hmem (declaration_not_mem_of_simpleKind .importFrom hitem)
  · rfl
  · simpa [isDeclaration] using hcut
  · rw [pieces] at hmem
    exact absurd hmem (declaration_not_mem_loopPieces _)
  · cases hcut
  · exact absurd hmem (piece_not_mem_of_not_isConstruct rfl)
  · exact absurd hmem (piece_not_mem_of_not_isConstruct rfl)

theorem declaration_emitted {line : List Char} {t : Tree} {s : Statement} (ht : IsSoundItem t)
    (hs : statementOf line t = .ok s) (hmem : .declaration l p ∈ pieces line t) :
    Sound p ∧ ∃ f, statementOf l p = .ok (.function f) ∧
      ∀ settings, functionText settings f <:+: convertedText settings s := by
  by_cases hcut : isCut t = true
  · obtain ⟨fragments, hfragments, rfl⟩ := statementOf_cut hcut hs
    rw [pieces_of_isCut hcut] at hmem
    obtain ⟨part, hpart, hmem⟩ := exists_segment (cuttable_children ht.1 hcut) hmem
    have hp : part.2 ∈ blockParts (childrenOf t) := mem_blockParts_of_mem_segments hpart
    obtain ⟨s, hs, hstatement⟩ := exists_of_forall₂ (statementsIn_of_resolved hfragments) hpart
    obtain ⟨hsound, f, hf, hwithin⟩ :=
      declaration_emitted (isSoundItem_of_mem_blockParts ht hcut hp) hstatement hmem
    refine ⟨hsound, f, hf, fun settings => ?_⟩
    rw [convertedText_ofFragments]
    exact (hwithin settings).trans (infix_flatten _ (by simpa using hs))
  · rw [Bool.not_eq_true] at hcut
    have hdeclaration := isDeclaration_of_not_cut ht.1 hcut hmem
    rw [pieces_of_isDeclaration hdeclaration] at hmem
    obtain ⟨rfl, rfl⟩ : l = line ∧ p = t := by simpa using hmem
    obtain ⟨f, rfl⟩ := eq_function hdeclaration hs
    refine ⟨ht.2, f, hs, fun settings => ?_⟩
    exact convertedText_function f ▸ List.infix_refl _
termination_by sizeOf t
decreasing_by exact sizeOf_lt_of_mem_children hp

end

theorem infix_emit {compiler : CompilerSettings} {settings : ConversionSettings} {outline : Outline}
    {s : Statement} (h : s ∈ outline.statements) :
    convertedText settings s <:+: (emit compiler (convert settings outline)).toList := by
  obtain ⟨before, after, hsplit⟩ := List.append_of_mem h
  let texts (statements : List Statement) : List Char :=
    (String.join (statements.map fun s => String.ofList (convertedText settings s) ++
      ending s)).toList
  refine ⟨(preamble compiler).toList ++ texts before, (ending s).toList ++ texts after, ?_⟩
  rw [emit_convert, hsplit]
  simp [texts]

/-- The declarations that are reached, with the characters before them on their lines. -/
def declarations (trees : List Tree) : List (List Char × Tree) :=
  (piecesOf [] trees).filterMap fun
    | .declaration line p => some (line, p)
    | _ => none

theorem mem_piecesOf_of_mem_declarations {part : List Char × Tree} {trees : List Tree}
    (h : part ∈ declarations trees) : .declaration part.1 part.2 ∈ piecesOf [] trees :=
  mem_declared.mp h

/-- An `async` function that is written as it is printed is emitted as it was written, byte for
byte, whatever the settings are. -/
theorem plain_async_kept {source : List Char} {outline : Outline}
    (h : Outline.Reading.read source = .ok outline) :
    ∃ trees, ofSource source = .ok trees ∧ spellAll trees = source ∧
      ∀ part ∈ declarations trees, plainAsync part.1 part.2 = true → ∀ compiler settings,
        Piece.emitted settings (.declaration part.1 part.2) = spell part.2 ∧
          spell part.2 <:+: (emit compiler (convert settings outline)).toList := by
  obtain ⟨trees, htrees, -, houtline⟩ := ofTrees_of_read h
  refine ⟨trees, htrees, spellAll_ofSource htrees, fun part hpart hplain compiler settings => ?_⟩
  obtain ⟨top, htop, hmem⟩ := exists_item (mem_piecesOf_of_mem_declarations hpart)
  obtain ⟨s, hs, hstatement⟩ :=
    exists_of_forall₂ (forall₂_statementsOf (statementsOf_of_ofTrees houtline)) htop
  have hitem : IsSoundItem top.2 := isSoundItem_of_ofSource htrees (mem_of_mem_items htop)
  obtain ⟨hsound, f, hf, hwithin⟩ := declaration_emitted hitem hstatement hmem
  obtain ⟨hasync, htext⟩ := rendered_of_plain hsound hplain hf
  have hkept : functionText settings f = spell part.2 := by
    rw [functionText, if_pos hasync, htext]
  refine ⟨by simp [Piece.emitted, hf, hkept], ?_⟩
  rw [← hkept]
  exact (hwithin settings).trans (infix_emit hs)

def decoratedCoroutine : List Char :=
  "if x:\n    @a.b(1)\n    async def f(p, q: int = 1, *r) -> int:  # c\n        return p\n".toList

theorem plain_async_kept_decorated :
    ∃ outline, Outline.Reading.read decoratedCoroutine = .ok outline ∧
      ∃ trees, ofSource decoratedCoroutine = .ok trees ∧ spellAll trees = decoratedCoroutine ∧
        (∀ part ∈ declarations trees, plainAsync part.1 part.2 = true → ∀ compiler settings,
          Piece.emitted settings (.declaration part.1 part.2) = spell part.2 ∧
            spell part.2 <:+: (emit compiler (convert settings outline)).toList) ∧
        ∃ part ∈ declarations trees, plainAsync part.1 part.2 = true := by
  obtain ⟨outline, hread⟩ := exists_of_isOk (x := Outline.Reading.read decoratedCoroutine)
    (by decide +kernel)
  obtain ⟨trees, htrees, hspell, hkept⟩ := plain_async_kept hread
  have hplain : (ofSource decoratedCoroutine).toOption.map
      (fun trees => (declarations trees).any fun part => plainAsync part.1 part.2) = some true := by
    decide +kernel
  rw [htrees] at hplain
  exact ⟨outline, hread, trees, htrees, hspell, hkept, List.any_eq_true.mp (Option.some.inj hplain)⟩

/-- Whether a declaration is `async`. -/
def isAsync : Tree → Bool
  | .node .function children => (header children).1.any (isLeaf .word ['a', 's', 'y', 'n', 'c'])
  | .node .decorated children =>
    match find? .function children with
    | some definition => (header definition).1.any (isLeaf .word ['a', 's', 'y', 'n', 'c'])
    | none => false
  | _ => false

/-- Two parameters without a blank between them: a blank is printed. -/
theorem spacing_not_kept :
    ¬∀ (source : List Char) (outline : Outline) (trees : List Tree) (compiler : CompilerSettings)
      (settings : ConversionSettings), Outline.Reading.read source = .ok outline →
        ofSource source = .ok trees → ∀ part ∈ declarations trees, isAsync part.2 = true →
          spell part.2 <:+: (emit compiler (convert settings outline)).toList := by
  intro hall
  let source : List Char := "async def f(a,b): pass\n".toList
  have hlost : (Outline.Reading.read source).toOption.bind (fun outline =>
      (ofSource source).toOption.map fun trees => (declarations trees).any fun part =>
        isAsync part.2 && !decide (spell part.2 <:+: (emit {} (convert {} outline)).toList)) =
      some true := by
    decide +kernel
  cases hread : Outline.Reading.read source with
  | error fault => simp [hread, Except.toOption] at hlost
  | ok outline =>
      cases hsource : ofSource source with
      | error reached => simp [hread, hsource, Except.toOption] at hlost
      | ok trees =>
          simp only [hread, hsource, Except.toOption, Option.bind_some, Option.map_some,
            Option.some.injEq, List.any_eq_true, Bool.and_eq_true, Bool.not_eq_true',
            decide_eq_false_iff_not] at hlost
          obtain ⟨part, hpart, hasync, hnot⟩ := hlost
          exact hnot (hall source outline trees {} {} hread hsource part hpart hasync)

end Cythonizer.Proofs.Outline.Layout
