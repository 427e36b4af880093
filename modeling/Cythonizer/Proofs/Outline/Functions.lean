import Cythonizer.Proofs.Outline.Interface
import Cythonizer.Proofs.Outline.Reconversion

/-!
The text of a function whose body has had statements put in front of it. The header is printed anew,
and from its colon on the function stands as in the source up to the white space at its end, but for
what was put in front of its first statement (`printed_iff`).
-/

namespace Cythonizer.Proofs.Outline.Functions

open Cythonizer.Outline.Basic
open Cythonizer.Outline.Conversion
open Cythonizer.Outline.OfTree
open Cythonizer.Outline.Rendering
open Cythonizer.Settings.Basic
open Cythonizer.Source.Syntax
open Cythonizer.Source.Trees
open Cythonizer.Text.Blank
open Cythonizer.Proofs.Outline.Correspondence
open Cythonizer.Proofs.Outline.Declarations
open Cythonizer.Proofs.Outline.Defects
open Cythonizer.Proofs.Outline.Interface
open Cythonizer.Proofs.Outline.Invariance
open Cythonizer.Proofs.Outline.Layout
open Cythonizer.Proofs.Outline.Segments
open Cythonizer.Proofs.Source.Parameters
open Cythonizer.Proofs.Source.Shapes

/-- A function and what it becomes when statements are put in front of its body one after another,
by a conversion or without one. The statements are listed with the last one first. -/
inductive Revised (f : Function) : List String → Function → Prop
  | unchanged : Revised f [] f
  | insertFirst {inserted : List String} {g : Function} (h : Revised f inserted g)
    (statement : String) :
      Revised f (statement :: inserted) { g with body := g.body.insertFirst statement }
  | convert {inserted : List String} {g : Function} (h : Revised f inserted g)
    (settings : ConversionSettings)
      (hasync : g.isAsync = false) :
      Revised f (directive (modeOf settings g) (typeOf g) :: inserted) (convertFunction settings g)

def withInserted (inserted : List String) (f : Function) : Function :=
  { f with body := { f.body with injected := inserted ++ f.body.injected } }

/-- A function with the header that a conversion leaves. -/
def stripped (f : Function) : Function :=
  { f with decorators := [], parameters := f.parameters.map foldHint, returns := none }

theorem stripped_stripped (f : Function) : stripped (stripped f) = stripped f := by
  have hfolded (p : Parameter) : foldHint (foldHint p) = foldHint p :=
    Reconversion.foldHint_of_not_isTyped (Traversal.isTyped_foldHint p)
  simp [stripped, hfolded]

theorem convertFunction_withInserted (settings : ConversionSettings) (inserted : List String)
    (f : Function) :
    convertFunction settings (withInserted inserted f) =
      withInserted
        (directive (modeOf settings (withInserted inserted f)) (typeOf (withInserted inserted f)) ::
        inserted) (stripped f) :=
  rfl

theorem Revised.cases {f g : Function} {inserted : List String} (h : Revised f inserted g) :
    g = withInserted inserted f ∨ f.isAsync = false ∧ g = withInserted inserted (stripped f) := by
  induction h with
  | unchanged => exact .inl rfl
  | insertFirst _ statement ih =>
      obtain rfl | ⟨hasync, rfl⟩ := ih
      · exact .inl rfl
      · exact .inr ⟨hasync, rfl⟩
  | @convert inserted _ _ settings hasync ih =>
      obtain rfl | ⟨hsource, rfl⟩ := ih
      · exact .inr ⟨hasync, rfl⟩
      · refine .inr ⟨hsource, ?_⟩
        rw [convertFunction_withInserted, stripped_stripped]

/-- What stands between the colon of a function and the first of its statements: the gap in the
source with the inserted statements at its end, if a line ends in it. Else the body moves to lines
of its own when something is inserted. -/
def opening (outer indent gap : List Char) (inserted : List String) : List Char :=
  if '\n' ∈ gap then gap ++ inserted.flatMap fun statement => statement.toList ++ '\n' :: indent
  else if inserted = [] then [' ']
  else
    let margin := '\n' :: outer ++ indentUnit.toList
    (inserted.flatMap fun statement => margin ++ statement.toList) ++ margin

theorem renderBody_bodyOf (outer start gap text : List Char) (inserted : List String) :
    (renderBody { bodyOf outer start gap text with injected := inserted }).toList =
      opening (indentOf outer) (indentOf (lineAfter start gap)) gap inserted ++ trimEnd text := by
  unfold renderBody opening
  by_cases hbreak : '\n' ∈ gap
  · simp [bodyOf, hbreak, String.toList_join, List.flatMap_map]
  · cases inserted with
    | nil => simp [bodyOf, hbreak]
    | cons statement rest => simp [bodyOf, hbreak, String.toList_join, List.flatMap_map]

/-- The place of a function in a source: its statement stands behind `before` and in front of
`after`, its definition behind what stands `above` in the statement, and its colon between the
`front` of the definition and what stands `between` the colon and the block. -/
structure Site (source : List Char) (part : List Char × Tree) where
  before : List Char
  above : List Char
  front : List Tree
  between : List Tree
  block : List Tree
  after : List Char
  eq : source = before ++ spell part.2 ++ after
  spell_eq : spell part.2 = above ++ spellAll front ++ ':' :: (spellAll between ++ spellAll block)
  line : part.1 = lineAfter [] before
  splits : Splits (definitionOf part.2) front between block
  led : IsLed block

namespace Site

variable {source : List Char} {part : List Char × Tree} (s : Site source part)

/-- The white space that stands before the statement of the function on its line. -/
def outer : List Char :=
  indentOf (lineAfter [] s.before)

/-- The white space that stands before the first statement of the body on its line. -/
def indent : List Char :=
  indentOf (lineAfter [] (s.before ++ s.above ++ spellAll s.front ++ ':' :: spellAll s.between))

/-- The function in the outline of the source. -/
def function : Function :=
  { name := nameOf (definitionOf part.2)
    isAsync := s.front.any (isLeaf .word ['a', 's', 'y', 'n', 'c'])
    decorators := decoratorsOf (decorationOf part.2)
    typeParameters := (find? .typeParameters s.front).map textOf
    parameters := parametersOf false (parameterListOf part.2)
    returns := (find? .hint s.front).map hintOf
    body := bodyOf (lineAfter [] s.before)
      (lineAfter [] (s.before ++ s.above ++ spellAll s.front ++ [':']))
      (spellAll s.between) (spellAll s.block) }

include s in
theorem isParameterList : IsParameterList (parameterListOf part.2) := by
  obtain ⟨parameters, hparameters, hlist⟩ := s.splits.parameters
  rwa [parameterListOf, s.splits.header, hparameters, Option.getD_some]

end Site

theorem exists_site {source : List Char} {trees : List Tree}
    {part : List Char × Tree} {f : Function}
    (htrees : ofSource source = .ok trees) (hpart : part ∈ Layout.declarations trees)
    (h : IsReadOff part f) :
    ∃ s : Site source part, f = s.function := by
  obtain ⟨before, after, heq, hline⟩ := at_place htrees hpart
  obtain ⟨above, hspell, hf⟩ := functionOf_of_isReadOff h
  obtain ⟨front, between, block, hsplits⟩ :=
    splits_of_isDefinition (isDefinition_definitionOf h.sound h.isDeclaration)
  obtain ⟨parameters, hparameters, -⟩ := hsplits.parameters
  obtain ⟨hled, rfl⟩ := functionOf_of_splits hsplits hparameters hf
  have hparts : spell part.2 = above ++ spellAll front ++ ':' ::
    (spellAll between ++ spellAll block) := by
    rw [hspell]
    conv_lhs => rw [hsplits.eq]
    simp [spellAll_append, spellAll, spell]
  refine ⟨⟨before, above, front, between, block, after, heq, hparts, hline, hsplits, hled⟩, ?_⟩
  have hlist : parameterListOf part.2 = parameters := by
    rw [parameterListOf, hsplits.header, hparameters, Option.getD_some]
  rw [Site.function, hlist, hline, lineAfter_append, lineAfter_append, List.append_assoc,
    List.append_assoc]

/-- The texts of the decorators of a declaration: what each one applies. -/
def expressionsOf (t : Tree) : List String :=
  ((decorationOf t).filter (isNode .decorator)).map fun d =>
    String.ofList ((((childrenOf d).find? isConstruct).map spell).getD [])

/-- No line continuation stands between the sign of a decorator and what the decorator applies. -/
def HasUnjoinedDecorators (t : Tree) : Prop :=
  ∀ d ∈ decorationOf t, isNode .decorator d = true →
    ∀ text, .gap .continuation text ∉ (childrenOf d).takeWhile fun c => !isConstruct c

theorem find?_isPart_of_plain {ts : List Tree}
    (h : ∀ text, .gap .continuation text ∉ ts.takeWhile fun c => !isConstruct c) :
    ts.find? isPart = ts.find? isConstruct := by
  induction ts with
  | nil => rfl
  | cons t rest ih =>
      cases t with
      | gap g text =>
          cases g with
          | continuation => exact absurd List.mem_cons_self (h text)
          | blank => exact ih fun text hmem => h text (List.mem_cons_of_mem _ hmem)
          | comment => exact ih fun text hmem => h text (List.mem_cons_of_mem _ hmem)
      | leaf l text => exact ih fun text hmem => h text (List.mem_cons_of_mem _ hmem)
      | node kind children => rfl

theorem decoratorsOf_of_plain {t : Tree} (h : HasUnjoinedDecorators t) :
    decoratorsOf (decorationOf t) = expressionsOf t := by
  rw [decoratorsOf_eq]
  refine List.map_congr_left fun d hd => ?_
  obtain ⟨hmem, hdecorator⟩ := List.mem_filter.mp hd
  rw [Invariance.decoratorText, decorationIn, find?_isPart_of_plain (h d hmem hdecorator)]

section

variable {source : List Char} {part : List Char × Tree}

/-- What is printed of a function: its decorators on lines of their own, its header, and from the
colon on what stands in the source with the inserted statements in front of the text of its own. -/
structure Prints (s : Site source part) (inserted : List String) (text : List Char) (g : Function) :
    Prop where
  name : g.name = nameOf (definitionOf part.2)
  isAsync : g.isAsync = s.front.any (isLeaf .word ['a', 's', 'y', 'n', 'c'])
  typeParameters : g.typeParameters = (find? .typeParameters s.front).map textOf
  text : (renderFunction g).toList = Layout.decoratorText s.outer g.decorators ++
    (headOf g).toList ++
    ':' :: (opening s.outer s.indent (spellAll s.between) inserted ++ text)

/-- The decorators, parameters and return hint of a function are those of its declaration, or what a
conversion leaves of them. -/
inductive HasHeader (s : Site source part) (g : Function) : Prop
  | written (hdecorators : g.decorators = expressionsOf part.2)
      (hparameters : OneToOne Lowers (parameterListOf part.2) g.parameters)
      (hreturns : g.returns = (find? .hint s.front).map hintOf)
  | converted (hasync : g.isAsync = false) (hdecorators : g.decorators = [])
      (hparameters : OneToOne Renames (parameterListOf part.2) g.parameters)
      (hreturns : g.returns = none)

/-- A function is printed with nothing lost: one parameter for each of the declaration, and the
statements of its body to their last character. -/
structure PrintsAll (s : Site source part) (inserted : List String) (g : Function) : Prop where
  header : HasHeader s g
  prints : Prints s inserted (spellAll s.block) g

variable {s : Site source part} {inserted : List String} {g : Function}

theorem prints_withInserted {f : Function} (hname : f.name = s.function.name)
    (hasync : f.isAsync = s.function.isAsync)
    (htypes : f.typeParameters = s.function.typeParameters)
    (hbody : f.body = s.function.body) :
    Prints s inserted (trimEnd (spellAll s.block)) (withInserted inserted f) := by
  refine ⟨hname, hasync, htypes, ?_⟩
  have hrendered := renderBody_bodyOf (lineAfter [] s.before)
    (lineAfter [] (s.before ++ s.above ++ spellAll s.front ++ [':'])) (spellAll s.between)
      (spellAll s.block)
    inserted
  have hindent :
    indentOf (lineAfter (lineAfter [] (s.before ++ s.above ++ spellAll s.front ++ [':']))
      (spellAll s.between)) = s.indent := by
    rw [lineAfter_append, Site.indent]
    simp
  rw [hindent] at hrendered
  rw [renderFunction_eq]
  have houter : (withInserted inserted f).body.outerIndent.toList = s.outer := by
    simp [withInserted, hbody, Site.function, bodyOf, Site.outer]
  have hinserted :
    (withInserted inserted f).body = { s.function.body with injected := inserted } := by
    simp [withInserted, hbody, Site.function, bodyOf]
  rw [houter, hinserted]
  exact congrArg (fun body => _ ++ ':' :: body) hrendered

theorem prints_of_revised (h : Revised s.function inserted g) :
    Prints s inserted (trimEnd (spellAll s.block)) g := by
  obtain rfl | ⟨-, rfl⟩ := h.cases
  · exact prints_withInserted rfl rfl rfl rfl
  · exact prints_withInserted rfl rfl rfl rfl

theorem Prints.text_unique {text text' : List Char} (h : Prints s inserted text g)
    (h' : Prints s inserted text' g) : text = text' := by
  simpa using h.text.symm.trans h'.text

theorem length_parameters_of_revised (h : Revised s.function inserted g) :
    g.parameters.length = (parametersOf false (parameterListOf part.2)).length := by
  obtain rfl | ⟨-, rfl⟩ := h.cases
  · rfl
  · exact List.length_map _

theorem hasHeader_of_revised (hdecorated : HasUnjoinedDecorators part.2)
    (h : Revised s.function inserted g)
    (hjoined : ∀ text, .gap .continuation text ∉ parameterListOf part.2) : HasHeader s g := by
  have hparameters : OneToOne Lowers (parameterListOf part.2) s.function.parameters :=
    (oneToOne_iff s.isParameterList).mpr hjoined
  obtain rfl | ⟨hasync, rfl⟩ := h.cases
  · exact .written (decoratorsOf_of_plain hdecorated) hparameters rfl
  · exact .converted hasync rfl hparameters.map_foldHint rfl

theorem HasHeader.length (h : HasHeader s g) :
    g.parameters.length = (parameterListOf part.2).countP isConstruct := by
  cases h with
  | written _ hparameters _ => exact hparameters.length
  | converted _ _ hparameters _ => exact hparameters.length

theorem HasHeader.not_joined (hheader : HasHeader s g) (h : Revised s.function inserted g) :
    ∀ text, .gap .continuation text ∉ parameterListOf part.2 := by
  have hlength := length_parameters_of_revised h
  cases hheader with
  | written _ hparameters _ => exact hparameters.not_joined hlength
  | converted _ _ hparameters _ => exact hparameters.not_joined hlength

theorem printsAll_iff (hdecorated : HasUnjoinedDecorators part.2)
    (h : Revised s.function inserted g) :
    PrintsAll s inserted g ↔ (∀ text, .gap .continuation text ∉ parameterListOf part.2) ∧
      trimEnd (spellAll s.block) = spellAll s.block := by
  have hprints := prints_of_revised h
  constructor
  · intro hall
    exact ⟨hall.header.not_joined h, hprints.text_unique hall.prints⟩
  · rintro ⟨hjoined, htrim⟩
    exact ⟨hasHeader_of_revised hdecorated h hjoined, htrim ▸ hprints⟩

end

/-- Every function in an outline, whatever is put in front of its body and whether it is converted
or not, is printed as in the source from its colon on, up to white space at the end. No parameter is
added and no character of the body is lost exactly if no line continuation stands among the
parameters and no white space at the end of the body. -/
theorem printed_iff {source : List Char} {outline : Outline} {trees : List Tree}
    (hread : Outline.Reading.read source = .ok outline) (htrees : ofSource source = .ok trees) :
    List.Forall₂ (fun part f => ∃ s : Site source part, ∀ inserted g, Revised f inserted g →
        Prints s inserted (trimEnd (spellAll s.block)) g ∧
        (HasUnjoinedDecorators part.2 →
          (PrintsAll s inserted g ↔ (∀ text, .gap .continuation text ∉ parameterListOf part.2) ∧
            trimEnd (spellAll s.block) = spellAll s.block)))
      (Layout.declarations trees) outline.functions := by
  refine (forall₂_mem (forall₂_functions hread htrees)).imp fun part f => ?_
  rintro ⟨hpart, hreadOff⟩
  obtain ⟨s, rfl⟩ := exists_site htrees hpart hreadOff
  exact ⟨s, fun inserted g h => ⟨prints_of_revised h, fun hdecorated => printsAll_iff hdecorated h⟩⟩

/-- A method behind a decorator with its body on lines of its own, and one with its body behind its
header. -/
def methods : List Char :=
  ("class A:\n    @b.c\n    async def f(self, n: int, *, k=1) -> d:  # e\n        return n\n" ++
    "    def g(self): pass\n").toList

theorem printed_iff_methods :
    ∃ (outline : Outline) (trees : List Tree), Outline.Reading.read methods = .ok outline ∧
      ofSource methods = .ok trees ∧
      List.Forall₂ (fun part f => ∃ s : Site methods part, ∀ inserted g, Revised f inserted g →
          Prints s inserted (trimEnd (spellAll s.block)) g ∧
          (HasUnjoinedDecorators part.2 →
            (PrintsAll s inserted g ↔ (∀ text, .gap .continuation text ∉ parameterListOf part.2) ∧
              trimEnd (spellAll s.block) = spellAll s.block)))
        (Layout.declarations trees) outline.functions ∧
      outline.functions.map (·.name) = ["f", "g"] := by
  obtain ⟨outline, hread⟩ := exists_of_isOk (x := Outline.Reading.read methods) (by decide +kernel)
  obtain ⟨trees, htrees, -⟩ := ofTrees_of_read hread
  have hnames : (Outline.Reading.read methods).toOption.map (·.functions.map (·.name)) = some
    ["f", "g"] := by
    decide +kernel
  rw [hread] at hnames
  exact ⟨outline, trees, hread, htrees, printed_iff hread htrees, Option.some.inj hnames⟩

/-- A line continuation between two parameters is printed as a parameter of its own. -/
theorem joined_parameters_not_printed :
    ¬∀ (source : List Char) (outline : Outline) (trees : List Tree),
      Outline.Reading.read source = .ok outline → ofSource source = .ok trees →
        List.Forall₂ (fun part f => ∃ s : Site source part, ∀ inserted g, Revised f inserted g →
          PrintsAll s inserted g) (Layout.declarations trees) outline.functions := by
  intro hall
  obtain ⟨outline, trees, hread, htrees, hfunctions, -, hlist⟩ := lengths_joinedParameters
  have hlengths :=
    map_eq_of_forall₂ (hall joinedParameters outline trees hread htrees) fun part f hprinted => by
    obtain ⟨s, hprinted⟩ := hprinted
    exact (hprinted [] f .unchanged).header.length
  rw [hfunctions, hlist] at hlengths
  cases hlengths

end Cythonizer.Proofs.Outline.Functions
