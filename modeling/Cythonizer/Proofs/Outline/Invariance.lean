import Cythonizer.Proofs.Outline.Counting
import Cythonizer.Proofs.Outline.Tokens

/-!
Sources with the same tokens in the same constructs. Conversion decides the same in both exactly if
they agree on the declarations that carry the marker and on the loops in whose brackets a line
continuation hides the call of `range` (`same_decisions_iff`). All else that is decided does not
depend on gaps.
-/

namespace Cythonizer.Proofs.Outline.Invariance

open Cythonizer.Outline.Basic
open Cythonizer.Outline.Conversion
open Cythonizer.Outline.OfTree
open Cythonizer.Settings.Basic
open Cythonizer.Source.Syntax
open Cythonizer.Source.Trees
open Cythonizer.Text.Blank
open Cythonizer.Proofs.Outline.Correspondence
open Cythonizer.Proofs.Outline.Counting
open Cythonizer.Proofs.Outline.Decisions
open Cythonizer.Proofs.Outline.Defects
open Cythonizer.Proofs.Outline.Fragments
open Cythonizer.Proofs.Outline.Loops
open Cythonizer.Proofs.Outline.Segments
open Cythonizer.Proofs.Outline.Tokens
open Cythonizer.Proofs.Source.Events
open Cythonizer.Proofs.Source.Phrasing
open Cythonizer.Proofs.Source.Statements

/-- The declarations that are reached in a source, in order. -/
def declarations (trees : List Tree) : List Tree :=
  (reachedAmong trees).filter isDeclaration

/-- The loops that are reached in a source, in order. -/
def loops (trees : List Tree) : List Tree :=
  (reachedAmong trees).filter (isNode .forLoop)

def definitionOf : Tree → List Tree
  | .node .function children => children
  | .node .decorated children => (find? .function children).getD []
  | _ => []

/-- The trees among which the decorators of a declaration are. -/
def decorationOf : Tree → List Tree
  | .node .decorated children => children
  | _ => []

/-- A function that is read off a declaration. -/
def Declares (t : Tree) (f : Function) : Prop :=
  ∃ outer line, functionOf outer line (decoratorsOf (decorationOf t)) (definitionOf t) = .ok f

/-- The functions and loops of a statement are read off the declarations and loops that are reached.
-/
structure ReadsOff (parts : List Tree) (functions : List Function) (found : List Loop) : Prop where
  functions : List.Forall₂ Declares (parts.filter isDeclaration) functions
  loops : found = (parts.filter (isNode .forLoop)).map fun t => loopOf (childrenOf t)

theorem ReadsOff.append {parts others : List Tree} {functions functions' : List Function}
    {found found' : List Loop} (h : ReadsOff parts functions found)
    (hothers : ReadsOff others functions' found') :
    ReadsOff (parts ++ others) (functions ++ functions') (found ++ found') where
  functions := by
    rw [List.filter_append]
    exact List.rel_append h.functions hothers.functions
  loops := by rw [List.filter_append, List.map_append, h.loops, hothers.loops]

theorem readsOff_nil {parts : List Tree} (hdeclaration : ∀ t ∈ parts, isDeclaration t = false)
    (hloop : ∀ t ∈ parts, isNode .forLoop t = false) : ReadsOff parts [] [] where
  functions := by
    rw [List.filter_eq_nil_iff.mpr fun t ht => by simp [hdeclaration t ht]]
    exact .nil
  loops := by
    rw [List.filter_eq_nil_iff.mpr fun t ht => by simp [hloop t ht]]
    rfl

theorem readsOff_flatMap {parts : List Tree} {statements : List Statement}
    (h : List.Forall₂ (fun p s => ReadsOff (reached p) s.functions s.loops) parts statements) :
    ReadsOff (parts.flatMap reached) (statements.flatMap Statement.functions)
      (statements.flatMap Statement.loops) := by
  induction h with
  | nil => exact readsOff_nil (by simp) (by simp)
  | cons hfirst _ ih => exact hfirst.append ih

theorem functions_fragments (fragments : List Fragment) :
    functionsOf fragments = (statementsIn fragments).flatMap Statement.functions := by
  induction fragments with
  | nil => rfl
  | cons fragment rest ih => cases fragment <;> simp [functionsOf, ih]

theorem loops_fragments (fragments : List Fragment) :
    loopsOf fragments = (statementsIn fragments).flatMap Statement.loops := by
  induction fragments with
  | nil => rfl
  | cons fragment rest ih => cases fragment <;> simp [loopsOf, ih]

theorem functions_ofFragments (fragments : List Fragment) :
    (ofFragments fragments).functions = (statementsIn fragments).flatMap Statement.functions ∧
      (ofFragments fragments).loops = (statementsIn fragments).flatMap Statement.loops := by
  rw [← statementsIn_trimLast]
  unfold ofFragments
  split
  · rename_i hnil
    rw [hnil]
    exact ⟨rfl, rfl⟩
  · rename_i text htext
    rw [htext]
    exact ⟨rfl, rfl⟩
  · rw [Statement.functions, Statement.loops, functions_fragments, loops_fragments]
    exact ⟨rfl, rfl⟩

theorem isDeclaration_of_isCut {t : Tree} (h : isCut t = true) :
    isDeclaration t = false ∧ isNode .forLoop t = false := by
  obtain ⟨children, rfl, hnone⟩ | ⟨kind, children, rfl, hkind⟩ := cut_cases h
  · exact ⟨by simp [isDeclaration, hnone], rfl⟩
  · cases kind <;> simp_all [isDeclaration, isNode]

theorem readsOff_of_not_cut {line : List Char} {t : Tree} {s : Statement} (h : isCut t = false)
    (hs : statementOf line t = .ok s) : ReadsOff [t] s.functions s.loops := by
  unfold isCut at h
  split at h
  case h_1 children =>
    cases hs
    exact readsOff_nil (by simp [isDeclaration]) (by simp [isNode])
  case h_2 children =>
    cases hs
    exact readsOff_nil (by simp [isDeclaration]) (by simp [isNode])
  case h_3 children =>
    rw [statementOf] at hs
    obtain ⟨f, hf, hs⟩ := bind_eq_ok.mp hs
    cases hs
    exact ⟨.cons ⟨line, line, hf⟩ .nil, rfl⟩
  case h_4 children =>
    rw [statementOf] at hs
    cases hfind : find? .function children with
    | none => simp [hfind] at h
    | some definition =>
        rw [hfind] at hs
        obtain ⟨f, hf, hs⟩ := bind_eq_ok.mp hs
        cases hs
        refine ⟨?_, rfl⟩
        rw [List.filter_cons_of_pos (by simp [isDeclaration, hfind])]
        exact .cons ⟨line, _, by simpa [decorationOf, definitionOf, hfind] using hf⟩ .nil
  case h_5 children =>
    cases hs
    exact ⟨.nil, rfl⟩
  case h_6 => cases h
  case h_7 g text =>
    cases hs
    exact readsOff_nil (by simp [isDeclaration]) (by simp [isNode])
  case h_8 l text =>
    cases hs
    exact readsOff_nil (by simp [isDeclaration]) (by simp [isNode])

theorem readsOff {line : List Char} {t : Tree} {s : Statement} (hs : statementOf line t = .ok s) :
    ReadsOff (reached t) s.functions s.loops := by
  by_cases hcut : isCut t = true
  · obtain ⟨fragments, hfragments, rfl⟩ := statementOf_cut hcut hs
    obtain ⟨hfunctions, hloops⟩ := functions_ofFragments (gather fragments)
    rw [hfunctions, hloops, statementsIn_gather, reached_of_isCut hcut]
    have hinner : List.Forall₂ (fun p s => ReadsOff (reached p) s.functions s.loops)
        (blockParts (childrenOf t)) (statementsIn fragments) := by
      refine (List.forall₂_and_left (p := fun p => p ∈ blockParts (childrenOf t)) _ _).mpr
        ⟨fun p => id, forall₂_blockParts hfragments⟩ |>.imp fun p s => ?_
      rintro ⟨hp, line, hs⟩
      exact readsOff hs
    obtain ⟨hdeclaration, hloop⟩ := isDeclaration_of_isCut hcut
    have hself : ReadsOff [t] [] [] :=
      readsOff_nil (by simpa using hdeclaration) (by simpa using hloop)
    exact hself.append (readsOff_flatMap hinner)
  · rw [Bool.not_eq_true] at hcut
    rw [reached_of_not_cut hcut]
    exact readsOff_of_not_cut hcut hs
termination_by sizeOf t
decreasing_by exact sizeOf_lt_of_mem_children hp

theorem readsOff_outline {trees : List Tree} {outline : Outline} (h : ofTrees trees = .ok outline) :
    ReadsOff (reachedAmong trees) outline.functions outline.loops := by
  rw [reachedAmong_eq]
  exact readsOff_flatMap ((forall₂_parts (statementsOf_of_ofTrees h)).imp fun _ _ ⟨_, hs⟩ =>
    readsOff hs)

/-- What conversion reads off the children of a definition. -/
def signatureOf (children : List Tree) : Signature where
  name := nameOf (header children).1
  isAsync := (header children).1.any (isLeaf .word ['a', 's', 'y', 'n', 'c'])
  type := (hintName? ((find? .hint (header children).1).map hintOf)).getD defaultType
  parameters := positionals (parametersOf false ((find? .parameters (header children).1).getD []))

theorem require_eq_ok {α : Type} {defect : Defect} {o : Option α} {a : α} :
    require defect o = .ok a ↔ o = some a := by
  cases o <;> simp [require]

theorem functionOf_eq_ok {outer line : List Char} {decorators : List String} {children : List Tree}
    {f : Function} (h : functionOf outer line decorators children = .ok f) :
    signature f = signatureOf children ∧ f.decorators = decorators := by
  unfold functionOf at h
  rcases hheader : header children with ⟨front, back⟩
  simp only [hheader] at h
  obtain ⟨name, hname, h⟩ := bind_eq_ok.mp h
  obtain ⟨parameters, hparameters, h⟩ := bind_eq_ok.mp h
  obtain ⟨block, -, h⟩ := bind_eq_ok.mp h
  obtain ⟨between, -, h⟩ := bind_eq_ok.mp h
  rw [require_eq_ok] at hname hparameters
  split at h
  · cases h
  · cases h
    refine ⟨?_, rfl⟩
    simp only [signature, signatureOf, typeOf, nameOf, hheader, hname, hparameters,
      Option.getD_some]

theorem signatureOf_withoutGaps {children : List Tree} (hsound : ∀ t ∈ children, Sound t) :
    signatureOf (withoutGaps children) = signatureOf children := by
  have hfront : ∀ t ∈ (header children).1, Sound t := fun t ht =>
    hsound t (header_subset children ht)
  have hparameters :
      positionals
        (parametersOf false ((find? .parameters (withoutGaps (header children).1)).getD [])) =
        positionals (parametersOf false ((find? .parameters (header children).1).getD [])) := by
    rw [find?_withoutGaps]
    cases hfind : find? .parameters (header children).1 with
    | none => rfl
    | some parameters =>
        exact positionals_withoutGaps false (hfront _ (mem_of_find? hfind)).children
  simp only [signatureOf, header_withoutGaps, nameOf, name?_withoutGaps, any_withoutGaps,
    hintName?_withoutGaps hfront, hparameters]

/-- Whether one of the decorators of a declaration is the marker. -/
def isMarked (settings : ConversionSettings) (t : Tree) : Bool :=
  (decoratorsOf (decorationOf t)).any fun d =>
    String.ofList (squeeze d.toList) == settings.strictMarker

def modeFor (marked : Bool) : Mode :=
  if marked then .strict else .relaxed

theorem modeFor_injective : Function.Injective modeFor := by
  unfold Function.Injective
  decide

theorem sound_definitionOf {t : Tree} (h : Sound t) : ∀ c ∈ definitionOf t, Sound c := by
  unfold definitionOf
  split
  · exact h.children
  · rename_i children
    cases hfind : find? .function children with
    | none => simp
    | some definition => exact (h.children _ (mem_of_find? hfind)).children
  · simp

theorem definitionOf_bared (t : Tree) : definitionOf (bared t) = withoutGaps (definitionOf t) := by
  cases t with
  | gap g text => simp [definitionOf]
  | leaf l text => simp [definitionOf]
  | node kind children =>
      cases kind <;> simp only [bared_node, definitionOf, withoutGaps_nil]
      rw [find?_withoutGaps]
      cases find? .function children <;> simp

theorem Declares.signature_eq {t : Tree} {f : Function} (h : Declares t f) :
    signature f = signatureOf (definitionOf t) := by
  obtain ⟨outer, line, hf⟩ := h
  exact (functionOf_eq_ok hf).1

theorem Declares.mode_eq {t : Tree} {f : Function} (h : Declares t f)
    (settings : ConversionSettings) :
    modeOf settings f = modeFor (isMarked settings t) := by
  obtain ⟨outer, line, hf⟩ := h
  rw [modeOf, (functionOf_eq_ok hf).2]
  rfl

theorem map_eq_of_forall₂ {α β γ : Type} {R : α → β → Prop} {f : α → γ} {g : β → γ} {as : List α}
    {bs : List β} (h : List.Forall₂ R as bs) (hfg : ∀ a b, R a b → g b = f a) :
      bs.map g = as.map f := by
  induction h with
  | nil => rfl
  | cons hfirst _ ih => rw [List.map_cons, List.map_cons, hfg _ _ hfirst, ih]

theorem decorationOf_bared (t : Tree) : decorationOf (bared t) = withoutGaps (decorationOf t) := by
  cases t with
  | gap g text => simp [decorationOf]
  | leaf l text => simp [decorationOf]
  | node kind children => cases kind <;> simp [decorationOf]

/-- What a loop iterates over. -/
def iterableIn (t : Tree) : List Tree :=
  (find? .iterable (childrenOf t)).getD []

/-- Whether a line continuation in the brackets of a loop hides a call of `range` from conversion.
-/
def hidesRange (t : Tree) : Bool :=
  joinedIterable (iterableIn t) && callsRange (iterated (withoutGaps (iterableIn t))).2.1

/-- Whether a loop with its gaps left out is converted. -/
def iteratesRange (t : Tree) : Bool :=
  callsRange (iterated (iterableIn (bared t))).2.1

theorem iterableIn_bared (t : Tree) : iterableIn (bared t) = withoutGaps (iterableIn t) := by
  rw [iterableIn, iterableIn, childrenOf_bared, find?_withoutGaps]
  cases find? .iterable (childrenOf t) <;> simp

theorem hidesRange_eq (t : Tree) :
    hidesRange t = (joinedIterable (iterableIn t) && iteratesRange t) := by
  rw [hidesRange, iteratesRange, iterableIn_bared]

theorem isConverted_loopOf {t : Tree} (h : Sound t) :
    isConverted (loopOf (childrenOf t)) = (iteratesRange t && !hidesRange t) := by
  have hiterable : Flush (iterableIn t) ∧ ∀ c ∈ iterableIn t, Sound c := by
    unfold iterableIn
    cases hfind : find? .iterable (childrenOf t) with
    | none => exact ⟨⟨begins_nil, ends_nil⟩, by simp⟩
    | some iterable =>
        have hnode := h.children _ (mem_of_find? hfind)
        exact ⟨hnode.flush .iterable, hnode.children⟩
  calc
    isConverted (loopOf (childrenOf t)) = callsRange (iterated (iterableIn t)).2.1 := rfl
    _ = (!joinedIterable (iterableIn t) &&
      callsRange (iterated (withoutGaps (iterableIn t))).2.1) :=
      callsRange_iterated hiterable.1 hiterable.2
    _ = (iteratesRange t && !hidesRange t) := by
      rw [hidesRange_eq, iteratesRange, iterableIn_bared]
      cases joinedIterable (iterableIn t) <;> simp

theorem map_eq_map_iff_of_forall₂ {α β γ : Type} {R : α → α → Prop} {f : α → β} {g : α → γ}
    {as bs : List α} (h : List.Forall₂ R as bs) (hfg : ∀ a b, R a b → (f a = f b ↔ g a = g b)) :
    as.map f = bs.map f ↔ as.map g = bs.map g := by
  induction h with
  | nil => simp
  | cons hfirst _ ih =>
      rw [List.map_cons, List.map_cons, List.map_cons, List.map_cons, List.cons.injEq,
        List.cons.injEq,
        hfg _ _ hfirst, ih]

/-- What conversion decides in an outline, said of the trees that it is read off. -/
structure Decided (settings : ConversionSettings) (trees : List Tree) (outline : Outline) :
    Prop where
  signatures : outline.functions.map signature =
    ((declarations trees).map bared).map fun t => signatureOf (definitionOf t)
  modes : outline.functions.map (modeOf settings) =
    ((declarations trees).map (isMarked settings)).map modeFor
  loops : outline.loops.map isConverted = (loops trees).map fun t =>
    iteratesRange t && !hidesRange t

theorem decided_of_read {source : List Char} {trees : List Tree} {outline : Outline}
    (hread : Outline.Reading.read source = .ok outline) (htrees : ofSource source = .ok trees)
    (settings : ConversionSettings) : Decided settings trees outline := by
  obtain ⟨trees', htrees', -, houtline⟩ := ofTrees_of_read hread
  obtain rfl : trees = trees' := Except.ok.inj (htrees.symm.trans htrees')
  have hreads := readsOff_outline houtline
  have hsound : ∀ t ∈ reachedAmong trees, Sound t := fun t ht =>
    inherits_sound.of_mem_reachedAmong (has_of_ofSource sound htrees) ht
  refine ⟨?_, ?_, ?_⟩
  · rw [map_eq_of_forall₂ hreads.functions fun t f h => h.signature_eq, List.map_map]
    refine List.map_congr_left fun t ht => ?_
    rw [Function.comp_apply, definitionOf_bared, signatureOf_withoutGaps]
    exact sound_definitionOf (hsound t (List.mem_filter.mp ht).1)
  · rw [map_eq_of_forall₂ hreads.functions fun t f h => h.mode_eq settings, List.map_map]
    rfl
  · rw [hreads.loops, List.map_map]
    exact List.map_congr_left fun t ht => isConverted_loopOf (hsound t (List.mem_filter.mp ht).1)

theorem countP_isTyped (parameters : List Parameter) :
    parameters.countP isTyped = (positionals parameters).countP fun p => p.2.isSome := by
  induction parameters with
  | nil => rfl
  | cons p rest ih =>
      cases p with
      | positional name hint default =>
          rw [positionals_positional, List.countP_cons, List.countP_cons, ih, isTyped]
      | positionalOnlyMarker => simpa [isTyped] using ih
      | verbatim text => simpa [isTyped] using ih

/-- What a function with a signature and a mode adds to the counts. -/
def signatureCounts (s : Signature) (mode : Mode) : Counts :=
  if s.isAsync then {}
  else
    { functions := 1
      strictFunctions := if mode = .strict then 1 else 0
      renamedParameters := .ofNat (s.parameters.countP fun p => p.2.isSome) }

theorem definitionCounts_eq (settings : ConversionSettings) (f : Function) :
    definitionCounts settings f = signatureCounts (signature f) (modeOf settings f) := by
  rw [definitionCounts, functionCounts, countP_isTyped]
  rfl

/-- The counts follow from what is decided of each function and loop. -/
theorem counts_eq_of {settings : ConversionSettings} {a b : Outline}
    (hsignatures : a.functions.map signature = b.functions.map signature)
    (hmodes : a.functions.map (modeOf settings) = b.functions.map (modeOf settings))
    (hloops : a.loops.map isConverted = b.loops.map isConverted) :
      counts settings a = counts settings b := by
  have hfunctions (functions : List Function) : functions.map (definitionCounts settings) =
      ((functions.map signature).zip (functions.map (modeOf settings))).map fun d =>
        signatureCounts d.1 d.2 := by
    rw [List.zip_map', List.map_map]
    exact List.map_congr_left fun f _ => definitionCounts_eq settings f
  have hcounts (loops : List Loop) : loops.map loopCounts =
      (loops.map isConverted).map fun c => { parallelLoops := if c then 1 else 0 } := by
    rw [List.map_map]
    rfl
  rw [counts_eq, counts_eq, countsOf, countsOf, hfunctions, hfunctions, hcounts, hcounts,
    hsignatures, hmodes,
    hloops]

theorem map_bared_eq {trees₁ trees₂ : List Tree} (hsame : withoutGaps trees₁ = withoutGaps trees₂)
    (p : Tree → Bool) [OfTokens p] :
    ((reachedAmong trees₁).filter p).map bared = ((reachedAmong trees₂).filter p).map bared := by
  rw [← reachedAmong_withoutGaps, ← reachedAmong_withoutGaps, hsame]

theorem forall₂_of_map_eq {α β : Type} {f : α → β} {as bs : List α} (h : as.map f = bs.map f) :
    List.Forall₂ (fun a b => f a = f b) as bs := by
  rwa [← List.forall₂_eq_eq_eq, List.forall₂_map_left_iff, List.forall₂_map_right_iff] at h

theorem same_iff_of_decided {settings : ConversionSettings} {trees₁ trees₂ : List Tree}
    {outline₁ outline₂ : Outline} (h₁ : Decided settings trees₁ outline₁)
    (h₂ : Decided settings trees₂ outline₂)
    (hdeclarations : (declarations trees₁).map bared = (declarations trees₂).map bared)
    (hloops : (loops trees₁).map bared = (loops trees₂).map bared) :
    SameDecisions settings outline₁ outline₂ ↔
      (declarations trees₁).map (isMarked settings) = (declarations trees₂).map
      (isMarked settings) ∧
        (loops trees₁).map hidesRange = (loops trees₂).map hidesRange := by
  have hmodes : outline₁.functions.map (modeOf settings) = outline₂.functions.map
    (modeOf settings) ↔
      (declarations trees₁).map (isMarked settings) = (declarations trees₂).map
        (isMarked settings) := by
    rw [h₁.modes, h₂.modes]
    exact (List.map_injective_iff.mpr modeFor_injective).eq_iff
  have hconverted : outline₁.loops.map isConverted = outline₂.loops.map isConverted ↔
      (loops trees₁).map hidesRange = (loops trees₂).map hidesRange := by
    rw [h₁.loops, h₂.loops]
    refine map_eq_map_iff_of_forall₂ (forall₂_of_map_eq hloops) fun t u htu => ?_
    have hiterates : iteratesRange t = iteratesRange u := by rw [iteratesRange, iteratesRange, htu]
    rw [hidesRange_eq, hidesRange_eq, hiterates]
    cases iteratesRange u <;> simp
  constructor
  · intro h
    exact ⟨hmodes.mp h.modes, hconverted.mp h.loops⟩
  · rintro ⟨hmarked, hhidden⟩
    have hsignatures : outline₁.functions.map signature = outline₂.functions.map signature := by
      rw [h₁.signatures, h₂.signatures, hdeclarations]
    have hmodes := hmodes.mpr hmarked
    have hconverted := hconverted.mpr hhidden
    exact ⟨hsignatures, hmodes, hconverted, counts_eq_of hsignatures hmodes hconverted⟩

mutual

/-- Whether the gaps in a tree are white space only. -/
def isSpaced : Tree → Bool
  | .gap .continuation _ => false
  | .gap _ text => (squeeze text).isEmpty
  | .leaf _ _ => true
  | .node _ children => areSpaced children

def areSpaced : List Tree → Bool
  | [] => true
  | t :: rest => isSpaced t && areSpaced rest

end

mutual

theorem squeeze_spell_bared (t : Tree) (h : isSpaced t = true) :
    squeeze (spell (bared t)) = squeeze (spell t) :=
  match t with
  | .gap g text => by rw [bared_gap]
  | .leaf l text => by rw [bared_leaf]
  | .node kind children => by
      rw [isSpaced] at h
      rw [bared_node, spell, spell, squeeze_spell_withoutGaps children h]

theorem squeeze_spell_withoutGaps (ts : List Tree) (h : areSpaced ts = true) :
    squeeze (spellAll (withoutGaps ts)) = squeeze (spellAll ts) :=
  match ts with
  | [] => by rw [withoutGaps_nil]
  | t :: rest => by
      rw [areSpaced, Bool.and_eq_true] at h
      have hrest := squeeze_spell_withoutGaps rest h.2
      by_cases hgap : isGap t = true
      · have hnone : squeeze (spell t) = [] := by
          cases t with
          | gap g text => cases g <;> simp_all [isSpaced, spell]
          | leaf l text => cases hgap
          | node kind children => cases hgap
        rw [withoutGaps_of_isGap hgap, spellAll, squeeze_append, hnone, List.nil_append, hrest]
      · rw [withoutGaps_cons (by simpa using hgap), spellAll, spellAll, squeeze_append,
          squeeze_append, hrest,
          squeeze_spell_bared t h.1]

end

/-- The part of a decorator that is compared with the marker. -/
def decorationIn (decorator : Tree) : Option Tree :=
  (childrenOf decorator).find? isPart

def decoratorText (decorator : Tree) : List Char :=
  ((decorationIn decorator).map spell).getD []

theorem decoratorsOf_eq (ts : List Tree) :
    decoratorsOf ts = (ts.filter (isNode .decorator)).map fun d =>
      String.ofList (decoratorText d) := by
  refine List.map_congr_left fun d _ => ?_
  unfold decoratorText decorationIn
  cases (childrenOf d).find? isPart <;> rfl

/-- Whether nothing but white space stands between the tokens of the decorators of a declaration. -/
def hasSpacedDecorators (t : Tree) : Bool :=
  ((decorationOf t).filter (isNode .decorator)).all fun d => (decorationIn d).all isSpaced

theorem find?_isPart_withoutGaps (ts : List Tree) :
    (withoutGaps ts).find? isPart = (ts.find? isConstruct).map bared := by
  have hparts : (withoutGaps ts).find? isPart = (withoutGaps ts).find? isConstruct := by
    rw [← List.head?_filter, ← List.head?_filter,
      filter_isPart_eq (any_isContinuation_withoutGaps ts)]
  rw [hparts, first_withoutGaps]

theorem find?_isConstruct {ts : List Tree} (h : (ts.find? isPart).all isSpaced = true) :
    ts.find? isConstruct = ts.find? isPart := by
  induction ts with
  | nil => rfl
  | cons t rest ih =>
      cases t with
      | gap g text =>
          cases g with
          | continuation => cases h
          | blank => exact ih h
          | comment => exact ih h
      | leaf l text => exact ih h
      | node kind children => rfl

theorem squeeze_decoratorText_bared {d : Tree} (h : (decorationIn d).all isSpaced = true) :
    squeeze (decoratorText (bared d)) = squeeze (decoratorText d) := by
  have hpart : decorationIn (bared d) = (decorationIn d).map bared := by
    rw [decorationIn, childrenOf_bared, find?_isPart_withoutGaps, find?_isConstruct h, decorationIn]
  rw [decoratorText, decoratorText, hpart]
  cases hfound : decorationIn d with
  | none => rfl
  | some part =>
      rw [hfound, Option.all_some] at h
      exact squeeze_spell_bared part h

theorem isMarked_eq (settings : ConversionSettings) (t : Tree) :
    isMarked settings t =
      (((decorationOf t).filter (isNode .decorator)).map fun d =>
        squeeze (decoratorText d)).any fun text =>
        String.ofList text == settings.strictMarker := by
  rw [isMarked, decoratorsOf_eq, List.any_map, List.any_map]
  simp only [Function.comp_def, String.toList_ofList]

theorem isMarked_bared {t : Tree} (h : hasSpacedDecorators t = true)
    (settings : ConversionSettings) :
    isMarked settings (bared t) = isMarked settings t := by
  rw [isMarked_eq, isMarked_eq, decorationOf_bared, filter_withoutGaps, List.map_map]
  refine congrArg (List.any · _) (List.map_congr_left fun d hd => ?_)
  exact squeeze_decoratorText_bared (List.all_eq_true.mp h d hd)

/-- Conversion decides the same in two sources with the same tokens exactly if they agree on which
declarations carry the marker and which loops hide their call of `range`. They agree if nothing but
white space stands between the tokens of a decorator and no loop hides its call. -/
theorem same_decisions_iff (settings : ConversionSettings) {source₁ source₂ : List Char}
    {outline₁ outline₂ : Outline} {trees₁ trees₂ : List Tree}
    (hread₁ : Outline.Reading.read source₁ = .ok outline₁)
    (hread₂ : Outline.Reading.read source₂ = .ok outline₂)
    (htrees₁ : ofSource source₁ = .ok trees₁) (htrees₂ : ofSource source₂ = .ok trees₂)
    (hsame : withoutGaps trees₁ = withoutGaps trees₂) :
    (SameDecisions settings outline₁ outline₂ ↔
      (declarations trees₁).map (isMarked settings) = (declarations trees₂).map
      (isMarked settings) ∧
        (loops trees₁).map hidesRange = (loops trees₂).map hidesRange) ∧
      ((∀ t ∈ declarations trees₁ ++ declarations trees₂, hasSpacedDecorators t = true) →
        (∀ t ∈ loops trees₁ ++ loops trees₂, hidesRange t = false) →
          SameDecisions settings outline₁ outline₂) := by
  have hdecided₁ := decided_of_read hread₁ htrees₁ settings
  have hdecided₂ := decided_of_read hread₂ htrees₂ settings
  have hdeclarations : (declarations trees₁).map bared = (declarations trees₂).map bared :=
    map_bared_eq hsame isDeclaration
  have hloops : (loops trees₁).map bared = (loops trees₂).map bared :=
    map_bared_eq hsame (isNode .forLoop)
  have hiff := same_iff_of_decided hdecided₁ hdecided₂ hdeclarations hloops
  refine ⟨hiff, fun hplain hshown => hiff.mpr ⟨?_, ?_⟩⟩
  · have hbared (trees : List Tree) (h : ∀ t ∈ declarations trees, hasSpacedDecorators t = true) :
        (declarations trees).map (isMarked settings) =
          ((declarations trees).map bared).map (isMarked settings) := by
      rw [List.map_map]
      exact List.map_congr_left fun t ht => (isMarked_bared (h t ht) settings).symm
    obtain ⟨hplain₁, hplain₂⟩ := List.forall_mem_append.mp hplain
    rw [hbared trees₁ hplain₁, hbared trees₂ hplain₂, hdeclarations]
  · have hnone (trees : List Tree) (h : ∀ t ∈ loops trees, hidesRange t = false) :
        (loops trees).map hidesRange = List.replicate ((loops trees).map bared).length false := by
      rw [List.length_map]
      exact List.eq_replicate_iff.mpr ⟨List.length_map _, by simpa using h⟩
    obtain ⟨hshown₁, hshown₂⟩ := List.forall_mem_append.mp hshown
    rw [hnone trees₁ hshown₁, hnone trees₂ hshown₂, hloops]

/-- A marked function and a loop, with white space and a comment between the tokens. -/
def spaced : List Char :=
  "@ cython . ccall\ndef f ( a : int, # first\n  b ): pass\nfor i in ( range (3) ): pass\n".toList

def dense : List Char :=
  "@cython.ccall\ndef f(a:int,b):pass\nfor i in(range(3)):pass\n".toList

theorem spaced_decides_same :
    ∃ (outline₁ outline₂ : Outline) (trees₁ trees₂ : List Tree),
      Outline.Reading.read spaced = .ok outline₁ ∧ Outline.Reading.read dense = .ok outline₂ ∧
        ofSource spaced = .ok trees₁ ∧ ofSource dense = .ok trees₂ ∧
          withoutGaps trees₁ = withoutGaps trees₂ ∧ SameDecisions {} outline₁ outline₂ := by
  obtain ⟨outline₁, hread₁⟩ := exists_of_isOk (x := Outline.Reading.read spaced) (by decide +kernel)
  obtain ⟨outline₂, hread₂⟩ := exists_of_isOk (x := Outline.Reading.read dense) (by decide +kernel)
  obtain ⟨trees₁, htrees₁, -⟩ := ofTrees_of_read hread₁
  obtain ⟨trees₂, htrees₂, -⟩ := ofTrees_of_read hread₂
  have hevents : (ofSource spaced).toOption.map (eventsOfAll <| withoutGaps ·) =
      (ofSource dense).toOption.map (eventsOfAll <| withoutGaps ·) := by
    decide +kernel
  have hclean :
    (ofSource spaced).toOption.bind (fun trees₁ => (ofSource dense).toOption.map fun trees₂ =>
      (declarations trees₁ ++ declarations trees₂).all hasSpacedDecorators &&
        (loops trees₁ ++ loops trees₂).all fun t => !hidesRange t) = some true := by
    decide +kernel
  rw [htrees₁, htrees₂] at hevents hclean
  have hsame := eventsOfAll_inj (Option.some.inj hevents)
  obtain ⟨hplain, hshown⟩ := Bool.and_eq_true_iff.mp (Option.some.inj hclean)
  refine ⟨outline₁, outline₂, trees₁, trees₂, hread₁, hread₂, htrees₁, htrees₂, hsame, ?_⟩
  refine (same_decisions_iff {} hread₁ hread₂ htrees₁ htrees₂ hsame).2
    (List.all_eq_true.mp hplain) ?_
  exact fun t ht => by simpa using List.all_eq_true.mp hshown t ht

end Cythonizer.Proofs.Outline.Invariance
