import Cythonizer.Proofs.Outline.Declarations
import Cythonizer.Proofs.Outline.Traversal

/-!
The parameters of a function in an outline. They are those of its definition, one for one, if no
line continuation stands among them (`one_to_one_iff`). A conversion then leaves what stands from
the first star on as it was written and renames exactly the parameters before it whose type hint is
a single name.
-/

namespace Cythonizer.Proofs.Outline.Interface

open Cythonizer.Outline.Basic
open Cythonizer.Outline.Conversion
open Cythonizer.Outline.OfTree
open Cythonizer.Outline.Rendering
open Cythonizer.Settings.Basic
open Cythonizer.Source.Syntax
open Cythonizer.Source.Trees
open Cythonizer.Proofs.Outline.Correspondence
open Cythonizer.Proofs.Outline.Declarations
open Cythonizer.Proofs.Outline.Defects
open Cythonizer.Proofs.Outline.Invariance
open Cythonizer.Proofs.Outline.Loops
open Cythonizer.Proofs.Outline.Segments
open Cythonizer.Proofs.Outline.Traversal
open Cythonizer.Proofs.Source.Contents
open Cythonizer.Proofs.Source.Parameters
open Cythonizer.Proofs.Source.Statements
open Cythonizer.Proofs.Source.Telling

/-- The trees of the parameter list of a declaration. -/
def parameterListOf (t : Tree) : List Tree :=
  (find? .parameters (header (definitionOf t)).1).getD []

/-- The parameters of a list before the first star. -/
def beforeStar (list : List Tree) : List Tree :=
  (list.filter isConstruct).takeWhile fun t => !isNode .star t

/-- The parameters of a list from the first star on. -/
def fromStar (list : List Tree) : List Tree :=
  (list.filter isConstruct).dropWhile fun t => !isNode .star t

/-- Whether a type hint is a single name. -/
def IsBareName (hint : List Tree) : Prop :=
  ∃ name, hint = [.leaf .name name] ∨ hint = [.node .expression [.leaf .name name]]

/-- A hint with the text of the trees, told apart as a name exactly if they are one. -/
structure Annotates (trees : List Tree) (hint : Hint) : Prop where
  text : hint.text = textOf trees
  bare : hint.name?.isSome = true ↔ IsBareName trees

/-- A parameter before the first star, and what is known of it. -/
inductive Lowers : Tree → Parameter → Prop
  | named {children : List Tree} {name : List Char} {trees default : Option (List Tree)}
    {hint : Option Hint}
      (h : IsNamed children name trees default) (hhint : Option.Rel Annotates trees hint) :
      Lowers (.node .named children) (.positional (String.ofList name) hint (default.map textOf))
  | slash : Lowers (.node .slash [.leaf .sign ['/']]) .positionalOnlyMarker
  | special (children : List Tree) : Lowers (.node .special children) (.verbatim (textOf children))

/-- A parameter that is kept as it was written. -/
inductive Keeps : Tree → Parameter → Prop
  | slash : Keeps (.node .slash [.leaf .sign ['/']]) .positionalOnlyMarker
  | verbatim {t : Tree} (h : isNode .slash t = false) :
    Keeps t (.verbatim (String.ofList (spell t)))

/-- The parameters of a list, one for one and in order. Those from the first star on are kept. -/
def OneToOne (R : Tree → Parameter → Prop) (list : List Tree) (parameters : List Parameter) :
    Prop :=
  ∃ ps qs, parameters = ps ++ qs ∧ List.Forall₂ R (beforeStar list) ps ∧
    List.Forall₂ Keeps (fromStar list) qs

theorem find?_append_or (kind : Kind) (ts us : List Tree) :
    find? kind (ts ++ us) = (find? kind ts).or (find? kind us) := by
  rw [find?, find?, find?, List.find?_append]
  cases ts.find? (isNode kind) <;> rfl

theorem find?_of_areGaps {gaps : List Tree} (h : AreGaps gaps) (kind : Kind) :
    find? kind gaps = none := by
  have hnone : ∀ t ∈ gaps, isNode kind t = false := by
    intro t ht
    obtain ⟨g, text, rfl, -⟩ := h t ht
    rfl
  simpa [find?] using hnone

theorem find?_singleton (kind other : Kind) (children : List Tree) :
    find? other [.node kind children] = if kind = other then some children else none := by
  by_cases h : kind = other <;> simp [find?, isNode, childrenOf, h]

theorem find?_of_isAttached {kind : Kind} {sign : List Char} {ts : List Tree}
    {found : Option (List Tree)}
    (h : IsAttached kind sign ts found) (other : Kind) :
    find? other ts = if kind = other then found else none := by
  cases h with
  | none => simp [find?]
  | some hgaps hbetween =>
      rw [find?_append_or, find?_of_areGaps hgaps, Layout.find?_cons rfl, find?_append_or,
        find?_of_areGaps hbetween, find?_singleton]
      rfl

theorem find?_of_isNamed {children : List Tree} {name : List Char}
    {hint default : Option (List Tree)}
    (h : IsNamed children name hint default) :
    find? .hint children = hint ∧ find? .default children = default := by
  obtain ⟨hhint, hdefault⟩ := h
  rw [Layout.find?_cons rfl, Layout.find?_cons rfl, find?_append_or, find?_append_or,
    find?_of_isAttached hhint, find?_of_isAttached hhint, find?_of_isAttached hdefault,
    find?_of_isAttached hdefault]
  simp

theorem annotates_hintOf (trees : List Tree) : Annotates trees (hintOf trees) where
  text := Layout.hintOf_text trees
  bare := by
    unfold hintOf IsBareName
    split
    · simp [Hint.name?]
    · simp [Hint.name?]
    · simp_all [Hint.name?]

theorem annotates_map_hintOf (hint : Option (List Tree)) :
    Option.Rel Annotates hint (hint.map hintOf) := by
  cases hint with
  | none => exact .none
  | some trees => exact .some (annotates_hintOf trees)

theorem lowers_named {children : List Tree} {name : List Char} {hint default : Option (List Tree)}
    (h : IsNamed children name hint default) :
    Lowers (.node .named children)
      (.positional (nameOf children) ((find? .hint children).map hintOf)
        ((find? .default children).map textOf)) := by
  have hname : nameOf children = String.ofList name := by
    obtain ⟨-, -⟩ := h
    rfl
  obtain ⟨hhint, hdefault⟩ := find?_of_isNamed h
  rw [hname, hhint, hdefault]
  exact .named h (annotates_map_hintOf hint)

instance {K : Tree → Prop} : HasGaps fun t => isConstruct t = true → K t where
  gap _ h := by cases h

theorem isParameter_of_mem {list : List Tree} (h : IsParameterList list) :
    ∀ t ∈ list, isConstruct t = true → IsParameter t :=
  forall_isParameterList (L := fun t => isConstruct t = true → IsParameter t)
    (by simp [isConstruct])
    (fun _ h _ => h) h

theorem parametersOf_skip {t : Tree} (hconstruct : isConstruct t = false)
    (hgap : isContinuation t = false)
    (keywordOnly : Bool) (rest : List Tree) :
    parametersOf keywordOnly (t :: rest) = parametersOf keywordOnly rest := by
  cases t with
  | gap g text =>
      cases g with
      | blank => simp [parametersOf]
      | comment => simp [parametersOf]
      | continuation => cases hgap
  | leaf l text => rw [parametersOf]
  | node kind children => cases hconstruct

section

variable {list : List Tree} (h : ∀ t ∈ list, isConstruct t = true → IsParameter t)
  (hjoined : ∀ t ∈ list, isContinuation t = false)

include h hjoined

theorem keeps_parametersOf :
    List.Forall₂ Keeps (list.filter isConstruct) (parametersOf true list) := by
  induction list with
  | nil => exact .nil
  | cons t rest ih =>
      obtain ⟨hfirst, h⟩ := List.forall_mem_cons.mp h
      obtain ⟨hgap, hjoined⟩ := List.forall_mem_cons.mp hjoined
      have ih := ih h hjoined
      cases hconstruct : isConstruct t with
      | false =>
        rwa [List.filter_cons_of_neg (by simp [hconstruct]), parametersOf_skip hconstruct hgap]
      | true =>
          rw [List.filter_cons_of_pos hconstruct]
          cases hfirst hconstruct with
          | named _ => exact .cons (.verbatim rfl) ih
          | star _ => exact .cons (.verbatim rfl) ih
          | slash => exact .cons .slash ih
          | keywords _ => exact .cons (.verbatim rfl) ih
          | tuple _ => exact .cons (.verbatim rfl) ih

theorem oneToOne_parametersOf : OneToOne Lowers list (parametersOf false list) := by
  induction list with
  | nil => exact ⟨[], [], rfl, .nil, .nil⟩
  | cons t rest ih =>
      have hkept := keeps_parametersOf h hjoined
      obtain ⟨hfirst, h⟩ := List.forall_mem_cons.mp h
      obtain ⟨hgap, hjoined⟩ := List.forall_mem_cons.mp hjoined
      obtain ⟨ps, qs, heq, hps, hqs⟩ := ih h hjoined
      cases hconstruct : isConstruct t with
      | false =>
          rw [parametersOf_skip hconstruct hgap, OneToOne, beforeStar, fromStar,
            List.filter_cons_of_neg (by simp [hconstruct])]
          exact ⟨ps, qs, heq, hps, hqs⟩
      | true =>
          cases hfirst hconstruct with
          | star _ => exact ⟨[], _, rfl, .nil, hkept⟩
          | named hnamed =>
            exact ⟨_ :: ps, qs, congrArg _ heq, .cons (lowers_named hnamed) hps, hqs⟩
          | slash => exact ⟨_ :: ps, qs, congrArg _ heq, .cons .slash hps, hqs⟩
          | keywords _ => exact ⟨_ :: ps, qs, congrArg _ heq, .cons (.special _) hps, hqs⟩
          | tuple _ => exact ⟨_ :: ps, qs, congrArg _ heq, .cons (.special _) hps, hqs⟩

end

theorem length_parametersOf (keywordOnly : Bool) (list : List Tree) :
    (parametersOf keywordOnly list).length =
      list.countP isConstruct + list.countP isContinuation := by
  induction list generalizing keywordOnly with
  | nil => rfl
  | cons t rest ih =>
      rw [List.countP_cons, List.countP_cons]
      cases t with
      | gap g text =>
        cases g <;> simp [parametersOf, ih, isConstruct, isContinuation, Nat.add_assoc]
      | leaf l text => simp [parametersOf, ih, isConstruct, isContinuation]
      | node kind children =>
          cases kind <;> simp [parametersOf, ih, isConstruct, isContinuation, Nat.add_right_comm]

theorem OneToOne.length {R : Tree → Parameter → Prop} {list : List Tree}
    {parameters : List Parameter}
    (h : OneToOne R list parameters) : parameters.length = list.countP isConstruct := by
  obtain ⟨ps, qs, rfl, hps, hqs⟩ := h
  rw [List.length_append, ← hps.length_eq, ← hqs.length_eq, ← List.length_append,
    beforeStar, fromStar,
    List.takeWhile_append_dropWhile, List.countP_eq_length_filter]

theorem forall_isContinuation_iff (list : List Tree) :
    (∀ t ∈ list, isContinuation t = false) ↔ ∀ text, .gap .continuation text ∉ list := by
  constructor
  · intro h text hmem
    cases h _ hmem
  · intro h t ht
    cases t with
    | gap g text =>
        cases g with
        | continuation => exact absurd ht (h text)
        | blank => rfl
        | comment => rfl
    | leaf l text => rfl
    | node kind children => rfl

theorem OneToOne.not_joined {R : Tree → Parameter → Prop} {list : List Tree}
    {parameters : List Parameter}
    (h : OneToOne R list parameters)
    (hlength : parameters.length = (parametersOf false list).length) :
    ∀ text, .gap .continuation text ∉ list := by
  rw [h.length, length_parametersOf] at hlength
  have hnone : list.countP isContinuation = 0 := by omega
  rw [← forall_isContinuation_iff]
  simpa using List.countP_eq_zero.mp hnone

theorem oneToOne_iff {list : List Tree} (h : IsParameterList list) :
    OneToOne Lowers list (parametersOf false list) ↔ ∀ text, .gap .continuation text ∉ list := by
  constructor
  · exact fun hone => hone.not_joined rfl
  · intro hjoined
    exact oneToOne_parametersOf (isParameter_of_mem h)
      ((forall_isContinuation_iff list).mpr hjoined)

theorem parameters_of_declares {t : Tree} {f : Function} (h : Declares t f) (hsound : Sound t)
    (hdeclaration : isDeclaration t = true) :
    IsParameterList (parameterListOf t) ∧ f.parameters =
      parametersOf false (parameterListOf t) := by
  obtain ⟨outer, line, hf⟩ := h
  obtain ⟨front, between, block, hsplits⟩ :=
    splits_of_isDefinition (isDefinition_definitionOf hsound hdeclaration)
  obtain ⟨parameters, hparameters, hlist⟩ := hsplits.parameters
  have hlistOf : parameterListOf t = parameters := by
    rw [parameterListOf, hsplits.header, hparameters, Option.getD_some]
  obtain ⟨-, rfl⟩ := functionOf_of_splits hsplits hparameters hf
  rw [hlistOf]
  exact ⟨hlist, rfl⟩

/-- A parameter before the first star after a conversion. -/
inductive Renames : Tree → Parameter → Prop
  | named {children : List Tree} {name : List Char} {hint : List Tree}
    {default : Option (List Tree)}
      (h : IsNamed children name (some hint) default) (hbare : IsBareName hint) :
      Renames (.node .named children)
        (.positional (textOf hint ++ String.ofList name) none (default.map textOf))
  | kept {t : Tree} {p : Parameter} (h : Lowers t p) (huntyped : isTyped p = false) : Renames t p

/-- What is left of the parameters of a list when its function has been converted, and what is
printed of those from the first star on. -/
structure KeepsInterface (list : List Tree) (f : Function) : Prop where
  parameters : OneToOne (if f.isAsync then Lowers else Renames) list f.parameters
  printed : renderParameters f.parameters =
    ", ".intercalate ((f.parameters.take (beforeStar list).length).map renderParameter ++
      (fromStar list).map fun t => String.ofList (spell t))

theorem Lowers.renames {t : Tree} {p : Parameter} (h : Lowers t p) : Renames t (foldHint p) := by
  cases h with
  | slash => exact .kept .slash rfl
  | special children => exact .kept (.special children) rfl
  | named hnamed hhint =>
      cases hhint with
      | none => exact .kept (.named hnamed .none) rfl
      | @some trees hint hannotates =>
          cases hint with
          | name text =>
              have htext : text = textOf trees := hannotates.text
              have hbare : IsBareName trees := hannotates.bare.mp rfl
              simpa [foldHint, hintName?, Hint.name?, typePrefixed, htext] using
                Renames.named hnamed hbare
          | expression text => exact .kept (.named hnamed (.some hannotates)) rfl

theorem Keeps.foldHint_eq {t : Tree} {p : Parameter} (h : Keeps t p) : foldHint p = p := by
  cases h <;> rfl

theorem map_foldHint_of_keeps {ts : List Tree} {ps : List Parameter}
    (h : List.Forall₂ Keeps ts ps) :
    ps.map foldHint = ps := by
  induction h with
  | nil => rfl
  | cons hfirst _ ih => rw [List.map_cons, hfirst.foldHint_eq, ih]

theorem Keeps.renderParameter_eq {t : Tree} {p : Parameter} (h : Keeps t p) :
    renderParameter p = String.ofList (spell t) := by
  cases h with
  | slash => simp [renderParameter, spell, spellAll]
  | verbatim _ => rfl

theorem OneToOne.map_foldHint {list : List Tree} {parameters : List Parameter}
    (h : OneToOne Lowers list parameters) : OneToOne Renames list (parameters.map foldHint) := by
  obtain ⟨ps, qs, rfl, hps, hqs⟩ := h
  have hrenamed : List.Forall₂ Renames (beforeStar list) (ps.map foldHint) :=
    List.forall₂_map_right_iff.mpr (hps.imp fun _ _ h => h.renames)
  exact ⟨ps.map foldHint, qs, by rw [List.map_append, map_foldHint_of_keeps hqs], hrenamed, hqs⟩

/-- What stands from the first star on is printed as it was written. -/
theorem OneToOne.renderParameters_eq {R : Tree → Parameter → Prop} {list : List Tree}
    {parameters : List Parameter} (h : OneToOne R list parameters) :
    renderParameters parameters =
      ", ".intercalate ((parameters.take (beforeStar list).length).map renderParameter ++
        (fromStar list).map fun t => String.ofList (spell t)) := by
  obtain ⟨ps, qs, rfl, hps, hqs⟩ := h
  have hprinted : qs.map renderParameter = (fromStar list).map fun t => String.ofList (spell t) :=
    map_eq_of_forall₂ hqs fun t p hp => hp.renderParameter_eq
  rw [hps.length_eq, List.take_left, renderParameters, List.map_append, hprinted]

theorem keepsInterface_converted {list : List Tree} {f : Function}
    (h : OneToOne Lowers list f.parameters)
    (settings : ConversionSettings) : KeepsInterface list (converted settings f) := by
  have hparameters : OneToOne (if (converted settings f).isAsync then Lowers else Renames) list
      (converted settings f).parameters := by
    unfold converted
    cases hasync : f.isAsync with
    | true => simpa [hasync] using h
    | false => simpa [convertFunction, hasync] using h.map_foldHint
  exact ⟨hparameters, hparameters.renderParameters_eq⟩

theorem sound_of_mem_declarations {source : List Char} {trees : List Tree} {t : Tree}
    (h : ofSource source = .ok trees) (ht : t ∈ declarations trees) :
      Sound t ∧ isDeclaration t = true := by
  obtain ⟨hreached, hdeclaration⟩ := List.mem_filter.mp ht
  exact ⟨inherits_sound.of_mem_reachedAmong (has_of_ofSource sound h) hreached, hdeclaration⟩

/-- A function has the parameters of a declaration, one for one and in order, exactly if no line
continuation stands among them. -/
structure ReadsParameters (t : Tree) (f : Function) : Prop where
  list : IsParameterList (parameterListOf t)
  one_to_one : OneToOne Lowers (parameterListOf t) f.parameters ↔
    ∀ text, .gap .continuation text ∉ parameterListOf t

theorem readsParameters_of_read {source : List Char} {outline : Outline} {trees : List Tree}
    (hread : Outline.Reading.read source = .ok outline) (htrees : ofSource source = .ok trees) :
    List.Forall₂ ReadsParameters (declarations trees) outline.functions := by
  obtain ⟨trees', htrees', -, houtline⟩ := ofTrees_of_read hread
  obtain rfl : trees = trees' := Except.ok.inj (htrees.symm.trans htrees')
  refine (forall₂_mem (readsOff_outline houtline).functions).imp fun t f => ?_
  rintro ⟨ht, hdeclares⟩
  obtain ⟨hsound, hdeclaration⟩ := sound_of_mem_declarations htrees ht
  obtain ⟨hlist, hparameters⟩ := parameters_of_declares hdeclares hsound hdeclaration
  refine ⟨hlist, ?_⟩
  rw [hparameters, oneToOne_iff hlist]

/-- The parameters of every function in an outline are those of its definition, one for one and in
order, exactly if no line continuation stands among them. Then every conversion keeps what stands
from the first star on as it was written, and puts the type in front of the name of exactly those
parameters before it whose hint is a single name. -/
theorem one_to_one_iff {source : List Char} {outline : Outline} {trees : List Tree}
    (hread : Outline.Reading.read source = .ok outline) (htrees : ofSource source = .ok trees) :
    List.Forall₂ ReadsParameters (declarations trees) outline.functions ∧
    ∀ settings, List.Forall₂ (fun t f => (∀ text, .gap .continuation text ∉ parameterListOf t) →
        KeepsInterface (parameterListOf t) f)
      (declarations trees) (convert settings outline).functions := by
  have hone := readsParameters_of_read hread htrees
  refine ⟨hone, fun settings => ?_⟩
  rw [convert_eq, functions_change, List.forall₂_map_right_iff]
  exact hone.imp fun t f h hjoined => keepsInterface_converted (h.one_to_one.mpr hjoined) settings

/-- Parameters of every form. -/
def everyForm : List Char :=
  "def f(a: int = 1, (b, c), /, d=2, *, e: str, **g): pass\n".toList

theorem one_to_one_everyForm :
    ∃ (outline : Outline) (trees : List Tree), Outline.Reading.read everyForm = .ok outline ∧
      ofSource everyForm = .ok trees ∧
      (List.Forall₂ ReadsParameters (declarations trees) outline.functions ∧
      ∀ settings, List.Forall₂ (fun t f => (∀ text, .gap .continuation text ∉ parameterListOf t) →
          KeepsInterface (parameterListOf t) f)
        (declarations trees) (convert settings outline).functions) ∧
      outline.functions.map (·.parameters.length) = [7] := by
  obtain ⟨outline, hread⟩ := exists_of_isOk (x := Outline.Reading.read everyForm)
    (by decide +kernel)
  obtain ⟨trees, htrees, -⟩ := ofTrees_of_read hread
  have hlength : (Outline.Reading.read everyForm).toOption.map
      (·.functions.map (·.parameters.length)) = some [7] := by
    decide +kernel
  rw [hread] at hlength
  exact ⟨outline, trees, hread, htrees, one_to_one_iff hread htrees, Option.some.inj hlength⟩

/-- A line continuation between two parameters: the outline has a third one. -/
def joinedParameters : List Char :=
  "def f(a, \\\n      b): pass\n".toList

theorem lengths_joinedParameters :
    ∃ (outline : Outline) (trees : List Tree), Outline.Reading.read joinedParameters = .ok outline ∧
      ofSource joinedParameters = .ok trees ∧ outline.functions.map (·.parameters.length) = [3] ∧
      ((declarations trees).map fun t => (parameterListOf t).countP isConstruct) = [2] ∧
      ((Layout.declarations trees).map fun part => (parameterListOf part.2).countP isConstruct) =
      [2] := by
  obtain ⟨outline, hread⟩ := exists_of_isOk (x := Outline.Reading.read joinedParameters)
    (by decide +kernel)
  obtain ⟨trees, htrees, -⟩ := ofTrees_of_read hread
  have houtline : (Outline.Reading.read joinedParameters).toOption.map
      (·.functions.map (·.parameters.length)) = some [3] := by
    decide +kernel
  have hsource : (ofSource joinedParameters).toOption.map (fun trees =>
      ((declarations trees).map fun t => (parameterListOf t).countP isConstruct,
        (Layout.declarations trees).map fun part => (parameterListOf part.2).countP isConstruct)) =
      some ([2], [2]) := by
    decide +kernel
  rw [hread] at houtline
  rw [htrees] at hsource
  obtain ⟨hlist, hparts⟩ := Prod.mk.inj (Option.some.inj hsource)
  exact ⟨outline, trees, hread, htrees, Option.some.inj houtline, hlist, hparts⟩

theorem joined_parameters_not_one_to_one :
    ¬∀ (source : List Char) (outline : Outline) (trees : List Tree),
      Outline.Reading.read source = .ok outline → ofSource source = .ok trees →
        List.Forall₂ (fun t f => OneToOne Lowers (parameterListOf t) f.parameters)
          (declarations trees)
          outline.functions := by
  intro hall
  obtain ⟨outline, trees, hread, htrees, hfunctions, hlist, -⟩ := lengths_joinedParameters
  have hlengths := map_eq_of_forall₂ (hall joinedParameters outline trees hread htrees) fun t f h =>
    h.length
  rw [hfunctions, hlist] at hlengths
  cases hlengths

end Cythonizer.Proofs.Outline.Interface
