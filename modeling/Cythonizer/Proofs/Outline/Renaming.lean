import Mathlib.Data.List.Nodup
import Cythonizer.Proofs.Outline.Interface
import Cythonizer.Proofs.Source.Naming
import Cythonizer.Proofs.Source.Rereading

/-!
The names of parameters when types are put in front of them. Names that differ may become one, which
they do exactly if they clash (`nodup_renamed_iff`), and a name may become a reserved word.
Everything else about a list of parameters is kept: the list that is printed has the trees
`recastAll`, which are a parameter list again.
-/

namespace Cythonizer.Proofs.Outline.Renaming

open Cythonizer.Outline.Basic
open Cythonizer.Outline.Conversion
open Cythonizer.Outline.OfTree
open Cythonizer.Outline.Rendering
open Cythonizer.Settings.Basic
open Cythonizer.Source.Rules.Parameter
open Cythonizer.Source.Rules.Phrases
open Cythonizer.Source.Syntax
open Cythonizer.Source.Trees
open Cythonizer.Proofs.Outline.Correspondence
open Cythonizer.Proofs.Outline.Decisions
open Cythonizer.Proofs.Outline.Declarations
open Cythonizer.Proofs.Outline.Interface
open Cythonizer.Proofs.Outline.Invariance
open Cythonizer.Proofs.Outline.Loops
open Cythonizer.Proofs.Outline.Segments
open Cythonizer.Proofs.Outline.Tokens
open Cythonizer.Proofs.Source.Contents
open Cythonizer.Proofs.Source.Gaps
open Cythonizer.Proofs.Source.Lookahead
open Cythonizer.Proofs.Source.Naming
open Cythonizer.Proofs.Source.Parameters
open Cythonizer.Proofs.Source.Rereading
open Cythonizer.Proofs.Source.Telling

/-- A name that a list of parameters binds, and the type that a conversion puts in front of it,
which is empty where the name is kept. -/
structure Binding where
  type : List Char
  name : List Char
  deriving DecidableEq

def Binding.renamed (b : Binding) : List Char :=
  b.type ++ b.name

/-- The type of one name goes on where that of the other ends, with what the other name begins with.
-/
def Clash (b c : Binding) : Prop :=
  ∃ more, more ≠ [] ∧ c.type = b.type ++ more ∧ b.name = more ++ c.name

theorem Clash.renamed_eq {b c : Binding} (h : Clash b c) : b.renamed = c.renamed := by
  obtain ⟨more, -, htype, hname⟩ := h
  rw [Binding.renamed, Binding.renamed, htype, hname, List.append_assoc]

theorem Clash.ne {b c : Binding} (h : Clash b c) : b ≠ c := by
  rintro rfl
  obtain ⟨more, hmore, htype, -⟩ := h
  exact hmore (by simpa using htype)

theorem clash_or_name_eq {b c : Binding} (h : b.renamed = c.renamed) :
    Clash b c ∨ Clash c b ∨ b.name = c.name := by
  obtain ⟨more, htype, hname⟩ | ⟨more, htype, hname⟩ := List.append_eq_append_iff.mp h
  · by_cases hmore : more = []
    · exact .inr (.inr (by simpa [hmore] using hname))
    · exact .inl ⟨more, hmore, htype, hname⟩
  · by_cases hmore : more = []
    · exact .inr (.inr (by simpa [hmore, eq_comm] using hname))
    · exact .inr (.inl ⟨more, hmore, htype, hname⟩)

theorem nodup_renamed_iff {bindings : List Binding} (h : (bindings.map Binding.name).Nodup) :
    (bindings.map Binding.renamed).Nodup ↔ ∀ b ∈ bindings, ∀ c ∈ bindings, ¬Clash b c := by
  have hname : ∀ b ∈ bindings, ∀ c ∈ bindings, b.name = c.name → b = c :=
    fun b hb c hc => List.inj_on_of_nodup_map h hb hc
  constructor
  · intro hrenamed b hb c hc hclash
    exact hclash.ne (List.inj_on_of_nodup_map hrenamed hb hc hclash.renamed_eq)
  · intro hnone
    refine h.of_map.map_on fun b hb c hc heq => ?_
    obtain hclash | hclash | heq := clash_or_name_eq heq
    · exact absurd hclash (hnone b hb c hc)
    · exact absurd hclash (hnone c hc b hb)
    · exact hname b hb c hc heq

/-- The name that a type hint is, if it is a single one. -/
def bareName? : List Tree → Option (List Char)
  | [.leaf .name type] => some type
  | [.node .expression [.leaf .name type]] => some type
  | _ => none

theorem bareName?_cases {hint : List Tree} {type : List Char} (h : bareName? hint = some type) :
    hint = [.leaf .name type] ∨ hint = [.node .expression [.leaf .name type]] := by
  unfold bareName? at h
  split at h
  · cases h
    exact .inl rfl
  · cases h
    exact .inr rfl
  · cases h

theorem name?_of_annotates {trees : List Tree} {hint : Hint} (h : Annotates trees hint) :
    hint.name? = (bareName? trees).map String.ofList := by
  cases hint with
  | name text =>
      have htext : text = textOf trees := h.text
      obtain ⟨type, rfl | rfl⟩ := h.bare.mp rfl
      · simp [Hint.name?, bareName?, htext, textOf, spellAll, spell]
      · simp [Hint.name?, bareName?, htext, textOf, spellAll, spell]
  | expression text =>
      have hnone : bareName? trees = none := by
        by_contra hsome
        obtain ⟨type, htype⟩ := Option.ne_none_iff_exists'.mp hsome
        have hbare : IsBareName trees := ⟨type, bareName?_cases htype⟩
        cases h.bare.mpr hbare
      rw [hnone]
      rfl

def bareHint? (children : List Tree) : Option (List Char) :=
  (find? .hint children).bind bareName?

/-- What is put in front of the names of a parameter before the first star. -/
def typeInFront : Tree → List Char
  | .node .named children => (bareHint? children).getD []
  | _ => []

/-- What a list binds, and what a conversion puts in front of it. -/
def bindings (list : List Tree) : List Binding :=
  (beforeStar list).flatMap (fun t => (boundNames t).map (Binding.mk (typeInFront t))) ++
    (fromStar list).flatMap fun t => (boundNames t).map (Binding.mk [])

/-- A construct behind a sign, with blanks around the sign or not. -/
def behindSign (kind : Kind) (sign : Char) (before behind : Bool) : Option (List Tree) → List Tree
  | none => []
  | some children => spacing before ++ .leaf .sign [sign] ::
    (spacing behind ++ [.node kind children])

/-- What is printed behind a name for its hint and its default. -/
def tailOf (hint default : Option (List Tree)) : List Tree :=
  behindSign .hint ':' false true hint ++ behindSign .default '=' hint.isSome hint.isSome default

/-- The tree that a parameter before the first star is printed as after a conversion. -/
def recast : Tree → Tree
  | .node .named children =>
    .node .named (.leaf .name ((bareHint? children).getD [] ++ (nameOf children).toList) ::
      tailOf ((find? .hint children).filter fun hint => (bareName? hint).isNone)
        (find? .default children))
  | t => t

theorem recast_named {children : List Tree} {name : List Char} {hint default : Option (List Tree)}
    (h : IsNamed children name hint default) :
    recast (.node .named children) =
      .node .named (.leaf .name (typeInFront (.node .named children) ++ name) ::
        tailOf (hint.filter fun hint => (bareName? hint).isNone) default) := by
  have hname : (nameOf children).toList = name := by
    obtain ⟨-, -⟩ := h
    simp [nameOf, name?]
  obtain ⟨hhint, hdefault⟩ := find?_of_isNamed h
  rw [recast, typeInFront, hname, hhint, hdefault]

theorem typeInFront_named {children : List Tree} {name : List Char}
    {hint default : Option (List Tree)}
    (h : IsNamed children name hint default) :
    typeInFront (.node .named children) = (hint.bind bareName?).getD [] := by
  rw [typeInFront, bareHint?, (find?_of_isNamed h).1]

theorem areGaps_spacing (spaced : Bool) : AreGaps (spacing spaced) := by
  cases spaced with
  | false => exact .nil
  | true => exact .cons (.space (by decide) .nil) .nil

theorem isAttached_behindSign (kind : Kind) (sign : Char) (before behind : Bool)
    (children : Option (List Tree)) :
    IsAttached kind [sign] (behindSign kind sign before behind children) children := by
  cases children with
  | none => exact .none
  | some children => exact .some (areGaps_spacing before) (areGaps_spacing behind)

theorem isNamed_tailOf (name : List Char) (hint default : Option (List Tree)) :
    IsNamed (.leaf .name name :: tailOf hint default) name hint default :=
  .intro (isAttached_behindSign _ _ _ _ _) (isAttached_behindSign _ _ _ _ _)

theorem isParameter_recast {t : Tree} (h : IsParameter t) : IsParameter (recast t) := by
  cases h with
  | named hnamed =>
      rw [recast_named hnamed]
      exact .named (isNamed_tailOf _ _ _)
  | star rest => exact .star rest
  | slash => exact .slash
  | keywords rest => exact .keywords rest
  | tuple rest => exact .tuple rest

theorem namesOf_of_areGaps {gaps : List Tree} (h : AreGaps gaps) : namesOf gaps = [] := by
  refine namesOf_eq_nil fun t ht => ?_
  obtain ⟨g, text, rfl, -⟩ := h t ht
  rfl

theorem boundNames_of_isNamed {children : List Tree} {name : List Char}
    {hint default : Option (List Tree)}
    (h : IsNamed children name hint default) : boundNames (.node .named children) = [name] := by
  have hnone {kind : Kind} (hkind : kind = .hint ∨ kind = .default) {sign : List Char}
    {ts : List Tree}
      {found : Option (List Tree)} (h : IsAttached kind sign ts found) : namesOf ts = [] := by
    cases h with
    | none => rfl
    | some hgaps hbetween =>
        simp [namesOf, boundNames, namesOf_of_areGaps hgaps, namesOf_of_areGaps hbetween, hkind]
  obtain ⟨hhint, hdefault⟩ := h
  simp [boundNames, namesOf, hnone (.inl rfl) hhint, hnone (.inr rfl) hdefault]

theorem boundNames_recast {t : Tree} (h : IsParameter t) :
    boundNames (recast t) =
      ((boundNames t).map (Binding.mk (typeInFront t))).map Binding.renamed := by
  cases h with
  | named hnamed =>
      rw [recast_named hnamed, boundNames_of_isNamed (isNamed_tailOf _ _ _),
        boundNames_of_isNamed hnamed]
      rfl
  | star rest => simp [recast, typeInFront, Binding.renamed, Function.comp_def]
  | slash => simp [recast, typeInFront, Binding.renamed, Function.comp_def]
  | keywords rest => simp [recast, typeInFront, Binding.renamed, Function.comp_def]
  | tuple rest => simp [recast, typeInFront, Binding.renamed, Function.comp_def]

theorem spell_tailOf (name : List Char) {trees default : Option (List Tree)} {hint : Option Hint}
    (h : hint.map Hint.text = trees.map textOf) :
    (renderParameter (.positional (String.ofList name) hint (default.map textOf))).toList =
      spell (.node .named (.leaf .name name :: tailOf trees default)) := by
  obtain ⟨rfl, rfl⟩ | ⟨trees, hint, rfl, rfl, htext⟩ : (trees = none ∧ hint = none) ∨
      ∃ hintTrees found, trees = some hintTrees ∧ hint = some found ∧
        found.text = textOf hintTrees := by
    cases trees <;> cases hint <;> simp_all
  · cases default <;> simp [tailOf, behindSign, spacing, spell, spellAll, renderParameter, textOf]
  · cases default <;>
      simp [tailOf, behindSign, spacing, spell, spellAll, renderParameter, textOf, htext]

theorem renderParameter_foldHint {t : Tree} {p : Parameter} (h : Lowers t p) :
    (renderParameter (foldHint p)).toList = spell (recast t) := by
  cases h with
  | slash => simp [foldHint, renderParameter, recast, spell, spellAll]
  | special children => simp [foldHint, renderParameter, recast, spell, textOf]
  | @named children name trees default hint hnamed hhint =>
      rw [recast_named hnamed, typeInFront_named hnamed]
      cases hhint with
      | none => exact spell_tailOf name rfl
      | @some trees hint hannotates =>
          have hname := name?_of_annotates hannotates
          cases htype : bareName? trees with
          | none =>
              have hkept :
                (some trees).filter (fun hint => (bareName? hint).isNone) = some trees := by
                simp [Option.filter, htype]
              have htext : (some hint).map Hint.text = (some trees).map textOf :=
                congrArg some hannotates.text
              rw [htype] at hname
              rw [foldHint, hintName?, Option.bind_some, hname, hkept]
              simpa [htype] using spell_tailOf name htext
          | some type =>
              have hfolded : (some trees).filter (fun hint => (bareName? hint).isNone) = none := by
                simp [Option.filter, htype]
              have hprinted : (renderParameter
                  (.positional (String.ofList (type ++ name)) none (default.map textOf))).toList =
                    spell (.node .named (.leaf .name (type ++ name) :: tailOf none default)) :=
                spell_tailOf (type ++ name) rfl
              rw [htype] at hname
              rw [foldHint, hintName?, Option.bind_some, hname, hfolded]
              simpa [htype, typePrefixed, String.ofList_append] using hprinted

/-- The parameters of a list as they are printed after a conversion. -/
def recastAll (list : List Tree) : List Tree :=
  (beforeStar list).map recast ++ fromStar list

theorem isParameterList_listOf {ts : List Tree} (h : ∀ t ∈ ts, IsParameter t) :
    IsParameterList (listOf ts) := by
  have hchain {ts : List Tree} (h : ∀ t ∈ ts, IsParameter t) :
    IsChain IsParameter (ts.flatMap behindComma) := by
    induction ts with
    | nil => exact .nil
    | cons t ts ih =>
        obtain ⟨ht, hts⟩ := List.forall_mem_cons.mp h
        exact .more .nil ⟨spacing true, t, areGaps_spacing true, ht, rfl⟩ (ih hts)
  have hitems : IsItems IsParameter (separated ts) := by
    cases ts with
    | nil => exact .none
    | cons t ts =>
        obtain ⟨ht, hts⟩ := List.forall_mem_cons.mp h
        exact .some ⟨[], t, .nil, ht, rfl⟩ (hchain hts)
  exact .intro hitems .nil

theorem namesOf_listOf (ts : List Tree) : namesOf (listOf ts) = ts.flatMap boundNames := by
  have hchain (ts : List Tree) : namesOf (ts.flatMap behindComma) = ts.flatMap boundNames := by
    induction ts with
    | nil => rfl
    | cons t ts ih => simp [behindComma, namesOf, boundNames, ih]
  cases ts with
  | nil => rfl
  | cons t ts => simp [listOf, separated, namesOf, boundNames, hchain]

theorem spell_separated {ts : List Tree} {ps : List Parameter}
    (h : List.Forall₂ (fun t p => (renderParameter p).toList = spell t) ts ps) :
    spellAll (separated ts) = (renderParameters ps).toList := by
  induction h with
  | nil => rfl
  | @cons t p ts ps hfirst hrest ih =>
      cases hrest with
      | nil => simp [separated, spellAll, renderParameters, hfirst]
      | @cons u q us qs _ _ =>
          rw [Layout.renderParameters_cons_cons]
          simp only [separated] at ih ⊢
          simp [behindComma, spellAll, spell, ← ih, hfirst]

theorem spell_listOf {ts : List Tree} {ps : List Parameter}
    (h : List.Forall₂ (fun t p => (renderParameter p).toList = spell t) ts ps) :
    spellAll (listOf ts) = '(' :: (renderParameters ps).toList ++ [')'] := by
  simp [listOf, spellAll, spell, spellAll_append, spell_separated h]

theorem flatMap_filter_of_nil {α β : Type} {p : α → Bool} {f : α → List β} {l : List α}
    (h : ∀ a ∈ l, p a = false → f a = []) : (l.filter p).flatMap f = l.flatMap f := by
  induction l with
  | nil => rfl
  | cons a l ih =>
      obtain ⟨ha, hl⟩ := List.forall_mem_cons.mp h
      cases hp : p a with
      | true => rw [List.filter_cons_of_pos hp, List.flatMap_cons, List.flatMap_cons, ih hl]
      | false =>
        rw [List.filter_cons_of_neg (by simp [hp]), List.flatMap_cons, ha hp, ih hl,
          List.nil_append]

instance : HasGaps fun t => isConstruct t = false → boundNames t = [] where
  gap _ _ := rfl

theorem namesOf_of_isParameterList {list : List Tree} (h : IsParameterList list) :
    namesOf list = (bindings list).map Binding.name := by
  have hnone : ∀ t ∈ list, isConstruct t = false → boundNames t = [] :=
    forall_isParameterList (L := fun t => isConstruct t = false → boundNames t = [])
      (fun _ _ => rfl) (fun t ht hconstruct => by cases ht <;> cases hconstruct) h
  calc
    namesOf list = (list.filter isConstruct).flatMap boundNames := by
      rw [namesOf_eq, flatMap_filter_of_nil hnone]
    _ = (beforeStar list ++ fromStar list).flatMap boundNames := by
      rw [beforeStar, fromStar, List.takeWhile_append_dropWhile]
    _ = (bindings list).map Binding.name := by
      simp [bindings, List.map_flatMap, Function.comp_def]

theorem mem_of_mem_beforeStar {list : List Tree} {t : Tree} (h : t ∈ beforeStar list) :
    t ∈ list ∧ isConstruct t = true :=
  List.mem_filter.mp ((List.takeWhile_prefix _).subset h)

theorem mem_of_mem_fromStar {list : List Tree} {t : Tree} (h : t ∈ fromStar list) :
    t ∈ list ∧ isConstruct t = true :=
  List.mem_filter.mp ((List.dropWhile_suffix _).subset h)

theorem isParameter_of_mem_beforeStar {list : List Tree} (h : IsParameterList list) {t : Tree}
    (ht : t ∈ beforeStar list) : IsParameter t :=
  isParameter_of_mem h t (mem_of_mem_beforeStar ht).1 (mem_of_mem_beforeStar ht).2

theorem isParameter_of_mem_recastAll {list : List Tree} (h : IsParameterList list) :
    ∀ t ∈ recastAll list, IsParameter t := by
  refine forall_mem_append (fun t ht => ?_) fun t ht => ?_
  · obtain ⟨u, hu, rfl⟩ := List.mem_map.mp ht
    exact isParameter_recast (isParameter_of_mem_beforeStar h hu)
  · exact isParameter_of_mem h t (mem_of_mem_fromStar ht).1 (mem_of_mem_fromStar ht).2

theorem namesOf_recastAll {list : List Tree} (h : IsParameterList list) :
    namesOf (listOf (recastAll list)) = (bindings list).map Binding.renamed := by
  have hbefore : ∀ t ∈ beforeStar list, IsParameter t := fun t ht =>
    isParameter_of_mem_beforeStar h ht
  rw [namesOf_listOf, recastAll, bindings, List.flatMap_append, List.map_append, List.map_flatMap,
    List.map_flatMap, List.flatMap_map]
  congr 1
  · exact List.flatMap_congr fun t ht => boundNames_recast (hbefore t ht)
  · simp [Binding.renamed, Function.comp_def]

theorem spell_recastAll {list : List Tree} {f : Function} (h : OneToOne Lowers list f.parameters)
    (settings : ConversionSettings) :
    spellAll (listOf (recastAll list)) =
      '(' :: (renderParameters (convertFunction settings f).parameters).toList ++ [')'] := by
  obtain ⟨ps, qs, hparameters, hps, hqs⟩ := h
  have hbefore : List.Forall₂ (fun t p => (renderParameter p).toList = spell t)
      ((beforeStar list).map recast) (ps.map foldHint) :=
    List.forall₂_map_left_iff.mpr <| List.forall₂_map_right_iff.mpr <|
      hps.imp fun _ _ h => renderParameter_foldHint h
  have hfrom : List.Forall₂ (fun t p => (renderParameter p).toList = spell t) (fromStar list)
      (qs.map foldHint) := by
    rw [map_foldHint_of_keeps hqs]
    exact hqs.imp fun t p h => by rw [h.renderParameter_eq, String.toList_ofList]
  have hmap : (convertFunction settings f).parameters = ps.map foldHint ++ qs.map foldHint := by
    rw [convertFunction, hparameters, List.map_append]
  rw [hmap]
  exact spell_listOf (List.rel_append hbefore hfrom)

section

variable {K : Tree → Prop} (hK : Inherits K)

include hK

theorem forall_of_find? {kind : Kind} {ts children : List Tree} (h : ∀ t ∈ ts, K t)
    (hfind : find? kind ts = some children) : ∀ t ∈ children, K t :=
  hK _ (h _ (mem_of_find? hfind))

theorem forall_definitionOf {t : Tree} (h : K t) : ∀ c ∈ definitionOf t, K c := by
  unfold definitionOf
  split
  · exact hK _ h
  · rename_i children
    cases hfind : find? .function children with
    | none => simp
    | some definition => exact forall_of_find? hK (hK _ h) hfind
  · simp

theorem forall_parameterListOf {t : Tree} (h : K t) : ∀ c ∈ parameterListOf t, K c := by
  have hfront : ∀ c ∈ (header (definitionOf t)).1, K c := fun c hc =>
    forall_definitionOf hK h c (header_subset _ hc)
  unfold parameterListOf
  cases hfind : find? .parameters (header (definitionOf t)).1 with
  | none => simp
  | some parameters => exact forall_of_find? hK hfront hfind

end

theorem inherits_identified : Inherits Identified := by
  intro t h
  cases h with
  | gap g text => simp [childrenOf]
  | leaf _ => simp [childrenOf]
  | node h => exact h

theorem isIdentifier_typeInFront {t : Tree} (h : Identified t) :
    typeInFront t = [] ∨ IsIdentifier (typeInFront t) := by
  unfold typeInFront
  split
  · rename_i children
    cases htype : bareHint? children with
    | none => exact .inl rfl
    | some type =>
        refine .inr ?_
        obtain ⟨hint, hfind, hbare⟩ := Option.bind_eq_some_iff.mp htype
        have hhint := forall_of_find? inherits_identified (inherits_identified _ h) hfind
        obtain rfl | rfl := bareName?_cases hbare
        · exact (hhint _ (by simp)).name
        · have hexpression := hhint (.node .expression [.leaf .name type]) (by simp)
          exact (inherits_identified _ hexpression (.leaf .name type) (by simp [childrenOf])).name
  · exact .inl rfl

theorem isIdentifier_renamed {list : List Tree} (h : ∀ t ∈ list, Identified t) {b : Binding}
    (hb : b ∈ bindings list) : IsIdentifier b.renamed := by
  rcases List.mem_append.mp hb with hb | hb
  · obtain ⟨t, ht, hb⟩ := List.mem_flatMap.mp hb
    obtain ⟨name, hname, rfl⟩ := List.mem_map.mp hb
    have hidentified := h t (mem_of_mem_beforeStar ht).1
    have hname := hidentified.boundNames name hname
    obtain htype | htype := isIdentifier_typeInFront hidentified
    · simpa [Binding.renamed, htype] using hname
    · exact htype.append hname
  · obtain ⟨t, ht, hb⟩ := List.mem_flatMap.mp hb
    obtain ⟨name, hname, rfl⟩ := List.mem_map.mp hb
    exact (h t (mem_of_mem_fromStar ht).1).boundNames name hname

/-- The words that are never names. -/
def reserved : List String :=
  ["False", "None", "True", "and", "as", "assert", "async", "await", "break", "class",
    "continue", "def",
    "del", "elif", "else", "except", "finally", "for", "from", "global", "if", "import", "in", "is",
    "lambda", "nonlocal", "not", "or", "pass", "raise", "return", "try", "while", "with", "yield"]

def IsReserved (name : List Char) : Prop :=
  String.ofList name ∈ reserved

/-- What a conversion makes of the names that a list of parameters binds. The list that is printed
has the trees `again`. -/
structure Rebinds (list : List Tree) (f : Function) (again : List Tree) : Prop where
  isParameterList : IsParameterList again
  printed : spellAll again = '(' :: (renderParameters f.parameters).toList ++ [')']
  length : again.countP isConstruct = list.countP isConstruct
  before : namesOf list = (bindings list).map Binding.name
  after : namesOf again = (bindings list).map Binding.renamed
  isIdentifier : ∀ name ∈ namesOf again, IsIdentifier name
  /-- A name becomes a reserved word only with a type in front of it. -/
  reserved : (∀ name ∈ namesOf list, ¬IsReserved name) →
    ((∀ name ∈ namesOf again, ¬IsReserved name) ↔
      ∀ b ∈ bindings list, b.type ≠ [] → ¬IsReserved b.renamed)
  /-- Two names become one exactly if they clash. -/
  distinct : (namesOf list).Nodup →
    ((namesOf again).Nodup ↔ ∀ b ∈ bindings list, ∀ c ∈ bindings list, ¬Clash b c)
  /-- The reader of parameter lists takes the list again, whatever the names are, if it takes what
  was copied into it. -/
  taken {source : List Char} (g : Grammar source) : (∀ t ∈ recastAll list, TakesCopies g t) →
    ∀ rest, Runs (Meets (spellAll again ++ rest)) (parameters g) fun _ c ts =>
      ts = [.node .parameters again] ∧ Meets rest c

theorem isConstruct_of_isParameter {t : Tree} (h : IsParameter t) : isConstruct t = true := by
  cases h <;> rfl

theorem countP_listOf {ts : List Tree} (h : ∀ t ∈ ts, isConstruct t = true) :
    (listOf ts).countP isConstruct = ts.length := by
  have hchain {ts : List Tree} (h : ∀ t ∈ ts, isConstruct t = true) :
      (ts.flatMap behindComma).countP isConstruct = ts.length := by
    induction ts with
    | nil => rfl
    | cons t ts ih =>
        obtain ⟨ht, hts⟩ := List.forall_mem_cons.mp h
        rw [List.flatMap_cons, List.countP_append, ih hts]
        simp [behindComma, isConstruct.eq_2, isConstruct.eq_3, ht, Nat.add_comm]
  cases ts with
  | nil => rfl
  | cons t ts =>
      obtain ⟨ht, hts⟩ := List.forall_mem_cons.mp h
      simp [listOf, separated, isConstruct.eq_3, ht, hchain hts]

theorem length_recastAll (list : List Tree) :
    (recastAll list).length = list.countP isConstruct := by
  rw [recastAll, List.length_append, List.length_map, ← List.length_append, beforeStar, fromStar,
    List.takeWhile_append_dropWhile, List.countP_eq_length_filter]

theorem rebinds_of_oneToOne {list : List Tree} {f : Function} (hlist : IsParameterList list)
    (hidentified : ∀ t ∈ list, Identified t) (h : OneToOne Lowers list f.parameters)
    (settings : ConversionSettings) :
    Rebinds list (convertFunction settings f) (listOf (recastAll list)) := by
  have hparameters := isParameter_of_mem_recastAll hlist
  have hbefore := namesOf_of_isParameterList hlist
  have hafter := namesOf_recastAll hlist
  have hidentifier : ∀ name ∈ namesOf (listOf (recastAll list)), IsIdentifier name := by
    rw [hafter]
    simpa using fun b hb => isIdentifier_renamed hidentified hb
  refine ⟨isParameterList_listOf hparameters, spell_recastAll h settings, ?_, hbefore,
    hafter, hidentifier,
    ?_, ?_, ?_⟩
  · rw [countP_listOf fun t ht => isConstruct_of_isParameter (hparameters t ht), length_recastAll]
  · intro hnone
    rw [hafter]
    simp only [List.forall_mem_map]
    refine forall₂_congr fun b hb => ⟨fun hfree _ => hfree, fun hfree => ?_⟩
    by_cases htype : b.type = []
    · have hname : b.name ∈ namesOf list := by
        rw [hbefore]
        exact List.mem_map_of_mem hb
      simpa [Binding.renamed, htype] using hnone b.name hname
    · exact hfree htype
  · intro hdistinct
    rw [hbefore] at hdistinct
    rw [hafter]
    exact nodup_renamed_iff hdistinct
  · intro source g hcopies rest
    refine runs_parameters (fun t ht => ?_) rest
    refine takesItem_of_takesCopies (hparameters t ht) (fun name tail heq => ?_) (hcopies t ht)
    refine hidentifier name ?_
    rw [namesOf_listOf, List.mem_flatMap]
    exact ⟨t, ht, by simp [heq, boundNames, namesOf]⟩

/-- Parameters with a type, without one, and behind a star. -/
def typedNames : List Char :=
  "def f(x: int, /, y: str, *, k): pass\n".toList

/-- The names of the parameters that a conversion may put types in front of. -/
def positionalNames (f : Function) : List String :=
  (positionals f.parameters).map Prod.fst

/-- A type in front of one name makes it the other name. -/
def clashing : List Char :=
  "def f(x: int, intx): pass\n".toList

/-- A type in front of a name makes it a reserved word. -/
def spelledReserved : List Char :=
  "def f(s: i): pass\n".toList

/-- The function of a source that declares one, with the names before a conversion and after it. -/
theorem exists_function {source : List Char} {names renamed : List String}
    (h : (Outline.Reading.read source).toOption.map (·.functions.map fun f =>
      (positionalNames f, positionalNames (convertFunction {} f))) = some [(names, renamed)]) :
    ∃ (outline : Outline) (f : Function), Outline.Reading.read source = .ok outline ∧
      f ∈ outline.functions ∧
      positionalNames f = names ∧ positionalNames (convertFunction {} f) = renamed := by
  cases hread : Outline.Reading.read source with
  | error _ =>
      rw [hread] at h
      cases h
  | ok outline =>
      rw [hread] at h
      obtain ⟨f, hfunctions, hf⟩ := List.map_eq_singleton_iff.mp (Option.some.inj h)
      obtain ⟨hnames, hrenamed⟩ := Prod.mk.inj hf
      exact ⟨outline, f, rfl, by simp [hfunctions], hnames, hrenamed⟩

end Cythonizer.Proofs.Outline.Renaming
