import Cythonizer.Proofs.Outline.Decisions
import Cythonizer.Proofs.Outline.Defects
import Cythonizer.Proofs.Outline.Loops

namespace Cythonizer.Proofs.Outline.Tokens

open Cythonizer.Outline.Basic
open Cythonizer.Outline.Conversion
open Cythonizer.Outline.OfTree
open Cythonizer.Source.Gaps
open Cythonizer.Source.Trees
open Cythonizer.Proofs.Outline.Decisions
open Cythonizer.Proofs.Outline.Defects
open Cythonizer.Proofs.Outline.Loops
open Cythonizer.Proofs.Outline.Pieces
open Cythonizer.Proofs.Outline.Segments
open Cythonizer.Proofs.Outline.Correspondence
open Cythonizer.Proofs.Source.Phrasing

@[simp]
theorem bared_gap (g : Gap) (text : List Char) : bared (.gap g text) = .gap g text := by rw [bared]

@[simp]
theorem bared_leaf (l : Leaf) (text : List Char) :
    bared (.leaf l text) = .leaf l text := by rw [bared]

@[simp]
theorem bared_node (kind : Kind) (children : List Tree) :
    bared (.node kind children) = .node kind (withoutGaps children) := by rw [bared]

@[simp]
theorem withoutGaps_nil : withoutGaps [] = [] := by rw [withoutGaps]

@[simp]
theorem withoutGaps_gap (g : Gap) (text : List Char) (rest : List Tree) :
    withoutGaps (.gap g text :: rest) = withoutGaps rest := by rw [withoutGaps]

theorem withoutGaps_cons {t : Tree} (h : isGap t = false) (rest : List Tree) :
    withoutGaps (t :: rest) = bared t :: withoutGaps rest := by
  rw [withoutGaps]
  rintro g text rfl
  cases h

@[simp]
theorem withoutGaps_leaf (l : Leaf) (text : List Char) (rest : List Tree) :
    withoutGaps (.leaf l text :: rest) = .leaf l text :: withoutGaps rest := by
  rw [withoutGaps_cons rfl, bared_leaf]

@[simp]
theorem withoutGaps_node (kind : Kind) (children rest : List Tree) :
    withoutGaps (.node kind children :: rest) = .node kind (withoutGaps children) ::
      withoutGaps rest := by
  rw [withoutGaps_cons rfl, bared_node]

theorem withoutGaps_of_isGap {t : Tree} (h : isGap t = true) (rest : List Tree) :
    withoutGaps (t :: rest) = withoutGaps rest := by
  cases t with
  | gap g text => exact withoutGaps_gap g text rest
  | leaf l text => cases h
  | node kind children => cases h

theorem isGap_bared (t : Tree) : isGap (bared t) = isGap t := by
  cases t <;> simp [bared, isGap]

theorem childrenOf_bared (t : Tree) : childrenOf (bared t) = withoutGaps (childrenOf t) := by
  cases t with
  | gap g text => simp [childrenOf]
  | leaf l text => simp [childrenOf]
  | node kind children => simp [childrenOf]

/-- A property of trees in which gaps do not count. -/
class OfTokens (p : Tree → Bool) : Prop where
  gap (g : Gap) (text : List Char) : p (.gap g text) = false
  bared (t : Tree) : p (bared t) = p t

instance (kind : Kind) : OfTokens (isNode kind) where
  gap _ _ := rfl
  bared t := by cases t <;> simp [Decisions.bared, isNode]

instance (l : Leaf) (text : List Char) : OfTokens (isLeaf l text) where
  gap _ _ := rfl
  bared t := by cases t <;> simp [Decisions.bared, isLeaf]

instance : OfTokens isConstruct where
  gap _ _ := rfl
  bared t := by cases t <;> simp [Decisions.bared, isConstruct]

section

variable {p : Tree → Bool} [hp : OfTokens p]

theorem eq_false_of_isGap {t : Tree} (h : isGap t = true) : p t = false := by
  cases t with
  | gap g text => exact hp.gap g text
  | leaf l text => cases h
  | node kind children => cases h

theorem first_withoutGaps (ts : List Tree) : (withoutGaps ts).find? p = (ts.find? p).map bared := by
  induction ts with
  | nil => rfl
  | cons t rest ih =>
      by_cases hgap : isGap t = true
      · rw [withoutGaps_of_isGap hgap, List.find?_cons_of_neg (by simp [eq_false_of_isGap hgap]),
          ih]
      · rw [withoutGaps_cons (by simpa using hgap)]
        by_cases h : p t <;> simp [hp.bared, h, ih]

theorem filter_withoutGaps (ts : List Tree) :
    (withoutGaps ts).filter p = (ts.filter p).map bared := by
  induction ts with
  | nil => rfl
  | cons t rest ih =>
      by_cases hgap : isGap t = true
      · rw [withoutGaps_of_isGap hgap, List.filter_cons_of_neg (by simp [eq_false_of_isGap hgap]),
          ih]
      · rw [withoutGaps_cons (by simpa using hgap)]
        by_cases h : p t <;> simp [hp.bared, h, ih]

theorem any_withoutGaps (ts : List Tree) : (withoutGaps ts).any p = ts.any p := by
  induction ts with
  | nil => rw [withoutGaps_nil]
  | cons t rest ih =>
      by_cases hgap : isGap t = true
      · rw [withoutGaps_of_isGap hgap, List.any_cons, eq_false_of_isGap (p := p) hgap,
          Bool.false_or, ih]
      · rw [withoutGaps_cons (by simpa using hgap), List.any_cons, List.any_cons, hp.bared, ih]

theorem takeWhile_withoutGaps (ts : List Tree) :
    (withoutGaps ts).takeWhile (fun t => !p t) = withoutGaps (ts.takeWhile fun t => !p t) := by
  induction ts with
  | nil => simp
  | cons t rest ih =>
      by_cases hgap : isGap t = true
      · rw [withoutGaps_of_isGap hgap, List.takeWhile_cons_of_pos
          (by simp [eq_false_of_isGap hgap]),
          withoutGaps_of_isGap hgap, ih]
      · rw [Bool.not_eq_true] at hgap
        rw [withoutGaps_cons hgap]
        by_cases h : p t
        · simp [hp.bared, h]
        · simp [hp.bared, h, ih, withoutGaps_cons hgap]

end

theorem find?_withoutGaps (kind : Kind) (ts : List Tree) :
    find? kind (withoutGaps ts) = (find? kind ts).map withoutGaps := by
  rw [find?, find?, first_withoutGaps, Option.map_map, Option.map_map]
  exact congrArg (Option.map · _) (funext childrenOf_bared)

theorem name?_withoutGaps (ts : List Tree) : name? (withoutGaps ts) = name? ts := by
  induction ts with
  | nil => rw [withoutGaps_nil]
  | cons t rest ih =>
      cases t with
      | gap g text => simp [name?, ih]
      | leaf l text => cases l <;> simp [name?, ih]
      | node kind children => simp [name?, ih]

theorem header_subset (ts : List Tree) : (header ts).1 ⊆ ts := by
  simp only [header, List.span_eq_takeWhile_dropWhile]
  exact ((List.takeWhile_prefix _).trans (List.takeWhile_prefix _)).subset

theorem header_withoutGaps (ts : List Tree) :
    (header (withoutGaps ts)).1 = withoutGaps (header ts).1 := by
  simp only [header, List.span_eq_takeWhile_dropWhile, takeWhile_withoutGaps]

theorem isGap_of_begins {t : Tree} {rest : List Tree} (h : Begins (t :: rest)) :
    isGap t = false := by
  cases t with
  | gap g text => exact absurd rfl (h g text)
  | leaf l text => rfl
  | node kind children => rfl

theorem isGap_of_ends {t : Tree} {rest : List Tree} (h : Ends (rest ++ [t])) : isGap t = false := by
  cases t with
  | gap g text => exact absurd (by simp) (h g text)
  | leaf l text => rfl
  | node kind children => rfl

theorem withoutGaps_eq_nil {ts : List Tree} (h : withoutGaps ts = []) :
    ∀ t ∈ ts, isGap t = true := by
  induction ts with
  | nil => simp
  | cons t rest ih =>
      by_cases hgap : isGap t = true
      · rw [withoutGaps_of_isGap hgap] at h
        exact List.forall_mem_cons.mpr ⟨hgap, ih h⟩
      · rw [withoutGaps_cons (by simpa using hgap)] at h
        cases h

theorem eq_singleton {ts : List Tree} (h : Flush ts) {u : Tree} (hsingle : withoutGaps ts = [u]) :
    ∃ t, ts = [t] ∧ bared t = u := by
  cases ts with
  | nil =>
      rw [withoutGaps_nil] at hsingle
      cases hsingle
  | cons t rest =>
      rw [withoutGaps_cons (isGap_of_begins h.begins), List.cons.injEq] at hsingle
      obtain ⟨ht, hrest⟩ := hsingle
      obtain rfl | ⟨rest, last, rfl⟩ := rest.eq_nil_or_concat
      · exact ⟨t, rfl, ht⟩
      · have hends : Ends ((t :: rest) ++ [last]) := by simpa using h.ends
        have hlast := isGap_of_ends hends
        rw [withoutGaps_eq_nil hrest last (by simp)] at hlast
        cases hlast

theorem eq_leaf_of_bared {t : Tree} {l : Leaf} {text : List Char} (h : bared t = .leaf l text) :
    t = .leaf l text := by
  cases t <;> simp_all [bared]

theorem eq_node_of_bared {t : Tree} {kind : Kind} {children : List Tree}
    (h : bared t = .node kind children) :
    ∃ inner, t = .node kind inner ∧ withoutGaps inner = children := by
  cases t <;> simp_all [bared]

section

variable {ts : List Tree} (h : Flush ts)

include h

theorem single_leaf_iff (l : Leaf) (text : List Char) :
    withoutGaps ts = [.leaf l text] ↔ ts = [.leaf l text] := by
  constructor
  · intro hsingle
    obtain ⟨t, rfl, ht⟩ := eq_singleton h hsingle
    rw [eq_leaf_of_bared ht]
  · rintro rfl
    simp

theorem single_node_iff (kind : Kind) (children : List Tree) :
    withoutGaps ts = [.node kind children] ↔
      ∃ inner, ts = [.node kind inner] ∧ withoutGaps inner = children := by
  constructor
  · intro hsingle
    obtain ⟨t, rfl, ht⟩ := eq_singleton h hsingle
    obtain ⟨inner, rfl, hinner⟩ := eq_node_of_bared ht
    exact ⟨inner, rfl, hinner⟩
  · rintro ⟨inner, rfl, rfl⟩
    simp

end

theorem hintOf_name?_iff (ts : List Tree) (name : String) :
    (hintOf ts).name? = some name ↔ ∃ text, String.ofList text = name ∧
      (ts = [.leaf .name text] ∨ ts = [.node .expression [.leaf .name text]]) := by
  unfold hintOf
  split <;> simp_all [Hint.name?]

theorem name?_hintOf_withoutGaps {ts : List Tree} (h : Flush ts) (hsound : ∀ t ∈ ts, Sound t) :
    (hintOf (withoutGaps ts)).name? = (hintOf ts).name? := by
  have hexpression (text : List Char) : withoutGaps ts = [.node .expression [.leaf .name text]] ↔
      ts = [.node .expression [.leaf .name text]] := by
    rw [single_node_iff h]
    constructor
    · rintro ⟨inner, rfl, hinner⟩
      have hflush : Flush inner := (hsound _ (List.mem_singleton.mpr rfl)).flush .expression
      rw [(single_leaf_iff hflush _ _).mp hinner]
    · rintro rfl
      exact ⟨_, rfl, by simp⟩
  refine Option.ext fun name => ?_
  simp only [hintOf_name?_iff, hexpression, single_leaf_iff h]

theorem mem_of_find? {kind : Kind} {ts children : List Tree} (h : find? kind ts = some children) :
    .node kind children ∈ ts := by
  obtain ⟨t, ht, rfl⟩ := Option.map_eq_some_iff.mp h
  have hkind : isNode kind t = true := List.find?_some ht
  cases t with
  | node kind' children =>
      obtain rfl : kind' = kind := by simpa [isNode] using hkind
      exact List.mem_of_find?_eq_some ht
  | gap g text => cases hkind
  | leaf l text => cases hkind

theorem hintName?_withoutGaps {ts : List Tree} (hsound : ∀ t ∈ ts, Sound t) :
    hintName? ((find? .hint (withoutGaps ts)).map hintOf) =
      hintName? ((find? .hint ts).map hintOf) := by
  rw [find?_withoutGaps]
  cases hfind : find? .hint ts with
  | none => rfl
  | some children =>
      have hhint := hsound _ (mem_of_find? hfind)
      exact name?_hintOf_withoutGaps (hhint.flush .hint) hhint.children

@[simp]
theorem positionals_verbatim (text : String) (rest : List Parameter) :
    positionals (.verbatim text :: rest) = positionals rest := rfl

@[simp]
theorem positionals_marker (rest : List Parameter) :
    positionals (.positionalOnlyMarker :: rest) = positionals rest := rfl

theorem positionals_positional (name : String) (hint : Option Hint) (default : Option String)
    (rest : List Parameter) :
    positionals (.positional name hint default :: rest) = (name, hintName? hint) ::
      positionals rest := rfl

theorem positionals_withoutGaps (keywordOnly : Bool) {ts : List Tree} (hsound : ∀ t ∈ ts, Sound t) :
    positionals (parametersOf keywordOnly (withoutGaps ts)) =
      positionals (parametersOf keywordOnly ts) := by
  induction ts generalizing keywordOnly with
  | nil => rw [withoutGaps_nil]
  | cons t rest ih =>
      obtain ⟨hfirst, hrest⟩ := List.forall_mem_cons.mp hsound
      have ih := fun keywordOnly => ih keywordOnly hrest
      cases t with
      | gap g text => cases g <;> simp [parametersOf, ih]
      | leaf l text => simp [parametersOf, ih]
      | node kind children =>
          rw [withoutGaps_node]
          by_cases hnamed : kind = .named
          · subst hnamed
            have hhint : hintName? ((find? .hint (withoutGaps children)).map hintOf) =
                hintName? ((find? .hint children).map hintOf) :=
                  hintName?_withoutGaps hfirst.children
            cases keywordOnly with
            | true => simp [parametersOf, ih]
            | false =>
                rw [parametersOf, parametersOf]
                simp only [Bool.false_eq_true, if_false, positionals_positional, hhint, ih, nameOf,
                  name?_withoutGaps]
          · cases kind <;> first | exact absurd rfl hnamed | simp [parametersOf, ih]

/-- Whether an expression is a call of `range`. -/
def callsRange (expression : List Tree) : Bool :=
  Iterable.isRange (iterableOf expression)

theorem callsRange_eq_false {ts : List Tree}
    (h : ∀ callee rest, ts ≠ [.node .call (.leaf .name callee :: rest)]) :
      callsRange ts = false := by
  unfold callsRange iterableOf
  split
  · exact absurd rfl (h _ _)
  · rfl

theorem callsRange_call (callee : List Char) (rest : List Tree) :
    callsRange [.node .call (.leaf .name callee :: rest)] =
      (areArguments rest && String.ofList callee == boundedRange) := by
  unfold callsRange iterableOf
  dsimp only
  rw [show (rest.all fun t => isGap t || isNode .arguments t) = areArguments rest from rfl]
  cases areArguments rest <;> simp [Iterable.isRange]

theorem areArguments_cons (t : Tree) (rest : List Tree) :
    areArguments (t :: rest) = ((isGap t || isNode .arguments t) && areArguments rest) := rfl

theorem areArguments_withoutGaps (ts : List Tree) :
    areArguments (withoutGaps ts) = areArguments ts := by
  induction ts with
  | nil => rw [withoutGaps_nil]
  | cons t rest ih =>
      rw [areArguments_cons]
      by_cases hgap : isGap t = true
      · rw [withoutGaps_of_isGap hgap, hgap, Bool.true_or, Bool.true_and, ih]
      · rw [Bool.not_eq_true] at hgap
        rw [withoutGaps_cons hgap, areArguments_cons, isGap_bared,
          OfTokens.bared (p := isNode .arguments), ih]

theorem eq_leaf_cons {ts us : List Tree} (h : Begins ts) {l : Leaf} {text : List Char}
    (heq : withoutGaps ts = .leaf l text :: us) : ∃ rest, ts = .leaf l text :: rest := by
  cases ts with
  | nil =>
      rw [withoutGaps_nil] at heq
      cases heq
  | cons t rest =>
      rw [withoutGaps_cons (isGap_of_begins h), List.cons.injEq] at heq
      exact ⟨rest, by rw [eq_leaf_of_bared heq.1]⟩

theorem callsRange_withoutGaps {ts : List Tree} (h : Flush ts) (hsound : ∀ t ∈ ts, Sound t) :
    callsRange (withoutGaps ts) = callsRange ts := by
  by_cases hcall : ∃ callee rest, ts = [.node .call (.leaf .name callee :: rest)]
  · obtain ⟨callee, rest, rfl⟩ := hcall
    simp only [withoutGaps_node, withoutGaps_leaf, withoutGaps_nil, callsRange_call,
      areArguments_withoutGaps]
  · rw [callsRange_eq_false fun callee rest heq => hcall ⟨callee, rest, heq⟩]
    refine callsRange_eq_false fun callee us heq => hcall ?_
    obtain ⟨inner, rfl, hinner⟩ := (single_node_iff h _ _).mp heq
    have hflush : Flush inner := (hsound _ (List.mem_singleton.mpr rfl)).flush .call
    obtain ⟨rest, rfl⟩ := eq_leaf_cons hflush.begins hinner
    exact ⟨callee, rest, rfl⟩

theorem any_isContinuation_withoutGaps (ts : List Tree) :
    (withoutGaps ts).any isContinuation = false := by
  induction ts with
  | nil => rfl
  | cons t rest ih => cases t <;> simpa [withoutGaps, isContinuation] using ih

theorem filter_isPart_withoutGaps (ts : List Tree) :
    (withoutGaps ts).filter isPart = (ts.filter isConstruct).map bared := by
  rw [filter_isPart_eq (any_isContinuation_withoutGaps ts), filter_withoutGaps]

mutual

/-- A call of `range` is found behind brackets with or without gaps, unless a line continuation is
one of the gaps. -/
theorem callsRange_unbracketed (ts : List Tree) (h : Flush ts) (hsound : ∀ t ∈ ts, Sound t)
    (hjoined : joinedExpression ts = false) :
    callsRange (unbracketed (withoutGaps ts)).2.1 = callsRange (unbracketed ts).2.1 := by
  by_cases hplain : ∀ inner, ts ≠ [.node .parenthesized inner]
  · have hplain' : ∀ inner, withoutGaps ts ≠ [.node .parenthesized inner] := by
      intro inner heq
      obtain ⟨inner', rfl, -⟩ := (single_node_iff h _ _).mp heq
      exact hplain inner' rfl
    rw [unbracketed_plain hplain, unbracketed_plain hplain']
    exact callsRange_withoutGaps h hsound
  obtain ⟨inner, rfl⟩ := not_forall_not.mp hplain
  have hinner : ∀ t ∈ inner, Sound t := (hsound _ (List.mem_singleton.mpr rfl)).children
  rw [show withoutGaps [.node .parenthesized inner] = [.node .parenthesized (withoutGaps inner)] by
    simp]
  by_cases hsingle : ∃ c, inner.filter isConstruct = [c]
  · obtain ⟨c, hc⟩ := hsingle
    rw [joinedExpression, hc, Bool.or_eq_false_iff] at hjoined
    have hpart : inner.filter isPart = [c] := by rw [filter_isPart_eq hjoined.1, hc]
    have hpart' : (withoutGaps inner).filter isPart = [bared c] := by
      rw [filter_isPart_withoutGaps, hc, List.map_singleton]
    have hsame := callsRange_unbracketedIn inner hinner hjoined.2
    cases hfound : unbracketedIn inner with
    | none =>
        rw [hfound, Option.map_none, Option.map_eq_none_iff] at hsame
        rw [unbracketed_whole fun _ _ => hfound, unbracketed_whole fun _ _ => hsame]
        rfl
    | some found =>
        rw [hfound, Option.map_some, Option.map_eq_some_iff] at hsame
        obtain ⟨found', hfound', hsame⟩ := hsame
        rw [unbracketed_single hpart hfound, unbracketed_single hpart' hfound', hsame]
  · have hmany : ∀ c, inner.filter isConstruct ≠ [c] := fun c hc => hsingle ⟨c, hc⟩
    have hmany' : ∀ c, (withoutGaps inner).filter isConstruct ≠ [c] := by
      intro c hc
      rw [filter_withoutGaps, List.map_eq_singleton_iff] at hc
      obtain ⟨c', hc', -⟩ := hc
      exact hmany c' hc'
    rw [unbracketed_many hmany, unbracketed_many hmany']
    rfl

theorem callsRange_unbracketedIn (ts : List Tree) (hsound : ∀ t ∈ ts, Sound t)
    (hjoined : joinedBracket ts = false) :
    (unbracketedIn (withoutGaps ts)).map (fun found => callsRange found.2.1) =
      (unbracketedIn ts).map fun found => callsRange found.2.1 :=
  match ts with
  | [] => by rw [withoutGaps_nil]
  | t :: rest => by
      obtain ⟨hfirst, hrest⟩ := List.forall_mem_cons.mp hsound
      by_cases hne : ∀ inner, t ≠ .node .expression inner
      · rw [joinedBracket_cons hne] at hjoined
        have ih := callsRange_unbracketedIn rest hrest hjoined
        rw [unbracketedIn_cons hne, Option.map_map]
        by_cases hgap : isGap t = true
        · rw [withoutGaps_of_isGap hgap]
          exact ih
        · rw [withoutGaps_cons (by simpa using hgap), unbracketedIn_cons, Option.map_map]
          · exact ih
          · intro inner heq
            obtain ⟨inner', rfl, -⟩ := eq_node_of_bared heq
            exact hne inner' rfl
      · obtain ⟨inner, rfl⟩ := not_forall_not.mp hne
        rw [joinedBracket] at hjoined
        have ih := callsRange_unbracketed inner (hfirst.flush .expression) hfirst.children hjoined
        rw [withoutGaps_node, unbracketedIn, unbracketedIn]
        exact congrArg some ih

end

theorem callsRange_iterated {ts : List Tree} (h : Flush ts) (hsound : ∀ t ∈ ts, Sound t) :
    callsRange (iterated ts).2.1 =
      (!joinedIterable ts && callsRange (iterated (withoutGaps ts)).2.1) := by
  cases hjoined : joinedIterable ts with
  | true =>
      have hother := (peels_iterated {} ts).other hjoined
      rw [callsRange, hother]
      rfl
  | false =>
      rw [Bool.not_false, Bool.true_and]
      by_cases hplain : ∀ inner, ts ≠ [.node .expression inner]
      · have hplain' : ∀ inner, withoutGaps ts ≠ [.node .expression inner] := by
          intro inner heq
          obtain ⟨inner', rfl, -⟩ := (single_node_iff h _ _).mp heq
          exact hplain inner' rfl
        rw [iterated_plain hplain, iterated_plain hplain']
        exact (callsRange_withoutGaps h hsound).symm
      · obtain ⟨inner, rfl⟩ := not_forall_not.mp hplain
        have hexpression := hsound _ (List.mem_singleton.mpr rfl)
        rw [show withoutGaps [.node .expression inner] = [.node .expression (withoutGaps inner)] by
          simp]
        exact (callsRange_unbracketed inner
          (hexpression.flush .expression) hexpression.children hjoined).symm

theorem isCut_bared (t : Tree) : isCut (bared t) = isCut t := by
  cases t with
  | gap g text => rfl
  | leaf l text => rfl
  | node kind children => cases kind <;> simp [isCut, find?_withoutGaps]

instance : OfTokens isDeclaration where
  gap _ _ := rfl
  bared t := by
    cases t with
    | gap g text => rfl
    | leaf l text => rfl
    | node kind children => cases kind <;> simp [isDeclaration, find?_withoutGaps]

mutual

theorem reached_bared (p : Tree → Bool) [hp : OfTokens p] (t : Tree) :
    (reached (bared t)).filter p = ((reached t).filter p).map bared :=
  match t with
  | .gap g text => by simp [reached, hp.gap]
  | .leaf l text => by
      by_cases h : p (.leaf l text) <;> simp [reached, h]
  | .node kind children => by
      have hnode := hp.bared (.node kind children)
      have hcut := isCut_bared (.node kind children)
      rw [bared_node] at hnode hcut ⊢
      rw [reached, reached, hcut, List.filter_cons, List.filter_cons, hnode]
      by_cases hchildren : isCut (.node kind children) = true
      · rw [if_pos hchildren, if_pos hchildren, reachedWithin_withoutGaps p children]
        split <;> simp
      · rw [if_neg hchildren, if_neg hchildren]
        split <;> simp

theorem reachedWithin_withoutGaps (p : Tree → Bool) [OfTokens p] (ts : List Tree) :
    (reachedWithin (withoutGaps ts)).filter p = ((reachedWithin ts).filter p).map bared :=
  match ts with
  | [] => by simp [reachedWithin]
  | .gap g text :: rest => by
      rw [withoutGaps_gap, reachedWithin, reachedWithin_withoutGaps p rest]
  | .leaf l text :: rest => by
      rw [withoutGaps_leaf, reachedWithin, reachedWithin, reachedWithin_withoutGaps p rest]
  | .node kind children :: rest => by
      rw [withoutGaps_node]
      by_cases hblock : kind = .block
      · subst hblock
        rw [reachedWithin, reachedWithin, List.filter_append, List.filter_append, List.map_append,
          reachedAmong_withoutGaps p children, reachedWithin_withoutGaps p rest]
      · rw [reachedWithin, reachedWithin, List.filter_append, List.filter_append, List.map_append,
          reachedWithin_withoutGaps p children, reachedWithin_withoutGaps p rest]
        · exact hblock
        · exact hblock

theorem reachedAmong_withoutGaps (p : Tree → Bool) [hp : OfTokens p] (ts : List Tree) :
    (reachedAmong (withoutGaps ts)).filter p = ((reachedAmong ts).filter p).map bared :=
  match ts with
  | [] => by simp [reachedAmong]
  | .gap g text :: rest => by
      rw [withoutGaps_gap, reachedAmong, reachedAmong_withoutGaps p rest]
      cases g <;> simp [isPart, reached, hp.gap]
  | .leaf l text :: rest => by
      rw [withoutGaps_leaf, reachedAmong, reachedAmong, List.filter_append, List.filter_append,
        List.map_append, reachedAmong_withoutGaps p rest]
      rfl
  | .node kind children :: rest => by
      rw [withoutGaps_cons rfl, reachedAmong, reachedAmong, List.filter_append, List.filter_append,
        List.map_append, reachedAmong_withoutGaps p rest]
      have hfirst := reached_bared p (.node kind children)
      rw [bared_node] at hfirst ⊢
      simp only [isPart, if_true, hfirst]

end

end Cythonizer.Proofs.Outline.Tokens
