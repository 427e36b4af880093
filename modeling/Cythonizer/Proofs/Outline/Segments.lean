import Mathlib.Data.List.Forall2
import Cythonizer.Proofs.Outline.Fragments

namespace Cythonizer.Proofs.Outline.Segments

open Cythonizer.Outline.Basic
open Cythonizer.Outline.OfTree
open Cythonizer.Source.Trees
open Cythonizer.Proofs.Outline.Fragments

/-- Whether a tree is a construct. Among the children of a block these are the statements and the
match cases. -/
def isConstruct : Tree → Bool
  | .node _ _ => true
  | .gap _ _ => false
  | .leaf _ _ => false

/-- A piece of a statement: text, or a part of one of its blocks with the characters before it on
its line. -/
inductive Segment
  | text (text : List Char)
  | part (line : List Char) (tree : Tree)

/-- The segments of the children of a block. -/
def items (line : List Char) : List Tree → List Segment
  | [] => []
  | t :: rest =>
    (if isPart t then .part line t else .text (spell t)) :: items (lineAfter line (spell t)) rest

/-- The segments of trees: the parts of their blocks and the text among them. -/
def segments (line : List Char) : List Tree → List Segment
  | [] => []
  | t :: rest =>
    let next := lineAfter line (spell t)
    match t with
    | .node .block children => items line children ++ segments next rest
    | .node _ children => segments line children ++ segments next rest
    | .gap _ text => .text text :: segments next rest
    | .leaf _ text => .text text :: segments next rest

/-- Induction on trees as they are cut: a block is not entered, other constructs are. -/
@[elab_as_elim]
theorem trees_induction {motive : List Tree → Prop} (nil : motive [])
    (gap : ∀ g text rest, motive rest → motive (.gap g text :: rest))
    (leaf : ∀ l text rest, motive rest → motive (.leaf l text :: rest))
    (block : ∀ children rest, motive rest → motive (.node .block children :: rest))
    (node : ∀ kind children rest, kind ≠ .block → motive children → motive rest →
      motive (.node kind children :: rest)) (ts : List Tree) : motive ts :=
  match ts with
  | [] => nil
  | .gap g text :: rest => gap g text rest (trees_induction nil gap leaf block node rest)
  | .leaf l text :: rest => leaf l text rest (trees_induction nil gap leaf block node rest)
  | .node kind children :: rest => by
      have hrest := trees_induction nil gap leaf block node rest
      by_cases h : kind = .block
      · subst h
        exact block children rest hrest
      · exact node kind children rest h (trees_induction nil gap leaf block node children) hrest

theorem segments_block (line : List Char) (children rest : List Tree) :
    segments line (.node .block children :: rest) =
      items line children ++ segments (lineAfter line (spellAll children)) rest := by
  rw [segments]
  rfl

theorem segments_node {kind : Kind} (h : kind ≠ .block) (line : List Char)
    (children rest : List Tree) :
    segments line (.node kind children :: rest) =
      segments line children ++ segments (lineAfter line (spellAll children)) rest := by
  rw [segments]
  · rfl
  · exact h

def Segment.spell : Segment → List Char
  | .text t => t
  | .part _ t => Source.Trees.spell t

theorem spell_items (line : List Char) (ts : List Tree) :
    (items line ts).flatMap Segment.spell = spellAll ts := by
  induction ts generalizing line with
  | nil => rfl
  | cons t rest ih =>
      unfold items
      by_cases h : isPart t <;> simp [h, ih, Segment.spell, spellAll]

theorem spell_segments (line : List Char) (ts : List Tree) :
    (segments line ts).flatMap Segment.spell = spellAll ts := by
  induction ts using trees_induction generalizing line with
  | nil =>
      rw [segments]
      rfl
  | gap g text rest ih =>
      rw [segments, List.flatMap_cons, ih]
      rfl
  | leaf l text rest ih =>
      rw [segments, List.flatMap_cons, ih]
      rfl
  | block children rest ih =>
      rw [segments_block, List.flatMap_append, spell_items, ih]
      rfl
  | node kind children rest h ihchildren ih =>
      rw [segments_node h, List.flatMap_append, ihchildren, ih]
      rfl

def resolve : Segment → Except Defect Fragment
  | .text text => return .text (String.ofList text)
  | .part line t => return .statement (← statementOf line t)

theorem blockFragments_eq (line : List Char) (ts : List Tree) :
    blockFragments line ts = gather <$> (items line ts).mapM resolve := by
  induction ts generalizing line with
  | nil => rfl
  | cons t rest ih =>
      unfold blockFragments items
      dsimp only
      rw [ih]
      by_cases h : isPart t
      · simp only [h, if_true, List.mapM_cons, resolve]
        cases statementOf line t with
        | error fault => rfl
        | ok s => cases (items (lineAfter line (spell t)) rest).mapM resolve <;> rfl
      · simp only [h, List.mapM_cons, resolve]
        cases (items (lineAfter line (spell t)) rest).mapM resolve with
        | error fault => rfl
        | ok fs => exact congrArg Except.ok (joined_ofList _ _).symm

theorem gather_mapM_append {a b : Except Defect (List Fragment)} {x y : List Segment}
    (ha : a = gather <$> x.mapM resolve) (hb : b = gather <$> y.mapM resolve) :
    (do
      let inner ← a
      let outer ← b
      return inner.foldr joined outer) = gather <$> (x ++ y).mapM resolve := by
  rw [ha, hb, List.mapM_append]
  cases x.mapM resolve with
  | error fault => rfl
  | ok fs =>
      cases y.mapM resolve with
      | error fault => rfl
      | ok gs => exact congrArg Except.ok (gather_append fs gs).symm

theorem gather_mapM_text {b : Except Defect (List Fragment)} {y : List Segment}
    (text : List Char) (hb : b = gather <$> y.mapM resolve) :
    (do return consText text (← b)) = gather <$> (Segment.text text :: y).mapM resolve := by
  rw [hb, List.mapM_cons]
  cases y.mapM resolve with
  | error fault => rfl
  | ok gs => exact congrArg Except.ok (joined_ofList _ _).symm

theorem fragmentsOf_eq (line : List Char) (ts : List Tree) :
    fragmentsOf line ts = gather <$> (segments line ts).mapM resolve := by
  induction ts using trees_induction generalizing line with
  | nil =>
      rw [fragmentsOf, segments]
      rfl
  | gap g text rest ih =>
      rw [fragmentsOf, segments]
      exact gather_mapM_text text (ih _)
  | leaf l text rest ih =>
      rw [fragmentsOf, segments]
      exact gather_mapM_text text (ih _)
  | block children rest ih =>
      rw [fragmentsOf, segments_block]
      exact gather_mapM_append (blockFragments_eq _ _) (ih _)
  | node kind children rest h ihchildren ih =>
      rw [fragmentsOf, segments_node h]
      · exact gather_mapM_append (ihchildren _) (ih _)
      · exact h

def partsIn (segments : List Segment) : List (List Char × Tree) :=
  segments.filterMap fun
    | .text _ => none
    | .part line t => some (line, t)

/-- The text after the last part among segments. -/
def closingText : List Segment → List Char
  | [] => []
  | .text t :: rest => if partsIn rest = [] then t ++ closingText rest else closingText rest
  | .part _ _ :: rest => closingText rest

theorem closingText_eq_spell {segments : List Segment} (h : partsIn segments = []) :
    closingText segments = segments.flatMap Segment.spell := by
  induction segments with
  | nil => rfl
  | cons segment rest ih =>
      cases segment with
      | text t =>
          have hrest : partsIn rest = [] := h
          rw [closingText, if_pos hrest, ih hrest, List.flatMap_cons]
          rfl
      | part line t => cases h

theorem partsIn_append (a b : List Segment) : partsIn (a ++ b) = partsIn a ++ partsIn b :=
  List.filterMap_append

def blockParts : List Tree → List Tree
  | [] => []
  | .node .block children :: rest => children.filter isPart ++ blockParts rest
  | .node _ children :: rest => blockParts children ++ blockParts rest
  | .gap _ _ :: rest => blockParts rest
  | .leaf _ _ :: rest => blockParts rest

theorem blockParts_node {kind : Kind} (h : kind ≠ .block) (children rest : List Tree) :
    blockParts (.node kind children :: rest) = blockParts children ++ blockParts rest := by
  rw [blockParts]
  exact h

theorem partsIn_items (line : List Char) (ts : List Tree) :
    (partsIn (items line ts)).map Prod.snd = ts.filter isPart := by
  induction ts generalizing line with
  | nil => rfl
  | cons t rest ih =>
      unfold items
      by_cases h : isPart t
      · simpa [h, partsIn] using ih _
      · simpa [h, partsIn] using ih _

theorem partsIn_segments (line : List Char) (ts : List Tree) :
    (partsIn (segments line ts)).map Prod.snd = blockParts ts := by
  induction ts using trees_induction generalizing line with
  | nil =>
      rw [segments, blockParts]
      rfl
  | gap g text rest ih =>
      rw [segments, blockParts]
      exact ih _
  | leaf l text rest ih =>
      rw [segments, blockParts]
      exact ih _
  | block children rest ih =>
      rw [segments_block, blockParts, partsIn_append, List.map_append, partsIn_items, ih]
  | node kind children rest h ihchildren ih =>
      rw [segments_node h, blockParts_node h, partsIn_append, List.map_append, ihchildren, ih]

theorem mem_of_mem_items {line : List Char} {ts : List Tree} {part : List Char × Tree}
    (h : part ∈ partsIn (items line ts)) : part.2 ∈ ts := by
  have hsecond : part.2 ∈ (partsIn (items line ts)).map Prod.snd := List.mem_map_of_mem h
  rw [partsIn_items] at hsecond
  exact (List.mem_filter.mp hsecond).1

theorem mem_blockParts_of_mem_segments {line : List Char} {ts : List Tree} {part : List Char × Tree}
    (h : part ∈ partsIn (segments line ts)) : part.2 ∈ blockParts ts := by
  rw [← partsIn_segments line]
  exact List.mem_map_of_mem h

/-- A segment without the characters before it. -/
def Segment.forget : Segment → Segment
  | .text t => .text t
  | .part _ t => .part [] t

theorem forget_items (line line' : List Char) (ts : List Tree) :
    (items line ts).map Segment.forget = (items line' ts).map Segment.forget := by
  induction ts generalizing line line' with
  | nil => rfl
  | cons t rest ih =>
      rw [items, items, List.map_cons, List.map_cons, ih _ (lineAfter line' (spell t))]
      by_cases h : isPart t <;> simp [h, Segment.forget]

theorem forget_segments (line line' : List Char) (ts : List Tree) :
    (segments line ts).map Segment.forget = (segments line' ts).map Segment.forget := by
  induction ts using trees_induction generalizing line line' with
  | nil => rw [segments, segments]
  | gap g text rest ih => rw [segments, segments, List.map_cons, List.map_cons, ih]
  | leaf l text rest ih => rw [segments, segments, List.map_cons, List.map_cons, ih]
  | block children rest ih =>
      rw [segments_block, segments_block, List.map_append, List.map_append,
        forget_items line line', ih]
  | node kind children rest h ihchildren ih =>
      rw [segments_node h, segments_node h, List.map_append, List.map_append,
        ihchildren line line', ih]

theorem closingText_forget (segments : List Segment) :
    closingText (segments.map Segment.forget) = closingText segments := by
  have hparts (segments : List Segment) :
      partsIn (segments.map Segment.forget) = [] ↔ partsIn segments = [] := by
    induction segments with
    | nil => rfl
    | cons segment rest ih => cases segment <;> simp_all [partsIn, Segment.forget]
  induction segments with
  | nil => rfl
  | cons segment rest ih =>
      cases segment with
      | text t => simp [Segment.forget, closingText, hparts, ih]
      | part line t => exact ih

theorem closingText_segments (line line' : List Char) (ts : List Tree) :
    closingText (segments line ts) = closingText (segments line' ts) := by
  rw [← closingText_forget, forget_segments line line', closingText_forget]

theorem isPart_of_mem_blockParts {p : Tree} {ts : List Tree} (h : p ∈ blockParts ts) :
    isPart p = true := by
  induction ts using trees_induction with
  | nil => simp [blockParts] at h
  | gap g text rest ih =>
      rw [blockParts] at h
      exact ih h
  | leaf l text rest ih =>
      rw [blockParts] at h
      exact ih h
  | block children rest ih =>
      rw [blockParts, List.mem_append] at h
      exact h.elim (fun h => (List.mem_filter.mp h).2) ih
  | node kind children rest hkind ihchildren ih =>
      rw [blockParts_node hkind, List.mem_append] at h
      exact h.elim ihchildren ih

theorem sizeOf_lt_of_mem_blockParts {p : Tree} {ts : List Tree} (h : p ∈ blockParts ts) :
    sizeOf p < sizeOf ts := by
  induction ts using trees_induction with
  | nil => simp [blockParts] at h
  | gap g text rest ih =>
      rw [blockParts] at h
      have := ih h
      simp only [List.cons.sizeOf_spec]
      omega
  | leaf l text rest ih =>
      rw [blockParts] at h
      have := ih h
      simp only [List.cons.sizeOf_spec]
      omega
  | block children rest ih =>
      rw [blockParts, List.mem_append] at h
      simp only [List.cons.sizeOf_spec, Tree.node.sizeOf_spec]
      rcases h with h | h
      · have := List.sizeOf_lt_of_mem (List.mem_filter.mp h).1
        omega
      · have := ih h
        omega
  | node kind children rest hkind ihchildren ih =>
      rw [blockParts_node hkind, List.mem_append] at h
      simp only [List.cons.sizeOf_spec, Tree.node.sizeOf_spec]
      rcases h with h | h
      · have := ihchildren h
        omega
      · have := ih h
        omega

theorem sizeOf_lt_of_mem_children {p t : Tree} (h : p ∈ blockParts (childrenOf t)) :
    sizeOf p < sizeOf t := by
  have hlt := sizeOf_lt_of_mem_blockParts h
  cases t with
  | node kind children =>
      rw [Tree.node.sizeOf_spec]
      exact Nat.lt_trans hlt (by rw [childrenOf]; omega)
  | gap g text => simp [childrenOf, blockParts] at h
  | leaf l text => simp [childrenOf, blockParts] at h

/-- Whether a statement is cut into segments. -/
def isCut : Tree → Bool
  | .node .importNames _ => false
  | .node .importFrom _ => false
  | .node .function _ => false
  | .node .decorated children => (find? .function children).isNone
  | .node .forLoop _ => false
  | .node _ _ => true
  | .gap _ _ => false
  | .leaf _ _ => false

theorem cut_cases {t : Tree} (h : isCut t = true) :
    (∃ children, t = .node .decorated children ∧ find? .function children = none) ∨
      ∃ kind children, t = .node kind children ∧
        kind ∉ [Kind.importNames, .importFrom, .function, .decorated, .forLoop] := by
  unfold isCut at h
  split at h
  case h_4 children => exact .inl ⟨children, rfl, by simpa using h⟩
  case h_6 kind children _ _ _ _ _ => exact .inr ⟨kind, children, rfl, by simp_all⟩
  all_goals cases h

mutual

/-- The parts that are reached from a part: itself and, if it is cut into segments, the parts that
are reached from the parts of its blocks. -/
def reached : Tree → List Tree
  | .node kind children =>
    .node kind children :: (if isCut (.node kind children) then reachedWithin children else [])
  | .gap g text => [.gap g text]
  | .leaf l text => [.leaf l text]

/-- The parts that are reached from the blocks of trees. -/
def reachedWithin : List Tree → List Tree
  | [] => []
  | .node .block children :: rest => reachedAmong children ++ reachedWithin rest
  | .node _ children :: rest => reachedWithin children ++ reachedWithin rest
  | .gap _ _ :: rest => reachedWithin rest
  | .leaf _ _ :: rest => reachedWithin rest

/-- The parts that are reached from the parts among trees. -/
def reachedAmong : List Tree → List Tree
  | [] => []
  | t :: rest => (if isPart t then reached t else []) ++ reachedAmong rest

end

theorem reachedAmong_eq (ts : List Tree) :
    reachedAmong ts = (ts.filter isPart).flatMap reached := by
  induction ts with
  | nil => simp [reachedAmong]
  | cons t rest ih =>
      rw [reachedAmong, ih]
      by_cases h : isPart t <;> simp [h]

theorem reachedWithin_eq (ts : List Tree) : reachedWithin ts = (blockParts ts).flatMap reached := by
  induction ts using trees_induction with
  | nil => simp [reachedWithin, blockParts]
  | gap g text rest ih => rw [reachedWithin, blockParts, ih]
  | leaf l text rest ih => rw [reachedWithin, blockParts, ih]
  | block children rest ih =>
      rw [reachedWithin, blockParts, List.flatMap_append, reachedAmong_eq, ih]
  | node kind children rest h ihchildren ih =>
      rw [reachedWithin, blockParts_node h, List.flatMap_append, ihchildren, ih]
      exact h

theorem reached_of_isCut {t : Tree} (h : isCut t = true) :
    reached t = t :: (blockParts (childrenOf t)).flatMap reached := by
  cases t with
  | gap g text => cases h
  | leaf l text => cases h
  | node kind children => rw [reached, if_pos h, reachedWithin_eq, childrenOf]

theorem reached_of_not_cut {t : Tree} (h : isCut t = false) : reached t = [t] := by
  cases t with
  | gap g text => rw [reached]
  | leaf l text => rw [reached]
  | node kind children => rw [reached, if_neg (by simp [h])]

theorem mem_reached (t : Tree) : t ∈ reached t := by
  cases t <;> simp [reached]

theorem isPart_of_mem_reached {p t : Tree} (ht : isPart t = true) (hp : p ∈ reached t) :
    isPart p = true := by
  by_cases hcut : isCut t = true
  · rw [reached_of_isCut hcut] at hp
    rcases List.mem_cons.mp hp with rfl | hp
    · exact ht
    · obtain ⟨q, hq, hp⟩ := List.mem_flatMap.mp hp
      exact isPart_of_mem_reached (isPart_of_mem_blockParts hq) hp
  · rw [reached_of_not_cut (by simpa using hcut)] at hp
    obtain rfl := List.mem_singleton.mp hp
    exact ht
termination_by sizeOf t
decreasing_by exact sizeOf_lt_of_mem_children hq

theorem isPart_of_mem_reachedAmong {p : Tree} {ts : List Tree} (h : p ∈ reachedAmong ts) :
    isPart p = true := by
  rw [reachedAmong_eq] at h
  obtain ⟨t, ht, hp⟩ := List.mem_flatMap.mp h
  exact isPart_of_mem_reached (List.mem_filter.mp ht).2 hp

/-- A form of trees that every tree in one has too. -/
def Inherits (K : Tree → Prop) : Prop :=
  ∀ t, K t → ∀ c ∈ childrenOf t, K c

section

variable {K : Tree → Prop} (hK : Inherits K)

include hK

theorem Inherits.of_mem_blockParts {p : Tree} {ts : List Tree} (h : ∀ t ∈ ts, K t)
    (hp : p ∈ blockParts ts) : K p := by
  induction ts using trees_induction with
  | nil => simp [blockParts] at hp
  | gap g text rest ih =>
      rw [blockParts] at hp
      exact ih (List.forall_mem_cons.mp h).2 hp
  | leaf l text rest ih =>
      rw [blockParts] at hp
      exact ih (List.forall_mem_cons.mp h).2 hp
  | block children rest ih =>
      obtain ⟨hfirst, hrest⟩ := List.forall_mem_cons.mp h
      rw [blockParts, List.mem_append] at hp
      exact hp.elim (fun hp => hK _ hfirst p (List.mem_filter.mp hp).1) (ih hrest)
  | node kind children rest hblock ihchildren ih =>
      obtain ⟨hfirst, hrest⟩ := List.forall_mem_cons.mp h
      rw [blockParts_node hblock, List.mem_append] at hp
      exact hp.elim (ihchildren (hK _ hfirst)) (ih hrest)

theorem Inherits.of_mem_reached {p t : Tree} (h : K t) (hp : p ∈ reached t) : K p := by
  by_cases hcut : isCut t = true
  · rw [reached_of_isCut hcut] at hp
    rcases List.mem_cons.mp hp with rfl | hp
    · exact h
    · obtain ⟨q, hq, hp⟩ := List.mem_flatMap.mp hp
      exact Inherits.of_mem_reached (hK.of_mem_blockParts (hK t h) hq) hp
  · rw [reached_of_not_cut (by simpa using hcut)] at hp
    rwa [List.mem_singleton.mp hp]
termination_by sizeOf t
decreasing_by exact sizeOf_lt_of_mem_children hq

theorem Inherits.of_mem_reachedAmong {p : Tree} {ts : List Tree} (h : ∀ t ∈ ts, K t)
    (hp : p ∈ reachedAmong ts) : K p := by
  rw [reachedAmong_eq] at hp
  obtain ⟨t, ht, hp⟩ := List.mem_flatMap.mp hp
  exact hK.of_mem_reached (h t (List.mem_filter.mp ht).1) hp

end

theorem bind_eq_ok {ε α β : Type} {x : Except ε α} {f : α → Except ε β} {b : β} :
    x >>= f = .ok b ↔ ∃ a, x = .ok a ∧ f a = .ok b := by
  constructor
  · intro h
    cases x with
    | error e => cases h
    | ok a => exact ⟨a, rfl, h⟩
  · rintro ⟨a, rfl, h⟩
    exact h

theorem exists_of_isOk {ε α : Type} {x : Except ε α} (h : x.isOk = true) : ∃ a, x = .ok a := by
  cases x with
  | error e => cases h
  | ok a => exact ⟨a, rfl⟩

theorem forall₂_of_mapM {segments : List Segment} {fragments : List Fragment}
    (h : segments.mapM resolve = .ok fragments) :
    List.Forall₂ (fun segment fragment => resolve segment = .ok fragment) segments fragments := by
  induction segments generalizing fragments with
  | nil =>
      cases h
      exact .nil
  | cons segment rest ih =>
      rw [List.mapM_cons] at h
      obtain ⟨fragment, hfirst, h⟩ := bind_eq_ok.mp h
      obtain ⟨others, hrest, h⟩ := bind_eq_ok.mp h
      cases h
      exact .cons hfirst (ih hrest)

theorem resolve_text {text : List Char} {fragment : Fragment}
    (h : resolve (.text text) = .ok fragment) : fragment = .text (String.ofList text) := by
  cases h
  rfl

theorem resolve_part {line : List Char} {t : Tree} {fragment : Fragment}
    (h : resolve (.part line t) = .ok fragment) :
    ∃ s, statementOf line t = .ok s ∧ fragment = .statement s := by
  obtain ⟨s, hs, h⟩ := bind_eq_ok.mp h
  cases h
  exact ⟨s, hs, rfl⟩

section

variable {segments : List Segment} {fragments : List Fragment}

theorem statementsIn_of_resolved
    (h : List.Forall₂ (fun segment fragment => resolve segment = .ok fragment) segments fragments) :
    List.Forall₂ (fun part s => statementOf part.1 part.2 = .ok s) (partsIn segments)
      (statementsIn fragments) := by
  induction h with
  | nil => exact .nil
  | @cons segment fragment segments fragments hfirst _ ih =>
      cases segment with
      | text t =>
          obtain rfl := resolve_text hfirst
          exact ih
      | part line t =>
          obtain ⟨s, hs, rfl⟩ := resolve_part hfirst
          exact .cons hs ih

theorem closing_of_resolved
    (h : List.Forall₂ (fun segment fragment => resolve segment = .ok fragment) segments fragments) :
    closing fragments = closingText segments := by
  induction h with
  | nil => rfl
  | @cons segment fragment segments fragments hfirst hrest ih =>
      cases segment with
      | text t =>
          obtain rfl := resolve_text hfirst
          have hparts : statementsIn fragments = [] ↔ partsIn segments = [] := by
            rw [← List.length_eq_zero_iff, ← (statementsIn_of_resolved hrest).length_eq,
              List.length_eq_zero_iff]
          simp [closing, closingText, hparts, ih]
      | part line t =>
          obtain ⟨s, -, rfl⟩ := resolve_part hfirst
          exact ih

end

theorem statementOf_of_isCut {line : List Char} {t : Tree} (h : isCut t = true) :
    statementOf line t = .error .noDefinition ∨
      statementOf line t = (do return ofFragments (← fragmentsOf line (childrenOf t))) := by
  obtain ⟨children, rfl, hnone⟩ | ⟨kind, children, rfl, hkind⟩ := cut_cases h
  · rw [statementOf, hnone, childrenOf]
    dsimp only
    split
    · exact .inr rfl
    · exact .inl rfl
  · right
    rw [statementOf, childrenOf]
    all_goals
      rintro rfl
      simp at hkind

theorem statementOf_cut {line : List Char} {t : Tree} {s : Statement} (h : isCut t = true)
    (hs : statementOf line t = .ok s) :
    ∃ fragments, List.Forall₂ (fun segment fragment => resolve segment = .ok fragment)
      (segments line (childrenOf t)) fragments ∧ s = ofFragments (gather fragments) := by
  rcases @statementOf_of_isCut line t h with herror | hcut
  · rw [herror] at hs
    cases hs
  · rw [hcut, fragmentsOf_eq, bind_map_left] at hs
    obtain ⟨fragments, hmapM, hs⟩ := bind_eq_ok.mp hs
    cases hs
    exact ⟨fragments, forall₂_of_mapM hmapM, rfl⟩

end Cythonizer.Proofs.Outline.Segments
