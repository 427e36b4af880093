import Cythonizer.Outline.Reading
import Cythonizer.Proofs.Outline.Segments
import Cythonizer.Proofs.Source.Statements

/-!
The statements of an outline and the statements of its source. They correspond, in order and in
every block that is reached, exactly if no line continuation stands between the statements of a
block (`corresponds_iff`).
-/

namespace Cythonizer.Proofs.Outline.Correspondence

open Cythonizer.Outline.Basic
open Cythonizer.Outline.OfTree
open Cythonizer.Outline.Reading (legacyAmong)
open Cythonizer.Source.Syntax
open Cythonizer.Source.Trees
open Cythonizer.Proofs.Outline.Fragments
open Cythonizer.Proofs.Outline.Segments
open Cythonizer.Proofs.Source.Statements

def innerStatements (t : Tree) : List Tree :=
  (blockParts (childrenOf t)).filter isConstruct

def isDeclaration : Tree → Bool
  | .node .function _ => true
  | .node .decorated children => (find? .function children).isSome
  | _ => false

/-- A statement of an outline that stands for a statement of the source. Where it has blocks that
are reached, the same holds of all statements in them. -/
inductive Represents : Tree → Statement → Prop
  | importNames (children : List Tree) :
      Represents (.node .importNames children) (.importNames (trimmedTextOf children))
  | importFrom (children : List Tree) :
      Represents (.node .importFrom children) (.importFrom (trimmedTextOf children))
  | function {line : List Char} {children : List Tree} {f : Function}
      (h : functionOf line line [] children = .ok f) :
      Represents (.node .function children) (.function f)
  /-- The function has the decorators that stand before its definition. -/
  | decorated {line start : List Char} {children definition : List Tree} {f : Function}
      (hdefinition : find? .function children = some definition)
      (h : functionOf line start (decoratorsOf children) definition = .ok f) :
      Represents (.node .decorated children) (.function f)
  | loop (children : List Tree) : Represents (.node .forLoop children) (.loop (loopOf children))
  | other {t : Tree} (h : isCut t = true) (hinner : innerStatements t = []) :
      Represents t (.other (trimmedTextOf (childrenOf t)))
  | compound {t : Tree} {fragments : List Fragment} (h : isCut t = true)
      (hinner : List.Forall₂ Represents (innerStatements t) (statementsIn fragments)) :
      Represents t (.compound fragments)

section

variable {α β : Type} {Q R : α → β → Prop} {as : List α} {bs : List β}

theorem forall₂_filter_iff {p : α → Bool} (h : List.Forall₂ Q as bs) :
    List.Forall₂ R (as.filter p) bs ↔ (∀ a ∈ as, p a = true) ∧ List.Forall₂ R as bs := by
  constructor
  · intro hfilter
    have hlength : (as.filter p).length = as.length := by
      rw [hfilter.length_eq, h.length_eq]
    have hall := List.length_filter_eq_length_iff.mp hlength
    rw [List.filter_eq_self.mpr hall] at hfilter
    exact ⟨hall, hfilter⟩
  · rintro ⟨hall, hforall⟩
    rwa [List.filter_eq_self.mpr hall]

theorem forall₂_iff_forall {N : α → Prop} (h : List.Forall₂ Q as bs)
    (hiff : ∀ a ∈ as, ∀ b, Q a b → (R a b ↔ N a)) : List.Forall₂ R as bs ↔ ∀ a ∈ as, N a := by
  induction h with
  | nil => simp
  | @cons a b as bs hfirst _ ih =>
      rw [List.forall₂_cons, List.forall_mem_cons, hiff a List.mem_cons_self b hfirst,
        ih fun a ha => hiff a (List.mem_cons_of_mem _ ha)]

end

theorem eq_continuation {t : Tree} (h : isPart t = true) (ht : isConstruct t = false) :
    ∃ text, t = .gap .continuation text := by
  cases t with
  | gap g text =>
      cases g with
      | blank => cases h
      | comment => cases h
      | continuation => exact ⟨text, rfl⟩
  | leaf l text => cases h
  | node kind children => cases ht

theorem forall₂_blockParts {line : List Char} {ts : List Tree} {fragments : List Fragment}
    (h : List.Forall₂ (fun segment fragment => resolve segment = .ok fragment)
      (segments line ts) fragments) :
    List.Forall₂ (fun p s => ∃ line, statementOf line p = .ok s) (blockParts ts)
      (statementsIn fragments) := by
  rw [← partsIn_segments line, List.forall₂_map_left_iff]
  exact (statementsIn_of_resolved h).imp fun _ _ h => ⟨_, h⟩

theorem represents_other_iff {t : Tree} (h : isCut t = true) :
    Represents t (.other (trimmedTextOf (childrenOf t))) ↔ innerStatements t = [] := by
  constructor
  · intro hother
    generalize trimmedTextOf (childrenOf t) = text at hother
    rcases hother with _ | _ | _ | _ | _ | ⟨-, hinner⟩
    exact hinner
  · exact .other h

theorem represents_compound_iff {t : Tree} (h : isCut t = true) (fragments : List Fragment) :
    Represents t (.compound fragments) ↔
      List.Forall₂ Represents (innerStatements t) (statementsIn fragments) := by
  constructor
  · rintro (_ | _ | _ | _ | _ | _ | ⟨-, hinner⟩)
    exact hinner
  · exact .compound h

theorem represents_ofFragments {line : List Char} {t : Tree} {fragments : List Fragment}
    (h : isCut t = true)
    (hfragments : List.Forall₂ (fun segment fragment => resolve segment = .ok fragment)
      (segments line (childrenOf t)) fragments) :
    Represents t (ofFragments (gather fragments)) ↔
      List.Forall₂ Represents (innerStatements t) (statementsIn fragments) := by
  by_cases hnone : statementsIn fragments = []
  · have hparts := statementsIn_of_resolved hfragments
    rw [hnone, List.forall₂_nil_right_iff] at hparts
    have hclosing : closing fragments = spellAll (childrenOf t) := by
      rw [closing_of_resolved hfragments, closingText_eq_spell hparts, spell_segments]
    rw [gather_eq_consText hnone, ofFragments_consText, hclosing, hnone,
      List.forall₂_nil_right_iff]
    exact represents_other_iff h
  · rw [ofFragments_of_statements (by rwa [statementsIn_gather]), represents_compound_iff h,
      statementsIn_trimLast, statementsIn_gather]

theorem eq_function_of_bind {x : Except Defect Function} {s : Statement}
    (h : (do return Statement.function (← x)) = Except.ok s) :
      ∃ f, x = .ok f ∧ s = .function f := by
  obtain ⟨f, hf, h⟩ := bind_eq_ok.mp h
  cases h
  exact ⟨f, hf, rfl⟩

theorem eq_function {line : List Char} {t : Tree} {s : Statement} (h : isDeclaration t = true)
    (hs : statementOf line t = .ok s) : ∃ f, s = .function f := by
  unfold isDeclaration at h
  split at h
  · rw [statementOf] at hs
    obtain ⟨f, -, hf⟩ := eq_function_of_bind hs
    exact ⟨f, hf⟩
  · rename_i children
    rw [statementOf] at hs
    cases hfind : find? .function children with
    | none => simp [hfind] at h
    | some definition =>
        rw [hfind] at hs
        obtain ⟨f, -, hf⟩ := eq_function_of_bind hs
        exact ⟨f, hf⟩
  · cases h

theorem represents_of_not_cut {line : List Char} {t : Tree} {s : Statement}
    (ht : isConstruct t = true) (h : isCut t = false) (hs : statementOf line t = .ok s) :
    Represents t s := by
  unfold isCut at h
  split at h
  case h_1 children =>
    cases hs
    exact .importNames children
  case h_2 children =>
    cases hs
    exact .importFrom children
  case h_3 children =>
    rw [statementOf] at hs
    obtain ⟨f, hf, rfl⟩ := eq_function_of_bind hs
    exact .function hf
  case h_4 children =>
    cases hfind : find? .function children with
    | none => simp [hfind] at h
    | some definition =>
        rw [statementOf, hfind] at hs
        obtain ⟨f, hf, rfl⟩ := eq_function_of_bind hs
        exact .decorated hfind hf
  case h_5 children =>
    cases hs
    exact .loop children
  all_goals cases h
  all_goals cases ht

/-- Statements represent their trees one for one if every part is a statement that is represented.
-/
theorem forall₂_represents_iff {parts : List Tree} {statements : List Statement}
    (h : List.Forall₂ (fun p s => ∃ line, statementOf line p = .ok s) parts statements)
    (hiff : ∀ p ∈ parts, isConstruct p = true → ∀ line s, statementOf line p = .ok s →
      (Represents p s ↔ ∀ q ∈ reached p, isConstruct q = true)) :
    List.Forall₂ Represents (parts.filter isConstruct) statements ↔
      ∀ q ∈ parts.flatMap reached, isConstruct q = true := by
  have hinner (hall : ∀ p ∈ parts, isConstruct p = true) :
      List.Forall₂ Represents parts statements ↔
        ∀ p ∈ parts, ∀ q ∈ reached p, isConstruct q = true :=
    forall₂_iff_forall h fun p hp s ⟨line, hs⟩ => hiff p hp (hall p hp) line s hs
  rw [forall₂_filter_iff h, List.forall_mem_flatMap]
  constructor
  · rintro ⟨hall, hforall⟩
    exact (hinner hall).mp hforall
  · intro hclean
    have hall : ∀ p ∈ parts, isConstruct p = true := fun p hp => hclean p hp p (mem_reached p)
    exact ⟨hall, (hinner hall).mpr hclean⟩

theorem represents_iff {line : List Char} {t : Tree} {s : Statement} (ht : isConstruct t = true)
    (hs : statementOf line t = .ok s) :
    Represents t s ↔ ∀ p ∈ reached t, isConstruct p = true := by
  by_cases hcut : isCut t = true
  · obtain ⟨fragments, hfragments, rfl⟩ := statementOf_cut hcut hs
    rw [represents_ofFragments hcut hfragments, reached_of_isCut hcut, List.forall_mem_cons,
      and_iff_right ht]
    exact forall₂_represents_iff (forall₂_blockParts hfragments) fun p hp hp' _ _ hs =>
      represents_iff hp' hs
  · rw [Bool.not_eq_true] at hcut
    rw [reached_of_not_cut hcut]
    exact iff_of_true (represents_of_not_cut ht hcut hs) (by simpa using ht)
termination_by sizeOf t
decreasing_by exact sizeOf_lt_of_mem_children hp

theorem forall₂_statementsOf {line : List Char} {trees : List Tree} {statements : List Statement}
    (h : statementsOf line trees = .ok statements) :
    List.Forall₂ (fun part s => statementOf part.1 part.2 = .ok s) (partsIn (items line trees))
      statements := by
  induction trees generalizing line statements with
  | nil =>
      cases h
      exact .nil
  | cons t rest ih =>
      rw [statementsOf] at h
      rw [items]
      by_cases hpart : isPart t
      · simp only [hpart, if_true] at h ⊢
        obtain ⟨s, hs, h⟩ := bind_eq_ok.mp h
        obtain ⟨others, hrest, h⟩ := bind_eq_ok.mp h
        cases h
        exact .cons hs (ih hrest)
      · simp only [hpart] at h ⊢
        exact ih h

theorem forall₂_parts {line : List Char} {trees : List Tree} {statements : List Statement}
    (h : statementsOf line trees = .ok statements) :
    List.Forall₂ (fun p s => ∃ line, statementOf line p = .ok s) (trees.filter isPart)
      statements := by
  rw [← partsIn_items line, List.forall₂_map_left_iff]
  exact (forall₂_statementsOf h).imp fun _ _ h => ⟨_, h⟩

theorem filter_isConstruct (trees : List Tree) :
    trees.filter isConstruct = (trees.filter isPart).filter isConstruct := by
  rw [List.filter_filter]
  refine List.filter_congr fun t _ => ?_
  cases t <;> rfl

theorem forall_isConstruct_iff {parts : List Tree} (h : ∀ p ∈ parts, isPart p = true) :
    (∀ p ∈ parts, isConstruct p = true) ↔ ∀ text, .gap .continuation text ∉ parts := by
  constructor
  · intro hall text hmem
    cases hall _ hmem
  · intro hnone p hp
    by_contra hgap
    obtain ⟨text, rfl⟩ := eq_continuation (h p hp) (by simpa using hgap)
    exact hnone text hp

theorem statementsOf_of_ofTrees {trees : List Tree} {outline : Outline}
    (h : ofTrees trees = .ok outline) : statementsOf [] trees = .ok outline.statements := by
  obtain ⟨statements, hstatements, h⟩ := bind_eq_ok.mp h
  cases h
  exact hstatements

theorem ofTrees_of_read {source : List Char} {outline : Outline}
    (h : Outline.Reading.read source = .ok outline) :
    ∃ trees, ofSource source = .ok trees ∧ legacyAmong trees = none ∧
      ofTrees trees = .ok outline := by
  unfold Outline.Reading.read at h
  dsimp only at h
  split at h
  · cases h
  · rename_i trees htrees
    split at h
    · cases h
    · rename_i hlegacy
      split at h
      · rename_i outline' hok
        cases h
        exact ⟨trees, htrees, hlegacy, hok⟩
      · cases h

/-- The trees of a source that is read are separators and statements and spell the source. The
statements of its outline represent those of the source, one for one and in order, exactly if no
line continuation is reached as a part of the source or of a block. -/
theorem corresponds_iff {source : List Char} {outline : Outline}
    (h : Outline.Reading.read source = .ok outline) :
    ∃ trees, ofSource source = .ok trees ∧ spellAll trees = source ∧
      (∀ t ∈ trees, Formed .item t) ∧
      (List.Forall₂ Represents (trees.filter isConstruct) outline.statements ↔
        ∀ text, .gap .continuation text ∉ reachedAmong trees) := by
  obtain ⟨trees, htrees, -, houtline⟩ := ofTrees_of_read h
  have hstatements := statementsOf_of_ofTrees houtline
  refine ⟨trees, htrees, spellAll_ofSource htrees, formed_of_ofSource htrees, ?_⟩
  rw [← forall_isConstruct_iff fun _ => isPart_of_mem_reachedAmong, reachedAmong_eq,
    filter_isConstruct]
  exact forall₂_represents_iff (forall₂_parts hstatements) fun _ _ hp _ _ hs =>
    represents_iff hp hs

/-- An assignment whose line end is hidden: the outline has two statements for it. -/
theorem hidden_line_end_not_represented :
    ¬∀ (source : List Char) (outline : Outline) (trees : List Tree),
      Outline.Reading.read source = .ok outline → ofSource source = .ok trees →
        List.Forall₂ Represents (trees.filter isConstruct) outline.statements := by
  intro hall
  let source : List Char := ['x', ' ', '=', ' ', '1', '\\', '\n']
  have hstatements : (Outline.Reading.read source).toOption.map (·.statements.length) = some 2 := by
    decide +kernel
  have htrees : (ofSource source).toOption.map (fun ts => (ts.filter isConstruct).length) =
      some 1 := by
    decide +kernel
  cases hread : Outline.Reading.read source with
  | error fault => simp [hread, Except.toOption] at hstatements
  | ok outline =>
      cases hsource : ofSource source with
      | error reached => simp [hsource, Except.toOption] at htrees
      | ok trees =>
          have hlength := (hall source outline trees hread hsource).length_eq
          simp_all [Except.toOption]

theorem corresponds_iff_assignment :
    ∃ outline, Outline.Reading.read ['x', ' ', '=', ' ', '1', '\n'] = .ok outline ∧
      ∃ trees, ofSource ['x', ' ', '=', ' ', '1', '\n'] = .ok trees ∧
        spellAll trees = ['x', ' ', '=', ' ', '1', '\n'] ∧ (∀ t ∈ trees, Formed .item t) ∧
        (List.Forall₂ Represents (trees.filter isConstruct) outline.statements ↔
          ∀ text, .gap .continuation text ∉ reachedAmong trees) := by
  obtain ⟨outline, hread⟩ :=
    exists_of_isOk (x := Outline.Reading.read ['x', ' ', '=', ' ', '1', '\n'])
    (by decide +kernel)
  exact ⟨outline, hread, corresponds_iff hread⟩

end Cythonizer.Proofs.Outline.Correspondence
