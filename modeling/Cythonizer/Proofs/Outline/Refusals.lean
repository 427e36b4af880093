import Mathlib.Order.Bounds.Basic
import Cythonizer.Outline.Reading
import Cythonizer.Proofs.Outline.Defects

/-!
Why a source is not read: it is no sequence of statements, it has a `print` or `exec` statement, or
it has a function without statements, in this order (`read_decided`).
-/

namespace Cythonizer.Proofs.Outline.Refusals

open Cythonizer.Outline.OfTree
open Cythonizer.Outline.Reading
open Cythonizer.Source.Syntax
open Cythonizer.Source.Trees
open Cythonizer.Text.Positions
open Cythonizer.Proofs.Outline.Defects
open Cythonizer.Proofs.Outline.Segments

/-- There is a `print` or `exec` statement in trees after so many of their characters. -/
inductive LegacyAt : List Tree → Nat → Prop
  | here {children rest : List Tree} : LegacyAt (.node .legacy children :: rest) 0
  | inside {kind : Kind} {children rest : List Tree} {before : Nat} (h : LegacyAt children before) :
      LegacyAt (.node kind children :: rest) before
  | later {t : Tree} {rest : List Tree} {before : Nat} (h : LegacyAt rest before) :
      LegacyAt (t :: rest) (before + (spell t).length)

theorem legacyAt_cons {t : Tree} {rest : List Tree} {before : Nat} :
    LegacyAt (t :: rest) before ↔
      LegacyAt [t] before ∨ ∃ n, LegacyAt rest n ∧ before = n + (spell t).length := by
  constructor
  · intro h
    cases h with
    | here => exact .inl .here
    | inside h => exact .inl (.inside h)
    | later h => exact .inr ⟨_, h, rfl⟩
  · rintro (h | ⟨n, h, rfl⟩)
    · cases h with
      | here => exact .here
      | inside h => exact .inside h
      | later h => cases h
    · exact .later h

theorem legacyAt_node {kind : Kind} {children : List Tree} (hkind : kind ≠ .legacy) {before : Nat} :
    LegacyAt [.node kind children] before ↔ LegacyAt children before := by
  constructor
  · intro h
    cases h with
    | here => exact absurd rfl hkind
    | inside h => exact h
    | later h => cases h
  · exact .inside

theorem le_of_legacyAt {ts : List Tree} {n : Nat} (h : LegacyAt ts n) :
    n ≤ (spellAll ts).length := by
  induction h with
  | here => exact Nat.zero_le _
  | inside _ ih =>
      rw [spellAll, spell, List.length_append]
      omega
  | later _ ih =>
      rw [spellAll, List.length_append]
      omega

/-- What is found is the least number with a property, and there is none if nothing is found. -/
inductive Finds (P : Nat → Prop) : Option Nat → Prop
  | some {n : Nat} (h : IsLeast {m | P m} n) : Finds P (some n)
  | none (h : ∀ m, ¬P m) : Finds P none

mutual

theorem finds_legacyIn (t : Tree) : Finds (LegacyAt [t]) (legacyIn t) := by
  cases t with
  | gap g text =>
      rw [legacyIn]
      exact .none fun m h => by cases h with | later h => cases h
  | leaf l text =>
      rw [legacyIn]
      exact .none fun m h => by cases h with | later h => cases h
  | node kind children =>
      by_cases hkind : kind = .legacy
      · subst hkind
        rw [legacyIn]
        exact .some ⟨.here, fun m _ => Nat.zero_le m⟩
      · have hsame : LegacyAt [.node kind children] = LegacyAt children :=
          funext fun _ => propext (legacyAt_node hkind)
        rw [legacyIn, hsame]
        · exact finds_legacyAmong children
        · exact hkind

theorem finds_legacyAmong (ts : List Tree) : Finds (LegacyAt ts) (legacyAmong ts) := by
  cases ts with
  | nil => exact .none nofun
  | cons t rest =>
      have hfirst := finds_legacyIn t
      have hrest := finds_legacyAmong rest
      rw [legacyAmong]
      generalize legacyIn t = first at hfirst ⊢
      generalize legacyAmong rest = behind at hrest ⊢
      cases hfirst with
      | @some n h =>
          refine .some ⟨legacyAt_cons.mpr (.inl h.1), fun m hm => ?_⟩
          rcases legacyAt_cons.mp hm with hm | ⟨m, -, rfl⟩
          · exact h.2 hm
          · have hn : n ≤ (spell t).length := by simpa [spellAll] using le_of_legacyAt h.1
            omega
      | none hfirst =>
          cases hrest with
          | @some n h =>
              refine .some ⟨.later h.1, fun m hm => ?_⟩
              rcases legacyAt_cons.mp hm with hm | ⟨k, hk, rfl⟩
              · exact absurd hm (hfirst m)
              · exact Nat.add_le_add_right (h.2 hk) _
          | none hrest =>
              refine .none fun m hm => ?_
              rcases legacyAt_cons.mp hm with hm | ⟨k, hk, rfl⟩
              · exact hfirst m hm
              · exact hrest k hk

end

/-- The position behind a text: lines, and bytes in the last line, are counted from one. -/
inductive Behind : List Char → Position → Prop
  | intro {above line : List Char} (habove : above = [] ∨ above.getLast? = some '\n')
      (hline : '\n' ∉ line) :
      Behind (above ++ line) ⟨above.count '\n' + 1, (line.map Char.utf8Size).sum + 1⟩

theorem exists_lines (text : List Char) :
    ∃ above line, text = above ++ line ∧ (above = [] ∨ above.getLast? = some '\n') ∧
      '\n' ∉ line := by
  induction text with
  | nil => exact ⟨[], [], rfl, .inl rfl, by simp⟩
  | cons c text ih =>
      obtain ⟨above, line, rfl, habove, hline⟩ := ih
      rcases habove with rfl | habove
      · by_cases hc : c = '\n'
        · subst hc
          exact ⟨['\n'], line, rfl, .inr rfl, hline⟩
        · exact ⟨[], c :: line, rfl, .inl rfl, by simp [hline, Ne.symm hc]⟩
      · exact ⟨c :: above, line, rfl, .inr (by simp [List.getLast?_cons, habove]), hline⟩

theorem size_eq (text : List Char) : size text = (text.map Char.utf8Size).sum := by
  have hfold (n : Nat) : text.foldl (fun n c => n + c.utf8Size) n =
    n + (text.map Char.utf8Size).sum := by
    induction text generalizing n with
    | nil => rfl
    | cons c text ih => rw [List.foldl_cons, ih, List.map_cons, List.sum_cons, Nat.add_assoc]
  rw [size, hfold, Nat.zero_add]

theorem after_append {above line : List Char} (habove : above = [] ∨ above.getLast? = some '\n')
    (hline : '\n' ∉ line) :
    after (above ++ line) = ⟨above.count '\n' + 1, (line.map Char.utf8Size).sum + 1⟩ := by
  have hbegun : ∀ c ∈ line.reverse, (c != '\n') = true := by
    intro c hc
    have hne : c ≠ '\n' := fun heq => hline (heq ▸ List.mem_reverse.mp hc)
    simpa using hne
  have hended : above.reverse.takeWhile (· != '\n') = [] := by
    rcases habove with rfl | habove
    · rfl
    · obtain ⟨lines, rfl⟩ := List.getLast?_eq_some_iff.mp habove
      simp
  have hlast : (above ++ line).reverse.takeWhile (· != '\n') = line.reverse := by
    rw [List.reverse_append, List.takeWhile_append_of_pos hbegun, hended, List.append_nil]
  rw [after, hlast, size_eq, List.map_reverse, List.sum_reverse, List.count_append,
    List.count_eq_zero_of_not_mem hline, Nat.add_zero]

theorem behind_iff {text : List Char} {position : Position} :
    Behind text position ↔ position = after text := by
  constructor
  · rintro ⟨habove, hline⟩
    exact (after_append habove hline).symm
  · rintro rfl
    obtain ⟨above, line, rfl, habove, hline⟩ := exists_lines text
    rw [after_append habove hline]
    exact .intro habove hline

section

variable {source : List Char} {trees : List Tree} {legacy : Option Nat}

theorem read_of_error {reached : Nat} (h : ofSource source = .error reached) :
    Outline.Reading.read source =
      .error (.syntaxError (after (source.take (Source.Fault.locate source reached)))) := by
  rw [Outline.Reading.read, h]
  rfl

theorem read_of_legacy (h : ofSource source = .ok trees) {before : Nat}
    (hlegacy : legacyAmong trees = some before) :
    Outline.Reading.read source = .error (.syntaxError (after (source.take before))) := by
  rw [Outline.Reading.read, h]
  dsimp only
  rw [hlegacy]
  rfl

/-- A source without `print` and `exec` statements is judged by its definitions. -/
theorem read_of_verdict (h : ofSource source = .ok trees) (hlegacy : legacyAmong trees = none) :
    (∃ outline, Outline.Reading.read source = .ok outline ∧
      verdict (definitionsAmong trees) = .ok ()) ∨
      ∃ defect, Outline.Reading.read source = .error (.incomplete defect) ∧
        verdict (definitionsAmong trees) = .error defect := by
  have hdecides := ofTrees_decides h
  rw [Outline.Reading.read, h]
  dsimp only
  rw [hlegacy]
  dsimp only
  cases htrees : ofTrees trees with
  | error defect =>
      rw [htrees] at hdecides
      exact .inr ⟨defect, rfl, hdecides.symm⟩
  | ok outline =>
      rw [htrees] at hdecides
      exact .inl ⟨outline, rfl, hdecides.symm⟩

end

theorem read_decided (source : List Char) :
    (∀ reached, ofSource source = .error reached →
      ∃ position, Outline.Reading.read source = .error (.syntaxError position)) ∧
    ∀ trees, ofSource source = .ok trees →
      (∀ position, Outline.Reading.read source = .error (.syntaxError position) ↔
        ∃ before, IsLeast {n | LegacyAt trees n} before ∧ Behind (source.take before) position) ∧
      (∀ defect, Outline.Reading.read source = .error (.incomplete defect) ↔
        (∀ n, ¬LegacyAt trees n) ∧
          ∃ children, (definitionsAmong trees).find? lacksStatements = some children ∧
            defect = .emptyBody (nameOf children) ∧
            defect.message = "function '" ++ nameOf children ++ "' has an empty body") ∧
      ((∃ outline, Outline.Reading.read source = .ok outline) ↔
        (∀ n, ¬LegacyAt trees n) ∧
          ∀ children ∈ definitionsAmong trees, lacksStatements children = false) := by
  refine ⟨fun reached h => ⟨_, read_of_error h⟩, fun trees h => ?_⟩
  have hfinds := finds_legacyAmong trees
  cases hlegacy : legacyAmong trees with
  | some before =>
      rw [hlegacy] at hfinds
      obtain ⟨hleast⟩ | _ := hfinds
      have hfound : ¬∀ n, ¬LegacyAt trees n := fun hnone => hnone _ hleast.1
      rw [read_of_legacy h hlegacy]
      refine ⟨fun position => ⟨?_, ?_⟩, fun defect => ?_, ?_⟩
      · intro heq
        cases heq
        exact ⟨before, hleast, behind_iff.mpr rfl⟩
      · rintro ⟨n, hn, hbehind⟩
        rw [behind_iff.mp hbehind, hn.unique hleast]
      · simp [hfound]
      · simp [hfound]
  | none =>
      rw [hlegacy] at hfinds
      obtain _ | ⟨hnone⟩ := hfinds
      have hnowhere (position : Position) : ¬∃ before, IsLeast {n | LegacyAt trees n} before ∧
          Behind (source.take before) position := fun ⟨before, hleast, _⟩ => hnone before hleast.1
      obtain ⟨outline, hread, hverdict⟩ | ⟨defect, hread, hverdict⟩ := read_of_verdict h hlegacy
      · have hall := verdict_eq_ok.mp hverdict
        have hfind : (definitionsAmong trees).find? lacksStatements = none := by simpa using hall
        rw [hread]
        refine ⟨fun position => by simp [hnowhere], fun defect => by simp [hfind], ?_⟩
        exact iff_of_true ⟨outline, rfl⟩ ⟨hnone, hall⟩
      · obtain ⟨children, hfind, rfl⟩ := verdict_eq_error.mp hverdict
        have hsome : ¬∀ children ∈ definitionsAmong trees, lacksStatements children = false :=
          fun hall =>
            by simpa [hall _ (List.mem_of_find?_eq_some hfind)] using List.find?_some hfind
        rw [hread]
        refine ⟨fun position => by simp [hnowhere], fun defect => ?_, ?_⟩
        · constructor
          · intro heq
            cases heq
            exact ⟨hnone, children, hfind, rfl, rfl⟩
          · rintro ⟨-, other, hother, rfl, -⟩
            rw [hfind] at hother
            cases hother
            rfl
        · exact iff_of_false nofun fun h => hsome h.2

mutual

/-- The definitions in a tree that stand in no body of a function or a loop. The clauses of a loop
behind its body are entered. -/
def outsideBodies : Tree → List (List Tree)
  | .gap _ _ => []
  | .leaf _ _ => []
  | .node .function children => [children]
  | .node .forLoop children => besideBody children
  | .node _ children => outsideBodiesAmong children

def outsideBodiesAmong : List Tree → List (List Tree)
  | [] => []
  | t :: rest => outsideBodies t ++ outsideBodiesAmong rest

def besideBody : List Tree → List (List Tree)
  | [] => []
  | .node .block _ :: rest => besideBody rest
  | t :: rest => outsideBodies t ++ besideBody rest

end

/-- A function without statements in the `else` clause of a loop: the source is read. -/
theorem empty_function_behind_loop_read :
    ¬∀ (source : List Char) (trees : List Tree), ofSource source = .ok trees →
      (∀ n, ¬LegacyAt trees n) →
      ((∃ defect, Outline.Reading.read source = .error (.incomplete defect)) ↔
        ∃ children ∈ outsideBodiesAmong trees, lacksStatements children = true) := by
  intro hall
  let source : List Char := "for x in y:\n    pass\nelse:\n    def f():\n".toList
  have hread : (Outline.Reading.read source).toOption.isSome = true := by
    decide +kernel
  have htrees : (ofSource source).toOption.map
      (fun trees => ((outsideBodiesAmong trees).any lacksStatements, legacyAmong trees)) =
        some (true, none) := by
    decide +kernel
  cases hsource : ofSource source with
  | error reached => simp [hsource, Except.toOption] at htrees
  | ok trees =>
      simp only [hsource, Except.toOption, Option.map_some, Option.some.injEq, Prod.mk.injEq,
        List.any_eq_true] at htrees
      obtain ⟨hlacks, hlegacy⟩ := htrees
      have hfinds := finds_legacyAmong trees
      rw [hlegacy] at hfinds
      obtain _ | ⟨hnone⟩ := hfinds
      obtain ⟨defect, herror⟩ := (hall source trees hsource hnone).mpr hlacks
      simp [herror, Except.toOption] at hread

end Cythonizer.Proofs.Outline.Refusals
