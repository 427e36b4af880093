import Cythonizer.Proofs.Source.Statements

namespace Cythonizer.Proofs.Source.Naming

open Cythonizer.Source.Gaps
open Cythonizer.Source.Syntax
open Cythonizer.Source.Trees
open Cythonizer.Proofs.Source.Gaps
open Cythonizer.Proofs.Source.Phrasing
open Cythonizer.Proofs.Source.Statements

/-- A tree in which every name is an identifier. -/
inductive Identified : Tree → Prop
  | gap (g : Gap) (text : List Char) : Identified (.gap g text)
  | leaf {l : Leaf} {text : List Char} (h : l = .name → IsIdentifier text) :
    Identified (.leaf l text)
  | node {kind : Kind} {children : List Tree} (h : ∀ t ∈ children, Identified t) :
      Identified (.node kind children)

theorem identified_of_isNeat {t : Tree} (h : IsNeat t) : Identified t := by
  induction h with
  | gap _ => exact .gap _ _
  | leaf h => exact .leaf h.name
  | node _ _ _ ih => exact .node ih
  | string _ ih => exact .node ih

theorem identified_of_isLine {t : Tree} (h : IsLine t) : Identified t := by
  cases h with
  | phrase h => exact identified_of_isNeat h
  | mark => exact .leaf nofun

def identified : Family where
  Has _ := Identified
  separator h := by
    cases h with
    | gap _ => exact .gap _ _
    | semicolon => exact .leaf nofun
    | mark => exact .leaf nofun
  simple _ _ hchildren := .node fun t ht => identified_of_isNeat (hchildren t ht)
  branch _ _ := .node
  function _ := .node
  decorated _ := .node
  gapBeforeCase _ := .gap _ _
  markBeforeCase := .leaf nofun
  matchCase _ := .node
  phrase := identified_of_isNeat
  mark := .leaf nofun
  clause _ := .node
  block := .node
  cases := .node
  gapBeforeDefinition _ := .gap _ _
  decorator hchildren := .node fun t ht => identified_of_isLine (hchildren t ht)
  decoratedFunction _ := .node
  decoratedClass _ := .node

theorem identified_of_ofSource {source : List Char} {trees : List Tree}
    (h : ofSource source = .ok trees) :
    ∀ t ∈ trees, Identified t :=
  has_of_ofSource identified h

theorem Identified.name {text : List Char} (h : Identified (.leaf .name text)) :
    IsIdentifier text := by
  obtain _ | h | _ := h
  exact h rfl

mutual

/-- The names that a parameter binds: those outside of its type hint and its default. -/
def boundNames : Tree → List (List Char)
  | .gap _ _ => []
  | .leaf l text => if l = .name then [text] else []
  | .node kind children => if kind = .hint ∨ kind = .default then [] else namesOf children

/-- The names that a list of parameters binds. -/
def namesOf : List Tree → List (List Char)
  | [] => []
  | t :: ts => boundNames t ++ namesOf ts

end

theorem namesOf_eq (ts : List Tree) : namesOf ts = ts.flatMap boundNames := by
  induction ts with
  | nil => rfl
  | cons t ts ih => rw [namesOf, ih, List.flatMap_cons]

@[simp] theorem namesOf_append (ts us : List Tree) : namesOf (ts ++ us) = namesOf ts ++
    namesOf us := by
  simp [namesOf_eq]

theorem namesOf_eq_nil {ts : List Tree} (h : ∀ t ∈ ts, boundNames t = []) : namesOf ts = [] := by
  rw [namesOf_eq, List.flatMap_eq_nil_iff]
  exact h

theorem Identified.boundNames {t : Tree} (h : Identified t) :
    ∀ name ∈ boundNames t, IsIdentifier name := by
  induction h with
  | gap g text => simp [Naming.boundNames]
  | @leaf l text h =>
      by_cases hl : l = .name
      · simpa [Naming.boundNames, hl] using h hl
      · simp [Naming.boundNames, hl]
  | @node kind children _ ih =>
      rw [Naming.boundNames]
      split
      · simp
      · rw [namesOf_eq]
        intro name hname
        obtain ⟨t, ht, hname⟩ := List.mem_flatMap.mp hname
        exact ih t ht name hname

end Cythonizer.Proofs.Source.Naming
