import Cythonizer.Proofs.Source.Statements

namespace Cythonizer.Proofs.Source.Headings

open Cythonizer.Source.Gaps
open Cythonizer.Source.Syntax
open Cythonizer.Source.Trees
open Cythonizer.Proofs.Source.Lexemes
open Cythonizer.Proofs.Source.Phrasing
open Cythonizer.Proofs.Source.Shapes
open Cythonizer.Proofs.Source.Statements
open Cythonizer.Proofs.Source.Visibility

/-- The statements, and the parts of statements that have blocks of their own. -/
def isStatement : Kind → Bool
  | .importNames | .importFrom | .legacy | .simple | .function | .decorated | .forLoop |
    .compound | .clause => true
  | _ => false

/-- The constructs with a block behind a colon that are no functions. -/
def isBranch : Kind → Bool
  | .forLoop | .compound | .clause => true
  | _ => false

/-- A tree in which every statement shows and every block of a statement stands behind a colon. -/
inductive IsShown : Tree → Prop
  | gap (g : Gap) (text : List Char) : IsShown (.gap g text)
  | leaf (l : Leaf) (text : List Char) : IsShown (.leaf l text)
  | node {kind : Kind} {children : List Tree} (hshows : isStatement kind = true → Shows children)
      (hheaded : isBranch kind = true → IsHeaded children) (h : ∀ t ∈ children, IsShown t) :
      IsShown (.node kind children)

theorem isShown_plain {kind : Kind} {children : List Tree} (hstatement : isStatement kind = false)
    (h : ∀ t ∈ children, IsShown t) : IsShown (.node kind children) := by
  refine .node (fun heq => ?_) (fun heq => ?_) h <;> cases kind <;> cases hstatement <;> cases heq

theorem shows_of_isHeaded {ts : List Tree} (h : IsHeaded ts) : Shows ts := by
  obtain ⟨hbefore⟩ := h
  have hcolon : Shows [.leaf .sign [':']] := shows_leaf (isVisible_cons (by decide) []) .sign
  exact (hcolon.append _).prepend _

theorem shows_of_isDefinition {ts : List Tree} (h : IsDefinition ts) : Shows ts := by
  obtain ⟨-, -, -, hsuite⟩ := h
  have hbehind := (shows_of_isHeaded hsuite.isHeaded).cons
  exact (((hbehind _).prepend _).cons _).prepend _

theorem IsShown.shows {kind : Kind} {children : List Tree} (h : IsShown (.node kind children))
    (hkind : isStatement kind = true) : Shows children := by
  obtain _ | _ | ⟨hshows, -, -⟩ := h
  exact hshows hkind

theorem IsShown.headed {kind : Kind} {children : List Tree} (h : IsShown (.node kind children))
    (hkind : isBranch kind = true) : IsHeaded children := by
  obtain _ | _ | ⟨-, hheaded, -⟩ := h
  exact hheaded hkind

theorem IsShown.children {kind : Kind} {children : List Tree} (h : IsShown (.node kind children)) :
    ∀ c ∈ children, IsShown c := by
  obtain _ | _ | ⟨-, -, hchildren⟩ := h
  exact hchildren

theorem isShown_of_isNeat {t : Tree} (h : IsNeat t) : IsShown t := by
  induction h with
  | gap _ => exact .gap _ _
  | leaf _ => exact .leaf _ _
  | node hkind _ _ ih => exact isShown_plain (by cases hkind <;> rfl) ih
  | string _ ih => exact isShown_plain rfl ih

theorem isShown_of_isLine {t : Tree} (h : IsLine t) : IsShown t := by
  cases h with
  | phrase h => exact isShown_of_isNeat h
  | mark => exact .leaf _ _

theorem shows_of_isDecoration {ts : List Tree} (h : IsDecoration ts) (hts : ∀ t ∈ ts, IsShown t) :
    Shows ts := by
  obtain ⟨-, hkind⟩ := h
  have hdefinition := hts _ (List.mem_append_right _ List.mem_cons_self)
  exact (shows_node (hdefinition.shows (by cases hkind <;> rfl))).prepend _

theorem isShown_headed {kind : Kind} {children : List Tree} (hheaded : IsHeaded children)
    (h : ∀ t ∈ children, IsShown t) : IsShown (.node kind children) :=
  .node (fun _ => shows_of_isHeaded hheaded) (fun _ => hheaded) h

theorem isShown_function {children : List Tree} (hdefinition : IsDefinition children)
    (h : ∀ t ∈ children, IsShown t) : IsShown (.node .function children) :=
  .node (fun _ => shows_of_isDefinition hdefinition) nofun h

def shown : Family where
  Has _ := IsShown
  separator h := by cases h <;> constructor
  simple h hshows hchildren :=
    .node (fun _ => hshows) (by cases h <;> nofun) fun t ht => isShown_of_isNeat (hchildren t ht)
  branch _ := isShown_headed
  function := isShown_function
  decorated h hchildren := .node (fun _ => shows_of_isDecoration h hchildren) nofun hchildren
  gapBeforeCase _ := .gap _ _
  markBeforeCase := .leaf _ _
  matchCase := isShown_headed
  phrase := isShown_of_isNeat
  mark := .leaf _ _
  clause := isShown_headed
  block := isShown_plain rfl
  cases := isShown_plain rfl
  gapBeforeDefinition _ := .gap _ _
  decorator hchildren := isShown_plain rfl fun t ht => isShown_of_isLine (hchildren t ht)
  decoratedFunction := isShown_function
  decoratedClass := isShown_headed

theorem shown_of_ofSource {source : List Char} {trees : List Tree}
    (h : ofSource source = .ok trees) :
    ∀ t ∈ trees, IsShown t :=
  has_of_ofSource shown h

end Cythonizer.Proofs.Source.Headings
