import Mathlib.Data.List.Chain
import Cythonizer.Proofs.Outline.Pieces

namespace Cythonizer.Proofs.Outline.Interleaving

open Cythonizer.Outline.Basic
open Cythonizer.Outline.OfTree
open Cythonizer.Source.Trees
open Cythonizer.Proofs.Outline.Fragments
open Cythonizer.Proofs.Outline.Segments
open Cythonizer.Proofs.Source.Contents
open Cythonizer.Proofs.Source.Phrasing
open Cythonizer.Proofs.Source.Shapes
open Cythonizer.Proofs.Source.Statements

def isText : Fragment → Bool
  | .text _ => true
  | .statement _ => false

/-- Fragments with no empty text and no two texts in a row. -/
structure IsSpaced (fragments : List Fragment) : Prop where
  filled : .text "" ∉ fragments
  apart : fragments.IsChain fun first second => (isText first && isText second) = false

/-- The fragments of a compound statement. -/
structure IsInterleaved (fragments : List Fragment) : Prop extends IsSpaced fragments where
  starts : ∃ text rest, fragments = .text text :: rest
  statement : ∃ s, .statement s ∈ fragments

section

variable {fragments rest : List Fragment}

theorem mem_statementsIn {s : Statement} : s ∈ statementsIn fragments ↔
    .statement s ∈ fragments := by
  induction fragments with
  | nil => simp
  | cons f rest ih => cases f <;> simp [ih]

theorem isSpaced_nil : IsSpaced [] :=
  ⟨by simp, .nil⟩

theorem isSpaced_statement_cons (s : Statement) (h : IsSpaced rest) :
    IsSpaced (.statement s :: rest) where
  filled := by simpa using h.filled
  apart := List.isChain_cons.mpr ⟨fun _ _ => rfl, h.apart⟩

theorem isSpaced_text_cons {text : String} (htext : text ≠ "")
    (hnext : ∀ f ∈ rest.head?, isText f = false)
    (h : IsSpaced rest) : IsSpaced (.text text :: rest) where
  filled := by simpa [htext.symm] using h.filled
  apart := List.isChain_cons.mpr ⟨fun f hf => by simp [hnext f hf], h.apart⟩

theorem IsSpaced.tail {f : Fragment} (h : IsSpaced (f :: rest)) : IsSpaced rest where
  filled hmem := h.filled (List.mem_cons_of_mem f hmem)
  apart := (List.isChain_cons.mp h.apart).2

theorem IsSpaced.next {text : String} (h : IsSpaced (.text text :: rest)) :
    ∀ f ∈ rest.head?, isText f = false := fun f hf => by
  simpa [isText] using (List.isChain_cons.mp h.apart).1 f hf

theorem isSpaced_consText (t : List Char) (h : IsSpaced fragments) :
    IsSpaced (consText t fragments) := by
  cases t with
  | nil => rwa [consText_nil]
  | cons c t =>
      rcases fragments with _ | ⟨more | s, rest⟩
      · exact isSpaced_text_cons (by simp) (by simp) isSpaced_nil
      · exact isSpaced_text_cons (by simp) h.next h.tail
      · exact isSpaced_text_cons (by simp) (by simp [isText]) h

theorem isSpaced_gather (fragments : List Fragment) : IsSpaced (gather fragments) := by
  induction fragments with
  | nil => exact isSpaced_nil
  | cons f rest ih =>
      cases f with
      | text t => exact isSpaced_consText _ ih
      | statement s => exact isSpaced_statement_cons s ih

theorem trimLast_statement (s : Statement) (rest : List Fragment) :
    trimLast (.statement s :: rest) = .statement s :: trimLast rest := by
  cases rest <;> rfl

theorem isSpaced_trimLast (h : IsSpaced fragments) : IsSpaced (trimLast fragments) := by
  fun_induction trimLast fragments with
  | case1 => exact isSpaced_nil
  | case2 text htrimmed => exact isSpaced_nil
  | case3 text htrimmed => exact isSpaced_text_cons (by simpa using htrimmed) (by simp) isSpaced_nil
  | case4 f rest hlast ih =>
      cases f with
      | statement s => exact isSpaced_statement_cons s (ih h.tail)
      | text t =>
          have hne : t ≠ "" := fun heq => h.filled (by simp [heq])
          refine isSpaced_text_cons hne ?_ (ih h.tail)
          have hnext := h.next
          rcases rest with _ | ⟨more | s, rest⟩
          · simp [trimLast]
          · simp [isText] at hnext
          · simp [trimLast_statement, isText]

/-- The text before the first statement. -/
def frontOf : List Fragment → List Char
  | [] => []
  | .text t :: rest => t.toList ++ frontOf rest
  | .statement _ :: _ => []

theorem consText_of_ne_nil {t : List Char} (h : t ≠ []) (fragments : List Fragment) :
    ∃ text rest, consText t fragments = .text text :: rest := by
  cases t with
  | nil => exact absurd rfl h
  | cons c t => rcases fragments with _ | ⟨_ | _, rest⟩ <;> exact ⟨_, _, rfl⟩

theorem gather_of_frontOf (h : frontOf fragments ≠ []) :
    ∃ text rest, gather fragments = .text text :: rest := by
  induction fragments with
  | nil => exact absurd rfl h
  | cons f rest ih =>
      cases f with
      | statement s => exact absurd rfl h
      | text t =>
          rw [gather_text]
          by_cases ht : t.toList = []
          · rw [ht, consText_nil]
            exact ih (by simpa [frontOf, ht] using h)
          · exact consText_of_ne_nil ht _

theorem interleaved_of_frontOf (hfront : frontOf fragments ≠ [])
    (hstatements : statementsIn fragments ≠ []) :
    IsInterleaved (trimLast (gather fragments)) where
  toIsSpaced := isSpaced_trimLast (isSpaced_gather fragments)
  starts := by
    obtain ⟨text, rest, hgather⟩ := gather_of_frontOf hfront
    have hrest : rest ≠ [] := by
      rintro rfl
      rw [← statementsIn_gather, hgather] at hstatements
      exact hstatements rfl
    rw [hgather, trimLast_cons _ hrest]
    exact ⟨text, _, rfl⟩
  statement := by
    obtain ⟨s, hs⟩ := List.exists_mem_of_ne_nil _ hstatements
    rw [← statementsIn_gather, ← statementsIn_trimLast] at hs
    exact ⟨s, mem_statementsIn.mp hs⟩

end

/-- The text before the first part among segments. -/
def frontIn : List Segment → List Char
  | [] => []
  | .text t :: rest => t ++ frontIn rest
  | .part _ _ :: _ => []

theorem frontOf_of_resolved {segments : List Segment} {fragments : List Fragment}
    (h : List.Forall₂ (fun segment fragment => resolve segment = .ok fragment) segments fragments) :
    frontOf fragments = frontIn segments := by
  induction h with
  | nil => rfl
  | @cons segment fragment segments fragments hfirst _ ih =>
      cases segment with
      | text t =>
          obtain rfl := resolve_text hfirst
          simp [frontOf, frontIn, ih]
      | part line t =>
          obtain ⟨s, -, rfl⟩ := resolve_part hfirst
          rfl

section

variable {a b : List Segment}

theorem frontIn_append_of_ne_nil (h : frontIn a ≠ []) : frontIn (a ++ b) ≠ [] := by
  induction a with
  | nil => exact absurd rfl h
  | cons segment rest ih =>
      cases segment with
      | part line t => exact absurd rfl h
      | text t =>
          by_cases ht : t = []
          · simpa [frontIn, ht] using ih (by simpa [frontIn, ht] using h)
          · simp [frontIn, ht]

theorem frontIn_append_of_no_parts (ha : partsIn a = []) (hb : frontIn b ≠ []) :
    frontIn (a ++ b) ≠ [] := by
  induction a with
  | nil => exact hb
  | cons segment rest ih =>
      cases segment with
      | part line t => cases ha
      | text t =>
          have hrest := ih ha
          simp [frontIn, hrest]

end

theorem segments_cons (line : List Char) (t : Tree) (rest : List Tree) :
    segments line (t :: rest) = segments line [t] ++ segments (lineAfter line (spell t)) rest := by
  cases t with
  | gap g text => simp [segments, spell]
  | leaf l text => simp [segments, spell]
  | node kind children =>
      have hnil (line : List Char) : segments line [] = [] := by rw [segments]
      by_cases hblock : kind = .block
      · subst hblock
        simp [segments_block, hnil, spell]
      · simp [segments_node hblock, hnil, spell]

theorem blockParts_cons (t : Tree) (rest : List Tree) :
    blockParts (t :: rest) = blockParts [t] ++ blockParts rest := by
  cases t with
  | gap g text => simp [blockParts]
  | leaf l text => simp [blockParts]
  | node kind children =>
      by_cases hblock : kind = .block
      · subst hblock
        simp [blockParts]
      · simp [blockParts_node hblock, blockParts]

theorem blockParts_eq_nil {ts : List Tree} (h : ∀ t ∈ ts, blockParts [t] = []) :
    blockParts ts = [] := by
  induction ts with
  | nil => rw [blockParts]
  | cons t rest ih =>
      obtain ⟨hfirst, hrest⟩ := List.forall_mem_cons.mp h
      rw [blockParts_cons, hfirst, ih hrest, List.append_nil]

theorem partsIn_of_blockParts {line : List Char} {ts : List Tree} (h : blockParts ts = []) :
    partsIn (segments line ts) = [] := by
  rw [← partsIn_segments line, List.map_eq_nil_iff] at h
  exact h

theorem blockParts_of_isPhrase {t : Tree} (h : IsPhrase t) : blockParts [t] = [] := by
  induction h with
  | gap _ => simp [blockParts]
  | leaf _ => simp [blockParts]
  | @node kind children hkind _ ih =>
      have hblock : kind ≠ .block := by
        rintro rfl
        cases hkind
      rw [blockParts_node hblock, blockParts_eq_nil ih, blockParts, List.append_nil]

theorem blockParts_of_isAbove {t : Tree} (h : IsAbove t) : blockParts [t] = [] := by
  cases h with
  | gap _ => simp [blockParts]
  | @decorator children hchildren =>
      have hline : ∀ c ∈ children, blockParts [c] = [] := fun c hc => by
        rcases hchildren c hc with hphrase | _
        · exact blockParts_of_isPhrase hphrase.isPhrase
        · simp [blockParts]
      rw [blockParts_node (by decide), blockParts_eq_nil hline, blockParts, List.append_nil]

theorem front_append {before rest : List Tree} (hbefore : ∀ t ∈ before, blockParts [t] = [])
    (hrest : ∀ line, frontIn (segments line rest) ≠ []) (line : List Char) :
    frontIn (segments line (before ++ rest)) ≠ [] := by
  induction before generalizing line with
  | nil => exact hrest line
  | cons t before ih =>
      obtain ⟨hfirst, hbefore⟩ := List.forall_mem_cons.mp hbefore
      rw [List.cons_append, segments_cons]
      exact frontIn_append_of_no_parts (partsIn_of_blockParts hfirst) (ih hbefore _)

theorem front_of_isHeaded {ts : List Tree} (h : IsHeaded ts) (line : List Char) :
    frontIn (segments line ts) ≠ [] := by
  obtain ⟨hbefore⟩ := h
  exact front_append (fun t ht => blockParts_of_isPhrase (hbefore t ht).isPhrase)
    (fun line => by simp [segments, frontIn]) line

theorem front_of_decoration {above children : List Tree} (habove : All IsAbove above) {kind : Kind}
    (hkind : kind ≠ .block) (h : IsHeaded children) (line : List Char) :
    frontIn (segments line (above ++ [.node kind children])) ≠ [] := by
  refine front_append (fun t ht => blockParts_of_isAbove (habove t ht)) (fun line => ?_) line
  rw [segments_node hkind]
  exact frontIn_append_of_ne_nil (front_of_isHeaded h line)

end Cythonizer.Proofs.Outline.Interleaving
