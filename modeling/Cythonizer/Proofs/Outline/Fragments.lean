import Cythonizer.Outline.OfTree

namespace Cythonizer.Proofs.Outline.Fragments

open Cythonizer.Outline.Basic
open Cythonizer.Outline.OfTree
open Cythonizer.Text.Blank

/-- Fragments with adjacent texts put together. -/
def gather (fragments : List Fragment) : List Fragment :=
  fragments.foldr joined []

@[simp]
theorem gather_nil : gather [] = [] := rfl

@[simp]
theorem gather_text (text : String) (rest : List Fragment) :
    gather (.text text :: rest) = consText text.toList (gather rest) := rfl

@[simp]
theorem gather_statement (s : Statement) (rest : List Fragment) :
    gather (.statement s :: rest) = .statement s :: gather rest := rfl

theorem consText_nil (fragments : List Fragment) : consText [] fragments = fragments := by
  simp [consText]

theorem consText_consText (a b : List Char) (fragments : List Fragment) :
    consText a (consText b fragments) = consText (a ++ b) fragments := by
  cases a with
  | nil => exact consText_nil _
  | cons c a =>
      cases b with
      | nil => simp [consText_nil]
      | cons d b => rcases fragments with _ | ⟨_ | _, rest⟩ <;> simp [consText, String.append_assoc]

theorem foldr_consText (text : List Char) (fragments others : List Fragment) :
    (consText text fragments).foldr joined others =
      consText text (fragments.foldr joined others) := by
  cases text with
  | nil => simp [consText_nil]
  | cons c text =>
      rcases fragments with _ | ⟨more | s, rest⟩
      · simp [consText, joined]
      · simpa [consText, joined] using
          (consText_consText (c :: text) more.toList (rest.foldr joined others)).symm
      · simp [consText, joined]

theorem foldr_joined (fragment : Fragment) (fragments others : List Fragment) :
    (joined fragment fragments).foldr joined others =
      joined fragment (fragments.foldr joined others) := by
  cases fragment with
  | text text => exact foldr_consText _ _ _
  | statement s => rfl

theorem foldr_gather (fragments others : List Fragment) :
    (gather fragments).foldr joined others = fragments.foldr joined others := by
  induction fragments with
  | nil => rfl
  | cons f fragments ih =>
      calc
        (gather (f :: fragments)).foldr joined others =
            joined f ((gather fragments).foldr joined others) := foldr_joined _ _ _
        _ = (f :: fragments).foldr joined others := by rw [ih, List.foldr_cons]

theorem gather_append (a b : List Fragment) :
    gather (a ++ b) = (gather a).foldr joined (gather b) := by
  rw [foldr_gather, gather, List.foldr_append, gather]

theorem joined_ofList (text : List Char) (fragments : List Fragment) :
    joined (.text (String.ofList text)) fragments = consText text fragments := by
  simp [joined]

def statementsIn (fragments : List Fragment) : List Statement :=
  fragments.filterMap fun
    | .text _ => none
    | .statement s => some s

@[simp]
theorem statementsIn_nil : statementsIn [] = [] := rfl

@[simp]
theorem statementsIn_text (text : String) (rest : List Fragment) :
    statementsIn (.text text :: rest) = statementsIn rest := rfl

@[simp]
theorem statementsIn_statement (s : Statement) (rest : List Fragment) :
    statementsIn (.statement s :: rest) = s :: statementsIn rest := rfl

/-- The text of fragments, where `text` is the text of statements. -/
def flatten (text : Statement → List Char) : List Fragment → List Char
  | [] => []
  | .text t :: rest => t.toList ++ flatten text rest
  | .statement s :: rest => text s ++ flatten text rest

section

variable (text : Statement → List Char)

@[simp]
theorem statementsIn_consText (t : List Char) (fragments : List Fragment) :
    statementsIn (consText t fragments) = statementsIn fragments := by
  cases t with
  | nil => rw [consText_nil]
  | cons c t => rcases fragments with _ | ⟨_ | _, rest⟩ <;> rfl

@[simp]
theorem flatten_consText (t : List Char) (fragments : List Fragment) :
    flatten text (consText t fragments) = t ++ flatten text fragments := by
  cases t with
  | nil => rw [consText_nil, List.nil_append]
  | cons c t => rcases fragments with _ | ⟨_ | _, rest⟩ <;> simp [consText, flatten]

@[simp]
theorem statementsIn_gather (fragments : List Fragment) :
    statementsIn (gather fragments) = statementsIn fragments := by
  induction fragments with
  | nil => rfl
  | cons f rest ih => cases f <;> simp [ih]

theorem flatten_gather (fragments : List Fragment) :
    flatten text (gather fragments) = flatten text fragments := by
  induction fragments with
  | nil => rfl
  | cons f rest ih => cases f <;> simp [flatten, ih]

end

/-- The text after the last statement among fragments. -/
def closing : List Fragment → List Char
  | [] => []
  | .text t :: rest => if statementsIn rest = [] then t.toList ++ closing rest else closing rest
  | .statement _ :: rest => closing rest

theorem gather_eq_consText {fragments : List Fragment} (h : statementsIn fragments = []) :
    gather fragments = consText (closing fragments) [] := by
  induction fragments with
  | nil => rfl
  | cons f rest ih =>
      cases f with
      | text t =>
          rw [statementsIn_text] at h
          rw [gather_text, ih h, closing, if_pos h]
          exact consText_consText _ _ _
      | statement s => cases h

theorem trimLast_consText (t : List Char) :
    trimLast (consText t []) = consText (trimEnd t) [] := by
  cases t with
  | nil => rfl
  | cons c t =>
      simp only [consText, trimLast, String.toList_ofList]
      cases trimEnd (c :: t) <;> rfl

theorem ofFragments_consText (t : List Char) :
    ofFragments (consText t []) = .other (String.ofList (trimEnd t)) := by
  unfold ofFragments
  rw [trimLast_consText]
  cases trimEnd t <;> rfl

@[simp]
theorem statementsIn_trimLast (fragments : List Fragment) :
    statementsIn (trimLast fragments) = statementsIn fragments := by
  fun_induction trimLast fragments
  · rfl
  · rfl
  · rfl
  · rename_i fragment rest _ ih
    cases fragment <;> simp [ih]

theorem trimLast_cons {fragments : List Fragment} (f : Fragment) (h : fragments ≠ []) :
    trimLast (f :: fragments) = f :: trimLast fragments := by
  cases fragments with
  | nil => exact absurd rfl h
  | cons g rest => cases f <;> rfl

theorem ne_nil_of_statementsIn {fragments : List Fragment} (h : statementsIn fragments ≠ []) :
    fragments ≠ [] := by
  rintro rfl
  exact h rfl

theorem trimLast_consText_of_statements {fragments : List Fragment} (t : List Char)
    (h : statementsIn fragments ≠ []) :
    trimLast (consText t fragments) = consText t (trimLast fragments) := by
  cases t with
  | nil => simp [consText_nil]
  | cons c t =>
      rcases fragments with _ | ⟨more | s, rest⟩
      · exact absurd rfl h
      · have hrest : rest ≠ [] := ne_nil_of_statementsIn h
        simp only [consText, trimLast_cons _ hrest]
      · cases rest <;> rfl

theorem flatten_trimLast_gather (text : Statement → List Char) (fragments : List Fragment) :
    ∃ front, flatten text fragments = front ++ closing fragments ∧
      flatten text (trimLast (gather fragments)) = front ++ trimEnd (closing fragments) := by
  induction fragments with
  | nil => exact ⟨[], rfl, rfl⟩
  | cons f rest ih =>
      obtain ⟨front, hflat, htrimmed⟩ := ih
      cases f with
      | text t =>
          -- Text before a statement is kept, text after the last one is put together and trimmed.
          by_cases h : statementsIn rest = []
          · refine ⟨[], ?_, ?_⟩
            · rw [List.nil_append, ← flatten_gather, gather_eq_consText (by simpa using h)]
              simp [flatten]
            · rw [List.nil_append, gather_eq_consText (by simpa using h), trimLast_consText]
              simp [flatten]
          · refine ⟨t.toList ++ front, ?_, ?_⟩
            · simp [flatten, closing, h, hflat]
            · rw [gather_text, trimLast_consText_of_statements _ (by simpa using h)]
              simp [closing, h, htrimmed]
      | statement s =>
          refine ⟨text s ++ front, ?_, ?_⟩
          · simp [flatten, closing, hflat]
          · cases hgather : gather rest with
            | nil =>
                rw [hgather] at htrimmed
                simp only [gather_statement, hgather, trimLast, flatten, closing] at htrimmed ⊢
                simpa using htrimmed
            | cons g more =>
                rw [hgather] at htrimmed
                simp [hgather, trimLast_cons, flatten, closing, htrimmed]

theorem ofFragments_of_statements {fragments : List Fragment} (h : statementsIn fragments ≠ []) :
    ofFragments fragments = .compound (trimLast fragments) := by
  rw [← statementsIn_trimLast] at h
  unfold ofFragments
  split
  · rename_i hnil
    rw [hnil] at h
    exact absurd rfl h
  · rename_i htext
    rw [htext] at h
    exact absurd rfl h
  · rfl

end Cythonizer.Proofs.Outline.Fragments
