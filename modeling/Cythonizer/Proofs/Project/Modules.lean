import Mathlib.Data.List.Pairwise
import Cythonizer.Proofs.Packaging.Outputs
import Cythonizer.Proofs.Project.Walk

namespace Cythonizer.Proofs.Project.Modules

open Cythonizer.FileTree.Access
open Cythonizer.FileTree.Basic
open Cythonizer.FileTree.Resolution
open Cythonizer.Path.Basic
open Cythonizer.Project.Sources
open Cythonizer.Text.Pieces
open Cythonizer.Proofs.FileTree.Destinations
open Cythonizer.Proofs.FileTree.Frames
open Cythonizer.Proofs.Packaging.Outputs
open Cythonizer.Proofs.Path.Joining
open Cythonizer.Proofs.Path.Names
open Cythonizer.Proofs.Path.Relative
open Cythonizer.Proofs.Project.Walk

variable {tree : FileTree} {here base : Location} {root path : Path} {exclusions : Exclusions}
  {name : String} {names : List String}

theorem components_join (htext : path.text ≠ "") (hname : IsName name) :
    (path.join ⟨name⟩).components = path.components ++ [.name name.toList] := by
  have hrelative : Path.isAbsolute ⟨name⟩ = false :=
    head?_ne_of_pieces (pieces_of_not_mem hname.noSlash) hname.proper.filled
  have hpieces : pieces '/' (Path.chars ⟨name⟩) = [name.toList] := pieces_of_not_mem hname.noSlash
  rw [components_join_of_relative htext hrelative, hpieces, componentsOf_cons []
    (isIdle_eq_false hname.proper),
    ofPiece_of_proper hname.proper]
  rfl

theorem text_join_ne {other : Path} (h : other.text ≠ "") : (path.join other).text ≠ "" := by
  unfold Path.join
  split
  · exact h
  · split <;> simp [h]

theorem components_pathBelow (hroot : root.text ≠ "") (hnames : ∀ name ∈ names, IsName name) :
    (pathBelow root names).components = root.components ++ names.map fun name =>
      .name name.toList := by
  induction names generalizing root with
  | nil => simp [pathBelow]
  | cons name rest ih =>
      obtain ⟨hname, hrest⟩ := List.forall_mem_cons.mp hnames
      have hfilled : name ≠ "" := fun hempty =>
        hname.proper.filled (String.toList_eq_nil_iff.mpr hempty)
      rw [pathBelow, List.foldl_cons, ← pathBelow, ih (text_join_ne hfilled) hrest,
        components_join hroot hname]
      simp

theorem text_ne_of_resolve {followLast : Bool} {place : Place}
    (h : resolve tree here path followLast = .ok place) : path.text ≠ "" := by
  intro htext
  rw [resolve, if_pos (by simpa using htext)] at h
  cases h

theorem text_ne_of_find {location : Location} {node : Node}
    (h : find tree here path = .ok (location, node)) :
    path.text ≠ "" := by
  unfold find at h
  split at h
  · rename_i hresolve
    exact text_ne_of_resolve hresolve
  · cases h
  · cases h

/-- A source of a walk: an open file at a location below the root. -/
structure IsFound (tree : FileTree) (exclusions : Exclusions) (root : Path) (base below : Location)
    (path : Path) : Prop where
  filled : below ≠ []
  eq_pathBelow : path = pathBelow root below.reverse
  isOpen : isOpen exclusions base below.reverse = true
  isSource : isSource path = true
  file : ∃ content mode, (below ++ base, .file content mode) ∈ tree.entries

theorem exists_isFound_of_sourceOf {e : Location × Node} (he : e ∈ tree.entries)
    (h : sourceOf exclusions root base e = some path) :
    ∃ below, e.1 = below ++ base ∧ IsFound tree exclusions root base below path := by
  unfold sourceOf at h
  split at h
  · rename_i location content mode
    split at h
    · rename_i first rest hnames
      dsimp only at h
      split at h
      · rename_i hopen
        obtain ⟨below, hbelow, rfl⟩ := eq_of_namesBelow hnames
        cases h
        rw [Bool.and_eq_true] at hopen
        refine ⟨below, rfl, ?_, by rw [hbelow], by rw [← hbelow]; exact hopen.1, hopen.2, _, _, he⟩
        rintro rfl
        cases hbelow
      · cases h
    · cases h
  · cases h

theorem exists_isFound (h : path ∈ sourcesBelow exclusions tree root base) :
    ∃ below, IsFound tree exclusions root base below path := by
  obtain ⟨e, he, hsource⟩ := List.mem_filterMap.mp h
  obtain ⟨below, -, hfound⟩ := exists_isFound_of_sourceOf he hsource
  exact ⟨below, hfound⟩

theorem same_comm (a b : Path) : a.same b = b.same a := by
  rw [Path.same, Path.same]
  exact BEq.comm

theorem eq_of_same {α : Type} {pathOf : α → Path} {items : List α} {a b : α}
    (hdistinct : (items.map pathOf).Pairwise fun a b => a.same b = false) (ha : a ∈ items)
    (hb : b ∈ items)
    (hsame : (pathOf a).same (pathOf b) = true) : a = b := by
  by_contra hne
  have hsymm : Std.Symm fun a b => (pathOf a).same (pathOf b) = false :=
    ⟨fun a b h => by rwa [same_comm]⟩
  have hfalse := (List.pairwise_map.mp hdistinct).forall ha hb hne
  rw [hsame] at hfalse
  cases hfalse

section

variable (htree : WellFormed tree) (hroot : root.text ≠ "")
include htree hroot

theorem IsFound.isBelow {below : Location} (h : IsFound tree exclusions root base below path) :
    IsBelow root path (below.reverse.map String.toList) := by
  obtain ⟨content, mode, hmem⟩ := h.file
  refine ⟨?_, by simp [h.filled]⟩
  rw [h.eq_pathBelow, components_pathBelow hroot fun name hname =>
    htree.names _ hmem name (List.mem_append_left _ (List.mem_reverse.mp hname))]
  simp [Function.comp_def]

theorem isBelow_of_mem (h : path ∈ sourcesBelow exclusions tree root base) :
    ∃ names, IsBelow root path names := by
  obtain ⟨below, hfound⟩ := exists_isFound h
  exact ⟨_, hfound.isBelow htree hroot⟩

theorem pairwise_sourcesBelow (exclusions : Exclusions) (base : Location) :
    (sourcesBelow exclusions tree root base).Pairwise fun a b => a.same b = false := by
  have hunique := List.pairwise_map.mp htree.unique
  refine List.Pairwise.filterMap _ ?_ (List.Pairwise.and_mem.mp hunique)
  rintro e f ⟨he, hf, hne⟩ a ha b hb
  obtain ⟨below, hlocation, hfound⟩ := exists_isFound_of_sourceOf he ha
  obtain ⟨below', hlocation', hfound'⟩ := exists_isFound_of_sourceOf hf hb
  rw [Path.same, beq_eq_false_iff_ne, (hfound.isBelow htree hroot).components,
    (hfound'.isBelow htree hroot).components]
  intro hsame
  have hnames := List.append_cancel_left hsame
  rw [List.map_inj_right fun _ _ => Component.name.inj, List.map_inj_right fun _ _ =>
    String.toList_inj.mp,
    List.reverse_inj] at hnames
  exact hne (by rw [hlocation, hlocation', hnames])

end

theorem travel_eq_error {links : Nat} {way : List (List Char)} {error : FileError}
    (h : travel tree false links here way = .error error) :
      travel tree true links here way = .error error := by
  induction links, here, way using travel.induct tree false with
  | case1 links start way found hdescend =>
      rw [travel, hdescend] at h
      cases h
  | case2 links start way failure hdescend =>
      rw [travel, hdescend] at h
      rw [travel, descend_follow hdescend (by simp)]
      exact h
  | case3 start way directory target rest hdescend =>
      rw [travel, hdescend] at h
      rw [travel, descend_follow hdescend (by simp)]
      exact h
  | case4 start way directory target rest hdescend links ih =>
      rw [travel, hdescend] at h
      rw [travel, descend_follow hdescend (by simp)]
      exact ih h

theorem find_eq_error {error : FileError} (h : resolve tree here path false = .error error) :
    find tree here path = .error error := by
  have hresolve : resolve tree here path true = .error error := by
    unfold resolve at h ⊢
    split
    · rename_i hempty
      rwa [if_pos hempty] at h
    · rename_i hfilled
      rw [if_neg hfilled] at h
      split
      · rename_i hnul
        rwa [if_pos hnul] at h
      · rename_i hclean
        rw [if_neg hclean] at h
        exact travel_eq_error h
  rw [find, hresolve]

theorem sources_of_directory [Encoding] (h : find tree here root = .ok (base, .directory)) :
    sources exclusions tree here root = (sourcesBelow exclusions tree root base).map .ok := by
  unfold sources
  split
  · rename_i hresolve
    rw [find_eq_error hresolve] at h
    cases h
  · rename_i hresolve
    rw [find, resolve_follow hresolve (by simp)] at h
    cases h
  · rename_i hresolve
    rw [find_iff_resolve.mpr (resolve_follow hresolve (by simp))] at h
    cases h
  · rename_i hresolve
    rw [find_iff_resolve.mpr (resolve_follow hresolve (by simp))] at h
    cases h
    rfl
  · rw [h]

end Cythonizer.Proofs.Project.Modules
