import Cythonizer.FileTree.Changes
import Cythonizer.Proofs.FileTree.Growth
import Mathlib.Logic.Relation

namespace Cythonizer.Proofs.FileTree.Writing

open Cythonizer.FileTree.Access
open Cythonizer.FileTree.Basic
open Cythonizer.FileTree.Changes
open Cythonizer.FileTree.Resolution
open Cythonizer.Text.Pieces
open Cythonizer.Proofs.FileTree.Frames
open Cythonizer.Proofs.FileTree.Growth
open Cythonizer.Proofs.Path.Relative
open Cythonizer.Proofs.Project.Walk

variable {tree before between after : FileTree} {followLast : Bool}
    {here location directory : Location}
  {node : Node} {path : Path} {name : String} {content : ByteArray}
    {mode : FileMode} {place : Place}
  {way : List (List Char)}

/-- A tree as a file system holds it, with the current directory in it. -/
structure IsSound (tree : FileTree) (here : Location) : Prop where
  wellFormed : WellFormed tree
  here : tree.node? here = some .directory
  targets : ∀ location target, tree.node? location = some (.link target) → '\x00' ∉ target.chars

section Ways

/-- The pieces of paths that have no NUL in them. -/
def ArePieces (way : List (List Char)) : Prop :=
  ∀ piece ∈ way, '/' ∉ piece ∧ '\x00' ∉ piece

theorem arePieces_pieces {text : List Char} (h : '\x00' ∉ text) : ArePieces (pieces '/' text) :=
  fun _ hpiece => ⟨not_mem_of_mem_pieces hpiece, fun hmem => h (mem_of_mem_pieces hpiece hmem).1⟩

theorem ArePieces.append {back : List (List Char)} (h : ArePieces way) (hback : ArePieces back) :
    ArePieces (way ++ back) := by
  intro piece hpiece
  rcases List.mem_append.mp hpiece with hpiece | hpiece
  · exact h piece hpiece
  · exact hback piece hpiece

/-- What a place says of the tree. -/
inductive EndsAt (tree : FileTree) : Place → Prop
  | found {location : Location} {node : Node} (hnode : tree.node? location = some node) :
      EndsAt tree (.found location node)
  | free {directory : Location} {name : String} {asDirectory : Bool}
      (hplace : IsPlace tree name directory) (hfree : tree.node? (name :: directory) = none) :
      EndsAt tree (.free directory name asDirectory)

/-- What a way through directories says of the tree. -/
inductive Leads (tree : FileTree) : Descent → Prop
  | arrived {place : Place} (h : EndsAt tree place) : Leads tree (.arrived place)
  | failed (error : FileError) : Leads tree (.failed error)
  | link {directory location : Location} {target : Path} {rest : List (List Char)}
      (hdirectory : tree.node? directory = some .directory)
      (hlink : tree.node? location = some (.link target)) (hrest : ArePieces rest) :
      Leads tree (.link directory target rest)

theorem node?_tail (h : WellFormed tree) (hnode : tree.node? location = some node) :
    tree.node? location.tail = some .directory := by
  cases location with
  | nil => rfl
  | cons name directory => exact (h.parent hnode).2

theorem leads_descend (h : WellFormed tree) (hstart : tree.node? here = some .directory)
    (hway : ArePieces way) : Leads tree (descend tree followLast here way) := by
  induction way generalizing here with
  | nil => exact .arrived (.found hstart)
  | cons piece rest ih =>
      obtain ⟨⟨hslash, hnul⟩, hrest⟩ := List.forall_mem_cons.mp hway
      rcases piece_cases piece with hidle | rfl | hname
      · rw [descend_idle _ hidle]
        exact ih hstart hrest
      · rw [descend_parent]
        exact ih (node?_tail h hstart) hrest
      · rw [descend_name _ hname]
        split
        · exact .failed _
        · rename_i hshort
          split
          · rename_i hnone
            split
            · refine .arrived (.free ⟨⟨?_, ?_, ?_, by simpa using hshort⟩, hstart⟩ hnone)
              · simpa using hname
              · simpa using hslash
              · simpa using hnul
            · exact .failed _
          · rename_i hdirectory
            exact ih hdirectory hrest
          · rename_i hlink
            split
            · exact .arrived (.found hlink)
            · exact .link hstart hlink hrest
          · rename_i hfound
            split
            · exact .arrived (.found hfound)
            · exact .failed _

theorem endsAt_of_descend (h : WellFormed tree) (hstart : tree.node? here = some .directory)
    (hway : ArePieces way) (hdescend : descend tree followLast here way = .arrived place) :
    EndsAt tree place := by
  have hleads := @leads_descend tree followLast here way h hstart hway
  rw [hdescend] at hleads
  cases hleads with
  | arrived h => exact h

end Ways

theorem node?_startOf (h : tree.node? here = some .directory) (path : Path) :
    tree.node? (startOf here path) = some .directory := by
  unfold startOf
  split
  · rfl
  · exact h

theorem IsSound.endsAt_travel (h : IsSound tree here) {links : Nat} {start : Location}
    (hstart : tree.node? start = some .directory) (hway : ArePieces way)
    (htravel : travel tree followLast links start way = .ok place) : EndsAt tree place := by
  induction links generalizing start way with
  | zero =>
      unfold travel at htravel
      split at htravel
      · rename_i hdescend
        cases htravel
        exact endsAt_of_descend h.wellFormed hstart hway hdescend
      · cases htravel
      · cases htravel
  | succ links ih =>
      unfold travel at htravel
      split at htravel
      · rename_i hdescend
        cases htravel
        exact endsAt_of_descend h.wellFormed hstart hway hdescend
      · cases htravel
      · rename_i hdescend
        have hleads := @leads_descend tree followLast start way h.wellFormed hstart hway
        rw [hdescend] at hleads
        cases hleads with
        | link hdirectory hlink hrest =>
            exact ih (node?_startOf hdirectory _)
              ((arePieces_pieces (h.targets _ _ hlink)).append hrest) htravel

theorem IsSound.endsAt_resolve (h : IsSound tree here)
    (hresolve : resolve tree here path followLast = .ok place) : EndsAt tree place := by
  unfold resolve at hresolve
  split at hresolve
  · cases hresolve
  · split at hresolve
    · cases hresolve
    · rename_i hnul
      refine h.endsAt_travel (node?_startOf h.here path) (arePieces_pieces ?_) hresolve
      simpa using hnul

theorem IsSound.exists_of_openForWriting (h : IsSound tree here)
    {old : Option (ByteArray × FileMode)}
    (hopen : openForWriting tree here path = .ok (location, old)) :
    ∃ name directory, location = name :: directory ∧ IsPlace tree name directory ∧
      tree.node? location ≠ some .directory := by
  cases openForWriting_iff.mp hopen with
  | found hresolve hmode =>
      cases h.endsAt_resolve hresolve with
      | found hnode =>
          cases location with
          | nil => cases hnode
          | cons name directory =>
              exact ⟨name, directory, rfl,
                ⟨(h.wellFormed.parent hnode).1, (h.wellFormed.parent hnode).2⟩,
                by simp [hnode]⟩
  | free hresolve =>
      cases h.endsAt_resolve hresolve with
      | free hplace hfree => exact ⟨_, _, rfl, hplace, by simp [hfree]⟩

theorem IsSound.write (h : IsSound tree here)
    (hwrite : FileTree.Access.write tree here path content = .ok after) : IsSound after here := by
  obtain ⟨location, old, hopen, rfl⟩ := exists_of_written hwrite
  obtain ⟨name, directory, rfl, hplace, hfree⟩ := h.exists_of_openForWriting hopen
  refine ⟨wellFormed_put h.wellFormed hplace hfree _, node?_put_of_directory hfree h.here, ?_⟩
  intro location target hlink
  by_cases hlocation : location = name :: directory
  · subst hlocation
    rw [node?_put _ (by simp)] at hlink
    cases hlink
  · rw [node?_put_of_ne _ hlocation] at hlink
    exact h.targets location target hlink

theorem IsSound.makeDirectory (h : IsSound tree here)
    (hmake : FileTree.Access.makeDirectory tree here path = .ok after) : IsSound after here := by
  unfold FileTree.Access.makeDirectory at hmake
  split at hmake
  · cases hmake
  · rename_i directory name asDirectory hresolve
    cases hmake
    cases h.endsAt_resolve hresolve with
    | free hplace hfree =>
        have hnone : tree.node? (name :: directory) ≠ some .directory := by simp [hfree]
        refine ⟨wellFormed_put h.wellFormed hplace hnone _, node?_put_of_directory hnone h.here, ?_⟩
        intro location target hlink
        by_cases hlocation : location = name :: directory
        · subst hlocation
          rw [node?_put _ (by simp)] at hlink
          cases hlink
        · rw [node?_put_of_ne _ hlocation] at hlink
          exact h.targets location target hlink
  · cases hmake

/-- From one tree to the next by writing a file or making a directory. -/
inductive IsAdded (here : Location) (before after : FileTree) : Prop
  | file {path : Path} {content : ByteArray}
      (hwrite : FileTree.Access.write before here path content = .ok after) :
        IsAdded here before after
  | directory {path : Path} (hmake : FileTree.Access.makeDirectory before here path = .ok after) :
      IsAdded here before after

/-- From one tree to another by writing files and making directories one after another. -/
def ByAdding (here : Location) : FileTree → FileTree → Prop :=
  Relation.ReflTransGen (IsAdded here)

theorem ByAdding.of_write (h : FileTree.Access.write before here path content = .ok after) :
    ByAdding here before after :=
  .single (.file h)

theorem byAdding_apply (change : Change) : ByAdding here tree (change.apply here tree) := by
  cases change with
  | file path content =>
      rw [Change.apply]
      cases hwrite : FileTree.Access.write tree here path content with
      | error error => exact .refl
      | ok after => exact .of_write hwrite
  | directory path =>
      rw [Change.apply]
      cases hmake : FileTree.Access.makeDirectory tree here path with
      | error error => exact .refl
      | ok after => exact .single (.directory hmake)

theorem byAdding_applyAll (changes : List Change) :
    ByAdding here tree (applyAll here tree changes) := by
  induction changes generalizing tree with
  | nil => exact .refl
  | cons change rest ih => exact (byAdding_apply change).trans ih

theorem IsSound.byAdding (h : IsSound before here) (hadded : ByAdding here before after) :
    IsSound after here := by
  induction hadded with
  | refl => exact h
  | tail _ hnext ih =>
      cases hnext with
      | file hwrite => exact ih.write hwrite
      | directory hmake => exact ih.makeDirectory hmake

theorem grows_of_byAdding (h : IsPlain before here) (hadded : ByAdding here before after) :
    Grows (fun _ => true) here before after := by
  induction hadded with
  | refl => exact .refl _ h
  | tail _ hnext ih =>
      cases hnext with
      | file hwrite => exact ih.trans (grows_of_write ih.plain rfl hwrite)
      | directory hmake => exact ih.trans (grows_of_makeDirectory ih.plain hmake)

end Cythonizer.Proofs.FileTree.Writing
