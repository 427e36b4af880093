import Cythonizer.Proofs.FileTree.Agreement
import Cythonizer.Proofs.Packaging.Shipping

namespace Cythonizer.Proofs.Packaging.Rewriting

open Cythonizer.FileTree.Access
open Cythonizer.FileTree.Basic
open Cythonizer.Packaging.Basic
open Cythonizer.Proofs.FileTree.Agreement
open Cythonizer.Proofs.FileTree.Destinations
open Cythonizer.Proofs.FileTree.Frames
open Cythonizer.Proofs.FileTree.Growth
open Cythonizer.Proofs.Packaging.Shipping
open Cythonizer.Proofs.Packaging.Turns

variable {packager : Packager} {here : Location} {tree ready packed after : FileTree}
    {source path : Path}
  {emitted : String} {file : PackagedFile} {files : List PackagedFile}
    {records : List (Path × String)}
  {auxiliaries paths pending : List Path} {summary result : Summary} {content : ByteArray}

/-- No file that some paths lead to is one that may not be written. -/
def Rewritable (here : Location) (tree : FileTree) (paths : List Path) : Prop :=
  ∀ path ∈ paths, ∀ content mode,
    tree.node? (destination here path) = some (.file content mode) → mode.writable = true

def isLocked : Option Node → Bool
  | some (.file _ mode) => !mode.writable
  | _ => false

theorem isLocked_eq_false_iff {node : Option Node} :
    isLocked node = false ↔ ∀ content mode, node = some (.file content mode) →
      mode.writable = true := by
  rcases node with _ | ⟨content, mode⟩ | _ | _ <;> simp [isLocked]

instance (here : Location) (tree : FileTree) (paths : List Path) :
    Decidable (Rewritable here tree paths) :=
  decidable_of_iff (∀ path ∈ paths, isLocked (tree.node? (destination here path)) = false)
    (forall₂_congr fun _ _ => isLocked_eq_false_iff)

theorem Rewritable.of_locks (h : Rewritable here after paths) (hlocks : Locks tree after) :
    Rewritable here tree paths := by
  intro path hpath content mode hnode
  cases hmode : mode.writable with
  | true => rfl
  | false => exact hmode.symm.trans (h path hpath content mode (hlocks _ _ _ hnode hmode))

theorem Rewritable.mono {fewer : List Path} (h : Rewritable here tree paths)
    (hsub : fewer ⊆ paths) :
    Rewritable here tree fewer :=
  fun path hpath => h path (hsub hpath)

theorem Rewritable.put {location : Location} {mode : FileMode} (h : Rewritable here tree paths)
    (hroot : location ≠ []) (hmode : ∀ path ∈ paths, destination here path = location →
      mode.writable = true) :
    Rewritable here (tree.put location (.file content mode)) paths := by
  intro path hpath content' mode' hnode
  by_cases hlocation : destination here path = location
  · rw [hlocation, node?_put _ hroot] at hnode
    cases hnode
    exact hmode path hpath hlocation
  · rw [node?_put_of_ne _ hlocation] at hnode
    exact h path hpath content' mode' hnode

/-- Trees that agree outside some destinations have the same files that may not be written, if those
at the destinations may. -/
theorem locks_of_agrees {other : FileTree} (hagrees : Agrees (leadsTo here paths) tree other)
    (h : Rewritable here tree paths) : Locks tree other := by
  intro location content mode hnode hmode
  rw [hagrees.nodes location, hnode]
  rw [Bool.eq_false_iff]
  intro hleads
  obtain ⟨path, hpath, rfl⟩ := leadsTo_iff.mp hleads
  rw [h path hpath content mode hnode] at hmode
  cases hmode

theorem rewritable_of_open {opened : Location × Option (ByteArray × FileMode)}
    (h : IsPlain tree here)
    (hopen : openForWriting tree here path = .ok opened) : Rewritable here tree [path] := by
  obtain ⟨location, old⟩ := opened
  obtain ⟨hnode, name, directory, rfl, hopens⟩ := h.opens hopen
  intro other hother content mode hthere
  rw [List.mem_singleton.mp hother, hopens.destination, hnode] at hthere
  cases openForWriting_iff.mp hopen with
  | found hresolve hmode =>
      cases hthere
      exact hmode
  | free hresolve => cases hthere

theorem locks_of_open {node : Node} {location : Location} {old : Option (ByteArray × FileMode)}
    (h : IsPlain tree here) (hopen : openForWriting tree here path = .ok (location, old)) :
    Locks tree (tree.put location node) := by
  obtain ⟨-, name, directory, rfl, hopens⟩ := h.opens hopen
  have hwritable := rewritable_of_open h hopen path (List.mem_singleton_self path)
  rw [hopens.destination] at hwritable
  exact .put hwritable (by simp) node

theorem locks_of_write (h : IsPlain tree here) (hwrite : write tree here path content = .ok after) :
    Locks tree after := by
  obtain ⟨location, old, hopen, rfl⟩ := exists_of_written hwrite
  exact locks_of_open h hopen

theorem locks_of_copy (h : IsPlain tree here)
    (hcopy : FileTree.Access.copy tree here source path = .ok after) : Locks tree after := by
  obtain ⟨origin, content, mode, location, old, -, -, hopen, rfl⟩ := exists_of_copied hcopy
  exact locks_of_open h hopen

theorem locks_of_grows (h : Grows (fun _ => false) here tree after) : Locks tree after :=
  fun _ _ _ hnode _ => (h.node?_file rfl).mpr hnode

theorem locks_of_prepares (h : IsPlain tree here)
    (hready : Prepares packager here source tree ready) :
    Locks tree ready :=
  locks_of_grows (grows_of_prepares h hready)

theorem locks_of_places (h : IsPlain ready here)
    (hplaces : Places packager here source emitted ready file after) :
    Locks ready after ∧ Rewritable here ready [file.output] := by
  cases hplaces with
  | emitted hnone hwrite =>
      obtain ⟨opened, hopen⟩ := canOpen_of_write hwrite
      exact ⟨locks_of_write h hwrite, rewritable_of_open h hopen⟩
  | compiled hartifact hcopy =>
      obtain ⟨opened, hopen⟩ := canOpen_of_copy hcopy
      exact ⟨locks_of_copy h hcopy, rewritable_of_open h hopen⟩
  | fallback hartifact hcopy hwrite =>
      obtain ⟨opened, hopen⟩ := canOpen_of_write hwrite
      exact ⟨locks_of_write h hwrite, rewritable_of_open h hopen⟩

theorem plain_of_placesAll (h : PlacesAll packager here tree records files after)
    (hplain : IsPlain tree here) :
    IsPlain after here := by
  induction h with
  | done tree => exact hplain
  | @next source emitted tree ready between after records file files hready hplaces rest ih =>
      have hprepared : Grows (fun _ => false) here tree ready := grows_of_prepares hplain hready
      exact ih (grows_of_places hprepared.plain hplaces).plain

theorem locks_of_placesAll (h : PlacesAll packager here tree records files after)
    (hplain : IsPlain tree here) :
    Locks tree after ∧ Rewritable here tree (files.map PackagedFile.output) := by
  induction h with
  | done tree => exact ⟨.refl tree, by simp [Rewritable]⟩
  | @next source emitted tree ready between after records file files hready hplaces rest ih =>
      have hprepared : Grows (fun _ => false) here tree ready := grows_of_prepares hplain hready
      obtain ⟨hplaced, hfirst⟩ := locks_of_places hprepared.plain hplaces
      obtain ⟨hrest, hothers⟩ := ih (grows_of_places hprepared.plain hplaces).plain
      have hbetween := (locks_of_prepares hplain hready).trans hplaced
      refine ⟨hbetween.trans hrest, fun path hpath => ?_⟩
      rcases List.mem_cons.mp hpath with rfl | hpath
      · exact hfirst.of_locks (locks_of_prepares hplain hready) _ (List.mem_singleton_self _)
      · exact hothers.of_locks hbetween path hpath

theorem copied_of_copies (h : Copies packager here tree auxiliaries summary result after) :
    ∃ pending, result.auxiliaryCopied = summary.auxiliaryCopied ++ pending := by
  induction h with
  | done tree summary => exact ⟨[], (List.append_nil _).symm⟩
  | nameless hname rest ih => exact ih
  | copied hname hcopied rest ih =>
      obtain ⟨pending, hpending⟩ := ih
      exact ⟨_ :: pending, by rw [hpending, List.append_assoc]; rfl⟩
  | missing hname hmissing hallowed rest ih => exact ih

theorem locks_of_copies (h : Copies packager here tree auxiliaries summary result after)
    (hplain : IsPlain tree here) :
    Locks tree after ∧ ∀ pending, result.auxiliaryCopied = summary.auxiliaryCopied ++ pending →
      Rewritable here tree pending := by
  induction h with
  | done tree summary =>
      refine ⟨.refl tree, fun pending hpending => ?_⟩
      obtain rfl : pending = [] := by simpa using hpending
      simp [Rewritable]
  | nameless hname rest ih => exact ih hplain
  | @copied tree between after path rest summary result name hname hcopied hrest ih =>
      have hcopy := (isFile_of_copied? hcopied).2
      obtain ⟨opened, hopen⟩ := canOpen_of_copy hcopy
      have hbetween := locks_of_copy hplain hcopy
      obtain ⟨hlater, hothers⟩ := ih (grows_of_copied? hplain hcopied).plain
      refine ⟨hbetween.trans hlater, fun pending hpending => ?_⟩
      obtain ⟨more, hmore⟩ := copied_of_copies hrest
      obtain rfl : pending = packager.output.join ⟨name⟩ :: more := by
        rw [hpending, List.append_assoc] at hmore
        exact List.append_cancel_left hmore
      intro path hpath
      rcases List.mem_cons.mp hpath with rfl | hpath
      · exact rewritable_of_open hplain hopen _ (List.mem_singleton_self _)
      · exact (hothers more hmore).of_locks hbetween path hpath
  | missing hname hmissing hallowed rest ih => exact ih hplain

theorem locks_of_packs (h : Packs packager here tree records summary after)
    (hplain : IsPlain tree here) :
    Locks tree after ∧
      Rewritable here tree (summary.files.map PackagedFile.output ++ summary.auxiliaryCopied) := by
  obtain ⟨hmade, hplaces, hcopies⟩ := h
  rename_i made packed files
  have hmake : Grows (fun _ => false) here tree made := grows_of_made hplain hmade
  obtain ⟨hpacked, hfiles⟩ := locks_of_placesAll hplaces hmake.plain
  obtain ⟨hafter, hcopied⟩ := locks_of_copies hcopies (plain_of_placesAll hplaces hmake.plain)
  refine ⟨((locks_of_grows hmake).trans hpacked).trans hafter, fun path hpath => ?_⟩
  rcases List.mem_append.mp hpath with hpath | hpath
  · rw [files_of_copies hcopies] at hpath
    exact hfiles.of_locks (locks_of_grows hmake) path hpath
  · exact (hcopied _ rfl).of_locks ((locks_of_grows hmake).trans hpacked) path hpath

end Cythonizer.Proofs.Packaging.Rewriting
