import Cythonizer.Proofs.FileTree.Persistence
import Cythonizer.Proofs.Project.Exclusion

namespace Cythonizer.Proofs.Project.Texts

open Cythonizer.Compiler.Command
open Cythonizer.FileTree.Access
open Cythonizer.FileTree.Basic
open Cythonizer.FileTree.Resolution
open Cythonizer.Path.Basic
open Cythonizer.Project.Sources
open Cythonizer.Proofs.FileTree.Frames
open Cythonizer.Proofs.FileTree.Persistence
open Cythonizer.Proofs.Packaging.Shipping
open Cythonizer.Proofs.Path.Names
open Cythonizer.Proofs.Project.Exclusion
open Cythonizer.Proofs.Project.Modules
open Cythonizer.Proofs.Project.Walk

variable {tree later : FileTree} {here base below output location directory : Location}
    {root path : Path}
  {exclusions : Exclusions} {excluded : List String} {new : List Char} {place : Place} {links : Nat}

/-- A link with a name that a path can go through. -/
structure IsLinkAt (tree : FileTree) (name : List Char) (directory : Location) (target : Path) :
    Prop where
  proper : IsProper name
  short : ¬ nameLimit < (String.ofList name).utf8ByteSize
  node : tree.node? (String.ofList name :: directory) = some (.link target)

theorem isLinkAt_of_descend {start : Location} {target : Path} {rest : List (List Char)}
    (h : descend tree true start [new] = .link directory target rest) :
      IsLinkAt tree new start target := by
  rcases piece_cases new with hidle | rfl | hname
  · rw [descend_idle _ hidle] at h
    cases h
  · rw [descend_parent] at h
    cases h
  · rw [descend_name _ hname] at h
    split at h
    · cases h
    · rename_i hshort
      split at h
      · split at h <;> cases h
      · cases h
      · rename_i hlink
        rw [if_neg (by simp)] at h
        cases h
        exact ⟨hname, hshort, hlink⟩
      · split at h <;> cases h

theorem descend_or_isLinkAt (h : travel tree true links directory [new] = .ok place) :
    descend tree true directory [new] = .arrived place ∨
      ∃ target, IsLinkAt tree new directory target := by
  cases hdescend : descend tree true directory [new] with
  | arrived found =>
      rw [travel, hdescend] at h
      cases h
      exact .inl rfl
  | failed error =>
      rw [travel, hdescend] at h
      cases h
  | link above target rest => exact .inr ⟨target, isLinkAt_of_descend hdescend⟩

theorem IsLinkAt.travel {target : Path} (h : IsLinkAt tree new directory target) (links : Nat) :
    FileTree.Resolution.travel tree false links directory [new] =
      .ok (.found (String.ofList new :: directory) (.link target)) := by
  rw [FileTree.Resolution.travel, descend_name _ h.proper, if_neg h.short, h.node]
  rfl

/-- What is opened for writing inside a directory gets its name there, unless a link has it. -/
theorem eq_or_isLinkAt_of_open {other : Path} {old : Option (ByteArray × FileMode)}
    (hinside : ∀ place, resolve tree here other true = .ok place ↔
      travel tree true links directory [new] = .ok place)
    (hopen : openForWriting tree here other = .ok (location, old)) :
    location = String.ofList new :: directory ∨ ∃ target, IsLinkAt tree new directory target := by
  cases openForWriting_iff.mp hopen with
  | found hresolve hmode =>
      refine (descend_or_isLinkAt ((hinside _).mp hresolve)).imp_left fun hdescend => ?_
      obtain ⟨above, rfl, -, habove, -⟩ := @descend_file _ _ _ _ [] _ _ _ hdescend
      cases habove
      rfl
  | free hresolve =>
      refine (descend_or_isLinkAt ((hinside _).mp hresolve)).imp_left fun hdescend => ?_
      obtain ⟨rfl, rfl, -, -⟩ := descend_free hdescend
      rfl

theorem find_folder {folders : Location} (htree : WellFormed tree)
    (hroot : find tree here root = .ok (base, .directory))
    (hfolder : tree.node? (folders ++ base) = some .directory) :
    find tree here (pathBelow root folders.reverse) = .ok (folders ++ base, .directory) := by
  by_cases hempty : folders = []
  · subst hempty
    exact hroot
  · exact find_pathBelow htree hroot folders .directory hfolder (by simp) hempty

section

variable (htree : WellFormed tree) (hroot : find tree here root = .ok (base, .directory))
  (hfound : IsFound tree exclusions root base below path)
include htree hfound

/-- A source of a walk and its text are in one directory. -/
theorem exists_text : ∃ name folders front new,
    below = name :: folders ∧ tree.node? (folders ++ base) = some .directory ∧
      Ends (intermediate path) front new ∧ '\x00' ∉ new ∧
      (front = (pathBelow root folders.reverse).chars ∨
        (pathBelow root folders.reverse).chars ≠ [] ∧
          front = (pathBelow root folders.reverse).chars ++ ['/']) := by
  obtain ⟨content, mode, hmem⟩ := hfound.file
  have hnode := htree.node?_of_mem hmem (by simp [hfound.filled])
  obtain ⟨name, folders, rfl⟩ := List.exists_cons_of_ne_nil hfound.filled
  obtain ⟨hname, hparent⟩ := htree.parent hnode
  obtain ⟨front, hends, hfront⟩ := @join_ends (pathBelow root folders.reverse) name hname.noSlash
  rw [← pathBelow_append, ← List.reverse_cons, ← hfound.eq_pathBelow] at hends
  obtain ⟨stem, hstem, hfilled⟩ := exists_stem hends hname.proper hfound.isSource
  rw [hstem] at hends
  have hproper := hname.proper
  rw [hstem] at hproper
  refine ⟨name, folders, front, _, rfl, hparent, ends_intermediate hends hproper hfilled, ?_,
    hfront⟩
  have hclean : '\x00' ∉ stem.toList := by
    have hnul := hname.noNul
    rw [hstem] at hnul
    simp_all
  split
  · simp
  · simpa using hclean

include hroot

/-- The text of a source is written beside it, unless a link stands there. No link comes while files
are added, so it does not matter whether the link is looked for before that. -/
theorem tail_of_open {before : FileTree} {old : Option (ByteArray × FileMode)}
    (hbefore : WellFormed before)
    (hroot' : find before here root = .ok (base, .directory))
    (hlink : ∀ place target, resolve before here (intermediate path) false ≠
      .ok (.found place (.link target)))
    (hearlier : Adds before later) (hlater : Adds tree later)
    (hopen : openForWriting later here (intermediate path) = .ok (location, old)) :
    ∃ name, location = name :: (below ++ base).tail := by
  obtain ⟨name, folders, front, new, rfl, hfolder, hends, hnul, hfront⟩ := exists_text htree hfound
  obtain ⟨left, hleft⟩ :=
    exists_resolve_inside (hlater.find_directory (find_folder htree hroot hfolder))
    hends hfront hnul
  rcases eq_or_isLinkAt_of_open (hleft true) hopen with rfl | ⟨target, hthere⟩
  · exact ⟨_, rfl⟩
  · have hnode := hearlier.link _ _ hthere.node
    obtain ⟨left, hleft⟩ :=
      exists_resolve_inside (find_folder hbefore hroot' (hbefore.parent hnode).2)
      hends hfront hnul
    have hstood : IsLinkAt before new (folders ++ base) target :=
      ⟨hthere.proper, hthere.short, hnode⟩
    exact absurd ((hleft false _).mpr (hstood.travel left)) (hlink _ _)

end

theorem mem_sourcesBelow [Encoding] (hroot : find tree here root = .ok (base, .directory))
    (hmem : .ok path ∈ sources exclusions tree here root) :
      path ∈ sourcesBelow exclusions tree root base := by
  have hfollow : ∀ {location node}, resolve tree here root false = .ok (.found location node) →
      (∀ target, node ≠ .link target) → location = base ∧ node = .directory := by
    intro location node hresolve hnode
    have hfind := find_iff_resolve.mpr (resolve_follow hresolve (by simp [hnode]))
    rw [hroot] at hfind
    cases hfind
    exact ⟨rfl, rfl⟩
  unfold sources at hmem
  split at hmem
  · simp at hmem
  · simp at hmem
  · rename_i hresolve
    cases (hfollow hresolve (by simp)).2
  · rename_i hresolve
    obtain ⟨rfl, -⟩ := hfollow hresolve (by simp)
    simpa using hmem
  · rw [hroot] at hmem
    simpa using hmem

theorem isInside_beside (hbase : ¬ output <:+ base)
    (hfound : IsFound tree { names := excluded, locations := [output] } root base below path)
    (name : String) :
    isInside output (name :: (below ++ base).tail) = false := by
  obtain ⟨first, folders, rfl⟩ := List.exists_cons_of_ne_nil hfound.filled
  have hopen := hfound.isOpen
  have hinside : isInside output (first :: folders ++ base) ≠ true := by
    intro hinside
    rw [← List.reverse_reverse (first :: folders)] at hinside
    rw [isOpen_of_inside hbase hinside] at hopen
    cases hopen
  exact Bool.eq_false_iff.mpr hinside

end Cythonizer.Proofs.Project.Texts
