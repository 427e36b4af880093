import Cythonizer.Proofs.FileTree.Finding
import Cythonizer.Proofs.FileTree.Writing

namespace Cythonizer.Proofs.FileTree.Persistence

open Cythonizer.FileTree.Access
open Cythonizer.FileTree.Basic
open Cythonizer.FileTree.Resolution
open Cythonizer.Path.Basic
open Cythonizer.Proofs.FileTree.Finding
open Cythonizer.Proofs.FileTree.Frames
open Cythonizer.Proofs.FileTree.Writing

variable {tree before between after : FileTree} {followLast : Bool}
    {here start location directory : Location}
  {node : Node} {path source : Path} {name : String} {asDirectory : Bool} {content : ByteArray}
  {place : Place} {way : List (List Char)} {links : Nat}

/-- The same node up to the contents of a file. -/
inductive Alike : Node → Node → Prop
  | file (content content' : ByteArray) (mode mode' : FileMode) :
      Alike (.file content mode) (.file content' mode')
  | directory : Alike .directory .directory
  | link (target : Path) : Alike (.link target) (.link target)

theorem Alike.refl (node : Node) : Alike node node := by
  cases node with
  | file content mode => exact .file _ _ _ _
  | directory => exact .directory
  | link target => exact .link target

theorem Alike.trans {a b c : Node} (h : Alike a b) (hrest : Alike b c) : Alike a c := by
  cases h with
  | file =>
      cases hrest
      exact .file _ _ _ _
  | directory => exact hrest
  | link target => exact hrest

/-- From one tree to another in which everything stays, up to the contents of files. -/
def Extends (before after : FileTree) : Prop :=
  ∀ location node, before.node? location = some node →
    ∃ later, after.node? location = some later ∧ Alike node later

theorem Extends.refl (tree : FileTree) : Extends tree tree :=
  fun _ node hnode => ⟨node, hnode, .refl node⟩

theorem Extends.trans (h : Extends before between) (hrest : Extends between after) :
    Extends before after := by
  intro location node hnode
  obtain ⟨next, hnext, halike⟩ := h location node hnode
  obtain ⟨last, hlast, hrest⟩ := hrest location next hnext
  exact ⟨last, hlast, halike.trans hrest⟩

theorem Extends.put (h : ∀ old, tree.node? location = some old → Alike old node) :
    Extends tree (tree.put location node) := by
  intro other old hold
  by_cases hother : other = location
  · subst hother
    by_cases hroot : other = []
    · subst hroot
      exact ⟨old, hold, .refl old⟩
    · exact ⟨node, node?_put node hroot, h old hold⟩
  · exact ⟨old, by rwa [node?_put_of_ne node hother], .refl old⟩

section Ways

/-- What can be put at a free place for a path to lead to it. -/
def CanStand (asDirectory : Bool) : Node → Prop
  | .file _ _ => asDirectory = false
  | .directory => True
  | .link _ => False

/-- What comes of a place later on: what is found there stays, and what is put at a free place is
found. -/
def Settles (after : FileTree) (Found : Place → Prop) : Place → Prop
  | .found location node => ∃ later, Alike node later ∧ Found (.found location later)
  | .free directory name asDirectory =>
    ∀ node, after.node? (name :: directory) = some node → CanStand asDirectory node →
      Found (.found (name :: directory) node)

/-- What comes of a way through directories later on. -/
def Continues (after : FileTree) : Descent → Descent → Prop
  | .arrived place, later => Settles after (fun found => later = .arrived found) place
  | .failed _, _ => True
  | .link directory target rest, later => later = .link directory target rest

theorem Extends.continues (h : Extends before after) (followLast : Bool) (start : Location)
    (way : List (List Char)) :
    Continues after (descend before followLast start way) (descend after followLast start way) := by
  induction way generalizing start with
  | nil => exact ⟨.directory, .directory, rfl⟩
  | cons piece rest ih =>
      rcases piece_cases piece with hidle | rfl | hname
      · rw [descend_idle _ hidle, descend_idle _ hidle]
        exact ih start
      · rw [descend_parent, descend_parent]
        exact ih start.tail
      · rw [descend_name _ hname, descend_name _ hname]
        split
        · exact trivial
        · split
          · split
            · rename_i hempty
              intro node hnode hstands
              rw [hnode]
              cases node with
              | file content mode => simp_all [CanStand]
              | directory =>
                  refine descend_all_idle fun piece hpiece => ?_
                  simp [isIdle, List.all_eq_true.mp hempty piece hpiece]
              | link target => cases hstands
            · exact trivial
          · rename_i hdirectory
            obtain ⟨later, hlater, halike⟩ := h _ _ hdirectory
            cases halike
            rw [hlater]
            exact ih _
          · rename_i target hlink
            obtain ⟨later, hlater, halike⟩ := h _ _ hlink
            cases halike
            rw [hlater]
            dsimp only
            split
            · exact ⟨_, .link target, rfl⟩
            · rfl
          · rename_i hnot hnot' hfound
            obtain ⟨later, hlater, halike⟩ := h _ _ hfound
            cases halike with
            | file content content' mode mode' =>
                rw [hlater]
                dsimp only
                split
                · exact ⟨_, .file _ _ _ _, rfl⟩
                · exact trivial
            | directory => exact absurd rfl hnot
            | link target => exact absurd rfl (hnot' target)

theorem Extends.settles_descend (h : Extends before after)
    (hdescend : descend before followLast start way = .arrived place) :
    Settles after (fun found => descend after followLast start way = .arrived found) place := by
  have hlater := h.continues followLast start way
  rw [hdescend] at hlater
  exact hlater

theorem Settles.mono {Found Found' : Place → Prop} (h : Settles after Found place)
    (hmono : ∀ found, Found found → Found' found) : Settles after Found' place := by
  cases place with
  | found location node =>
      obtain ⟨later, halike, hfound⟩ := h
      exact ⟨later, halike, hmono _ hfound⟩
  | free directory name asDirectory =>
    exact fun node hnode hstands => hmono _ (h node hnode hstands)

theorem Extends.settles_travel (h : Extends before after)
    (htravel : travel before followLast links start way = .ok place) :
    Settles after (fun found => travel after followLast links start way = .ok found) place := by
  induction links, start, way using travel.induct before followLast with
  | case1 links start way found hdescend =>
      rw [travel, hdescend] at htravel
      cases htravel
      exact (h.settles_descend hdescend).mono fun found hfound => by rw [travel, hfound]
  | case2 links start way error hdescend =>
      rw [travel, hdescend] at htravel
      cases htravel
  | case3 start way directory target rest hdescend =>
      rw [travel, hdescend] at htravel
      cases htravel
  | case4 start way directory target rest hdescend links ih =>
      have hlater := h.continues followLast start way
      rw [hdescend] at hlater
      rw [travel, hdescend] at htravel
      refine (ih htravel).mono fun found hfound => ?_
      rw [travel, show descend after followLast start way = _ from hlater]
      exact hfound

theorem Extends.settles_resolve (h : Extends before after)
    (hresolve : resolve before here path followLast = .ok place) :
    Settles after (fun found => resolve after here path followLast = .ok found) place := by
  obtain ⟨htext, hnul, htravel⟩ := resolve_iff_travel.mp hresolve
  exact (h.settles_travel htravel).mono fun found hfound =>
    resolve_iff_travel.mpr ⟨htext, hnul, hfound⟩

end Ways

theorem Extends.find (h : Extends before after)
    (hfind : find before here path = .ok (location, node)) :
    ∃ later, FileTree.Access.find after here path = .ok (location, later) ∧ Alike node later := by
  obtain ⟨later, halike, hlater⟩ := h.settles_resolve (find_iff_resolve.mp hfind)
  exact ⟨later, find_iff_resolve.mpr hlater, halike⟩

theorem Extends.find_free (h : Extends before after)
    (hresolve : resolve before here path true = .ok (.free directory name asDirectory))
    (hnode : after.node? (name :: directory) = some node) (hstands : CanStand asDirectory node) :
    FileTree.Access.find after here path = .ok (name :: directory, node) :=
  find_iff_resolve.mpr (h.settles_resolve hresolve node hnode hstands)

theorem Extends.isFile (h : Extends before after) (hfile : isFile before here path = true) :
    isFile after here path = true := by
  unfold FileTree.Access.isFile at hfile
  split at hfile
  · rename_i hfind
    obtain ⟨later, hlater, halike⟩ := h.find hfind
    cases halike
    rw [FileTree.Access.isFile, hlater]
  · cases hfile

theorem holds_of_isFile (h : isFile tree here path = true) : holds tree here path = true := by
  unfold FileTree.Access.isFile at h
  split at h
  · rename_i hfind
    rw [holds, hfind]
    rfl
  · cases h

theorem Extends.isDirectory (h : Extends before after)
    (hdirectory : isDirectory before here path = true) :
    isDirectory after here path = true := by
  obtain ⟨location, hfind⟩ := exists_of_isDirectory hdirectory
  obtain ⟨later, hlater, halike⟩ := h.find hfind
  cases halike
  rw [FileTree.Access.isDirectory, hlater]

section Places

/-- What a place says of the tree that it is in. A directory may be the one that the way starts
from. -/
def IsTold (tree : FileTree) : Place → Prop
  | .found location node => node = .directory ∨ tree.node? location = some node
  | .free directory name _ => tree.node? (name :: directory) = none

theorem isTold_of_descend (hdescend : descend tree followLast start way = .arrived place) :
    IsTold tree place := by
  induction way generalizing start with
  | nil =>
      cases hdescend
      exact .inl rfl
  | cons piece rest ih =>
      rcases piece_cases piece with hidle | rfl | hname
      · rw [descend_idle _ hidle] at hdescend
        exact ih hdescend
      · rw [descend_parent] at hdescend
        exact ih hdescend
      · rw [descend_name _ hname] at hdescend
        split at hdescend
        · cases hdescend
        · split at hdescend
          · rename_i hnone
            split at hdescend
            · cases hdescend
              exact hnone
            · cases hdescend
          · exact ih hdescend
          · rename_i hlink
            split at hdescend
            · cases hdescend
              exact .inr hlink
            · cases hdescend
          · rename_i hfound
            split at hdescend
            · cases hdescend
              exact .inr hfound
            · cases hdescend

theorem isTold_of_travel (htravel : travel tree followLast links start way = .ok place) :
    IsTold tree place := by
  induction links, start, way using travel.induct tree followLast with
  | case1 links start way found hdescend =>
      rw [travel, hdescend] at htravel
      cases htravel
      exact isTold_of_descend hdescend
  | case2 links start way error hdescend =>
      rw [travel, hdescend] at htravel
      cases htravel
  | case3 start way directory target rest hdescend =>
      rw [travel, hdescend] at htravel
      cases htravel
  | case4 start way directory target rest hdescend links ih =>
      rw [travel, hdescend] at htravel
      exact ih htravel

theorem isTold_of_resolve (hresolve : resolve tree here path followLast = .ok place) :
    IsTold tree place :=
  isTold_of_travel (resolve_iff_travel.mp hresolve).2.2

end Places

section Changes

theorem file_of_open {old : Option (ByteArray × FileMode)}
    (hopen : openForWriting tree here path = .ok (location, old))
    (hnode : tree.node? location = some node) :
    ∃ content mode, node = .file content mode := by
  cases openForWriting_iff.mp hopen with
  | found hresolve hmode =>
      have hthere := (isTold_of_resolve hresolve).resolve_left (by simp)
      rw [hnode] at hthere
      cases hthere
      exact ⟨_, _, rfl⟩
  | free hresolve =>
      have hfree := isTold_of_resolve hresolve
      rw [IsTold, hnode] at hfree
      cases hfree

theorem extends_of_open {old : Option (ByteArray × FileMode)}
    (hopen : openForWriting tree here path = .ok (location, old)) (content : ByteArray)
    (mode : FileMode) :
    Extends tree (tree.put location (.file content mode)) ∧
      isFile (tree.put location (.file content mode)) here path = true := by
  have hextends : Extends tree (tree.put location (.file content mode)) := by
    refine .put fun node hnode => ?_
    obtain ⟨content, mode, rfl⟩ := file_of_open hopen hnode
    exact .file _ _ _ _
  refine ⟨hextends, ?_⟩
  cases openForWriting_iff.mp hopen with
  | found hresolve hmode =>
      refine hextends.isFile ?_
      rw [isFile, find, hresolve]
  | free hresolve =>
      have hfind := hextends.find_free hresolve (node?_put _ (by simp)) (by simp [CanStand])
      rw [isFile, hfind]

theorem extends_of_write (hwrite : write tree here path content = .ok after) :
    Extends tree after ∧ isFile after here path = true := by
  obtain ⟨location, old, hopen, rfl⟩ := exists_of_written hwrite
  exact extends_of_open hopen _ _

theorem extends_of_copy (hcopy : copy tree here source path = .ok after) :
    Extends tree after ∧ isFile after here path = true := by
  obtain ⟨origin, content, mode, location, old, -, -, hopen, rfl⟩ := exists_of_copied hcopy
  exact extends_of_open hopen _ _

theorem extends_of_makeDirectory (hmake : makeDirectory tree here path = .ok after) :
    Extends tree after ∧ isDirectory after here path = true := by
  unfold makeDirectory at hmake
  split at hmake
  · cases hmake
  · rename_i directory name asDirectory hresolve
    cases hmake
    have hnode : tree.node? (name :: directory) = none := isTold_of_resolve hresolve
    have hextends : Extends tree (tree.put (name :: directory) .directory) := by
      refine .put fun old hold => ?_
      rw [hnode] at hold
      cases hold
    refine ⟨hextends, ?_⟩
    have hfind := hextends.find_free (resolve_follow hresolve (by simp))
      (node?_put _ (by simp)) trivial
    rw [isDirectory, hfind]
  · cases hmake

theorem extends_of_ensureDirectory (hensure : ensureDirectory tree here path = .ok after) :
    Extends tree after ∧ isDirectory after here path = true := by
  unfold ensureDirectory at hensure
  split at hensure
  · rename_i hmake
    cases hensure
    exact extends_of_makeDirectory hmake
  · split at hensure
    · rename_i hdirectory
      cases hensure
      exact ⟨.refl _, hdirectory⟩
    · cases hensure

theorem extends_makeDirectoriesUpTo (depth : Nat) (path : Path) :
    Extends tree (makeDirectoriesUpTo depth tree here path).2 ∧
      ((makeDirectoriesUpTo depth tree here path).1 = none → path.text ≠ "" →
        isDirectory (makeDirectoriesUpTo depth tree here path).2 here path = true) := by
  induction depth generalizing path with
  | zero =>
      unfold makeDirectoriesUpTo
      split
      · rename_i htext
        exact ⟨.refl _, fun _ hne => absurd (by simpa using htext) hne⟩
      · split
        · rename_i hensure
          obtain ⟨hextends, hdirectory⟩ := extends_of_ensureDirectory hensure
          exact ⟨hextends, fun _ _ => hdirectory⟩
        · rename_i hdepth
          cases hdepth
        · exact ⟨.refl _, by simp⟩
  | succ depth ih =>
      unfold makeDirectoriesUpTo
      split
      · rename_i htext
        exact ⟨.refl _, fun _ hne => absurd (by simpa using htext) hne⟩
      · split
        · rename_i hensure
          obtain ⟨hextends, hdirectory⟩ := extends_of_ensureDirectory hensure
          exact ⟨hextends, fun _ _ => hdirectory⟩
        · rename_i hdepth
          cases hdepth
          split
          · exact ⟨.refl _, by simp⟩
          · rename_i parent hparent
            have hparents := (ih parent).1
            split
            · rename_i hmade
              rw [hmade] at hparents
              exact ⟨hparents, by simp⟩
            · rename_i hmade
              rw [hmade] at hparents
              split
              · rename_i hensure
                obtain ⟨hextends, hdirectory⟩ := extends_of_ensureDirectory hensure
                exact ⟨hparents.trans hextends, fun _ _ => hdirectory⟩
              · exact ⟨hparents, by simp⟩
        · exact ⟨.refl _, by simp⟩

theorem extends_of_makeDirectories {failure : Option FileError}
    (hmade : makeDirectories tree here path = (failure, after)) : Extends tree after := by
  have hextends := (@extends_makeDirectoriesUpTo tree here path.text.length path).1
  rwa [← makeDirectories, hmade] at hextends

theorem isDirectory_of_makeDirectories (hmade : makeDirectories tree here path = (none, after))
    (htext : path.text ≠ "") : isDirectory after here path = true := by
  have hdirectory := (@extends_makeDirectoriesUpTo tree here path.text.length path).2
  rw [← makeDirectories, hmade] at hdirectory
  exact hdirectory rfl htext

/-- From one tree to another in which everything stays, up to the contents of files, and no link
comes. -/
structure Adds (before after : FileTree) : Prop where
  kept : Extends before after
  link : ∀ location target,
    after.node? location = some (.link target) → before.node? location = some (.link target)

theorem Adds.refl (tree : FileTree) : Adds tree tree :=
  ⟨.refl tree, fun _ _ => id⟩

theorem Adds.trans (h : Adds before between) (hrest : Adds between after) : Adds before after :=
  ⟨h.kept.trans hrest.kept, fun location target hlink =>
    h.link _ _ (hrest.link location target hlink)⟩

theorem link_of_put {other : Location} {target : Path} (hroot : location ≠ [])
    (hnode : ∀ target, node ≠ .link target)
    (hlink : (tree.put location node).node? other = some (.link target)) :
    tree.node? other = some (.link target) := by
  by_cases hother : other = location
  · subst hother
    rw [node?_put _ hroot] at hlink
    exact absurd (Option.some.inj hlink) (hnode target)
  · rwa [node?_put_of_ne _ hother] at hlink

theorem Adds.of_write (hwrite : write tree here path content = .ok after) : Adds tree after := by
  refine ⟨(extends_of_write hwrite).1, fun other target hlink => ?_⟩
  obtain ⟨location, old, hopen, rfl⟩ := exists_of_written hwrite
  refine link_of_put ?_ (by simp) hlink
  rintro rfl
  obtain ⟨content, mode, hfile⟩ := @file_of_open tree here [] .directory path old hopen rfl
  cases hfile

theorem Adds.of_makeDirectory (hmake : makeDirectory tree here path = .ok after) :
    Adds tree after := by
  refine ⟨(extends_of_makeDirectory hmake).1, fun other target hlink => ?_⟩
  unfold makeDirectory at hmake
  split at hmake
  · cases hmake
  · cases hmake
    exact link_of_put (by simp) (by simp) hlink
  · cases hmake

theorem Adds.of_byAdding (hadded : ByAdding here before after) : Adds before after := by
  induction hadded with
  | refl => exact .refl before
  | tail _ hnext ih =>
      cases hnext with
      | file hwrite => exact ih.trans (.of_write hwrite)
      | directory hmake => exact ih.trans (.of_makeDirectory hmake)

theorem Adds.find_directory (h : Adds before after)
    (hfind : FileTree.Access.find before here path = .ok (location, .directory)) :
    FileTree.Access.find after here path = .ok (location, .directory) := by
  obtain ⟨later, hlater, halike⟩ := h.kept.find hfind
  cases halike
  exact hlater

end Changes

section Folders

/-- The same directories and links. -/
structure SameFolders (before after : FileTree) : Prop where
  directory : ∀ location, before.node? location = some .directory ↔
    after.node? location = some .directory
  link : ∀ location target,
    before.node? location = some (.link target) ↔ after.node? location = some (.link target)

theorem SameFolders.refl (tree : FileTree) : SameFolders tree tree :=
  ⟨fun _ => .rfl, fun _ _ => .rfl⟩

theorem SameFolders.symm (h : SameFolders before after) : SameFolders after before :=
  ⟨fun location => (h.directory location).symm, fun location target =>
    (h.link location target).symm⟩

theorem SameFolders.trans (h : SameFolders before between) (hrest : SameFolders between after) :
    SameFolders before after :=
  ⟨fun location => (h.directory location).trans (hrest.directory location),
    fun location target => (h.link location target).trans (hrest.link location target)⟩

theorem SameFolders.put_file {mode : FileMode}
    (h : ∀ old, tree.node? location = some old → ∃ content mode, old = .file content mode) :
    SameFolders tree (tree.put location (.file content mode)) := by
  have hroot : location ≠ [] := by
    rintro rfl
    obtain ⟨content, mode, hfile⟩ := h .directory rfl
    cases hfile
  have hsame : ∀ other node, (∀ content mode, node ≠ .file content mode) →
      (tree.node? other = some node ↔
        (tree.put location (.file content mode)).node? other = some node) := by
    intro other node hnode
    by_cases hother : other = location
    · subst hother
      rw [node?_put _ hroot]
      refine iff_of_false (fun hold => ?_) (fun hnew => hnode _ _ (Option.some.inj hnew).symm)
      obtain ⟨content, mode, rfl⟩ := h node hold
      exact hnode _ _ rfl
    · rw [node?_put_of_ne _ hother]
  exact ⟨fun other => hsame other _ (by simp), fun other target => hsame other _ (by simp)⟩

theorem SameFolders.of_write (hwrite : write tree here path content = .ok after) :
    SameFolders tree after := by
  obtain ⟨location, old, hopen, rfl⟩ := exists_of_written hwrite
  exact .put_file fun node hnode => file_of_open hopen hnode

variable {target : Path} {rest : List (List Char)}

theorem SameFolders.descend_link (h : SameFolders before after)
    (hdescend : descend before followLast start way = .link directory target rest) :
    descend after followLast start way = .link directory target rest := by
  induction way generalizing start with
  | nil => cases hdescend
  | cons piece more ih =>
      rcases piece_cases piece with hidle | rfl | hname
      · rw [descend_idle _ hidle] at hdescend ⊢
        exact ih hdescend
      · rw [descend_parent] at hdescend ⊢
        exact ih hdescend
      · rw [descend_name _ hname] at hdescend ⊢
        split at hdescend
        · cases hdescend
        · rename_i hshort
          rw [if_neg hshort]
          split at hdescend
          · split at hdescend <;> cases hdescend
          · rename_i hdirectory
            rw [(h.directory _).mp hdirectory]
            exact ih hdescend
          · rename_i hlink
            rw [(h.link _ _).mp hlink]
            exact hdescend
          · split at hdescend <;> cases hdescend

theorem SameFolders.travel_directory (h : SameFolders before after)
    (htravel : travel before followLast links start way = .ok (.found location .directory)) :
    travel after followLast links start way = .ok (.found location .directory) := by
  induction links, start, way using travel.induct before followLast with
  | case1 links start way found hdescend =>
      rw [travel, hdescend] at htravel
      cases htravel
      rw [travel, descend_of_kept (fun l => (h.directory l).mp)
        (fun hne => absurd rfl hne) hdescend]
  | case2 links start way error hdescend =>
      rw [travel, hdescend] at htravel
      cases htravel
  | case3 start way directory target rest hdescend =>
      rw [travel, hdescend] at htravel
      cases htravel
  | case4 start way directory target rest hdescend links ih =>
      rw [travel, hdescend] at htravel
      rw [travel, h.descend_link hdescend]
      exact ih htravel

theorem SameFolders.find (h : SameFolders before after)
    (hfind : FileTree.Access.find before here path = .ok (location, .directory)) :
    FileTree.Access.find after here path = .ok (location, .directory) := by
  obtain ⟨htext, hnul, htravel⟩ := resolve_iff_travel.mp (find_iff_resolve.mp hfind)
  exact find_iff_resolve.mpr (resolve_iff_travel.mpr ⟨htext, hnul, h.travel_directory htravel⟩)

theorem SameFolders.isDirectory_of (h : SameFolders before after)
    (hdirectory : isDirectory before here path = true) : isDirectory after here path = true := by
  obtain ⟨location, hfind⟩ := exists_of_isDirectory hdirectory
  rw [isDirectory, h.find hfind]

theorem SameFolders.isDirectory (h : SameFolders before after) (here : Location) (path : Path) :
    FileTree.Access.isDirectory after here path = FileTree.Access.isDirectory before here path :=
  Bool.eq_iff_iff.mpr ⟨h.symm.isDirectory_of, h.isDirectory_of⟩

end Folders

end Cythonizer.Proofs.FileTree.Persistence
