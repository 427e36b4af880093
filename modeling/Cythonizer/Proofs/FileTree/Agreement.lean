import Cythonizer.Proofs.FileTree.Finding

namespace Cythonizer.Proofs.FileTree.Agreement

open Cythonizer.FileTree.Access
open Cythonizer.FileTree.Basic
open Cythonizer.FileTree.Resolution
open Cythonizer.Text.Pieces
open Cythonizer.Proofs.FileTree.Finding
open Cythonizer.Proofs.FileTree.Frames
open Cythonizer.Proofs.FileTree.Growth
open Cythonizer.Proofs.Path.Names

variable {changing apart : Location → Bool} {tree other before after : FileTree}
  {here start location directory : Location} {node : Node} {path source : Path} {place : Place}
  {content old : ByteArray} {mode : FileMode} {front name : List Char}

/-- A path at which a file can be written. -/
def CanOpen (tree : FileTree) (here : Location) (path : Path) : Prop :=
  ∃ opened, openForWriting tree here path = .ok opened

def isWritable : Node → Bool
  | .file _ mode => mode.writable
  | .directory => false
  | .link _ => false

/-- A place where a file can be written. -/
def IsOpening : Place → Prop
  | .found _ node => isWritable node = true
  | .free _ _ asDirectory => asDirectory = false

theorem canOpen_iff :
    CanOpen tree here path ↔ ∃ place, resolve tree here path true = .ok place ∧
      IsOpening place := by
  constructor
  · rintro ⟨⟨location, old⟩, hopen⟩
    cases openForWriting_iff.mp hopen with
    | found hresolve hmode => exact ⟨_, hresolve, hmode⟩
    | free hresolve => exact ⟨_, hresolve, rfl⟩
  · rintro ⟨⟨location, ⟨content, mode⟩ | _ | _⟩ | ⟨directory, name, asDirectory⟩,
      hresolve, hopening⟩
    · exact ⟨_, openForWriting_iff.mpr (.found hresolve hopening)⟩
    · cases hopening
    · cases hopening
    · cases hopening
      exact ⟨_, openForWriting_iff.mpr (.free hresolve)⟩

theorem canOpen_iff_descend (hlinks : HasNoLinks tree) :
    CanOpen tree here path ↔ path.text ≠ "" ∧ '\x00' ∉ path.chars ∧
      ∃ place, descend tree true (startOf here path) (pieces '/' path.chars) = .arrived place ∧
        IsOpening place := by
  simp only [canOpen_iff, resolve_eq_ok_iff hlinks]
  constructor
  · rintro ⟨place, ⟨htext, hnul, hdescend⟩, hopening⟩
    exact ⟨htext, hnul, place, hdescend, hopening⟩
  · rintro ⟨htext, hnul, place, hdescend, hopening⟩
    exact ⟨place, ⟨htext, hnul, hdescend⟩, hopening⟩

theorem open_of_find (hfind : find tree here path = .ok (location, .file old mode))
    (hmode : mode.writable = true) :
      openForWriting tree here path = .ok (location, some (old, mode)) :=
  openForWriting_iff.mpr (.found (find_iff_resolve.mp hfind) hmode)

theorem write_of_find (hfind : find tree here path = .ok (location, .file old mode))
    (hmode : mode.writable = true) :
    write tree here path content = .ok (tree.put location (.file content mode)) := by
  rw [write, open_of_find hfind hmode]
  rfl

theorem copy_of_open {origin : Location} {before : Option (ByteArray × FileMode)}
    (hsource : find tree here source = .ok (origin, .file content mode))
    (hmode : mode.readable = true)
    (hopen : openForWriting tree here path = .ok (location, before)) :
    copy tree here source path =
      .ok (tree.put location (.file (if location = origin then .empty else content) mode)) := by
  rw [copy, hsource]
  change (if mode.readable = true then Except.bind (openForWriting tree here path) _ else _) = _
  rw [if_pos hmode, hopen]
  rfl

theorem canOpen_of_write {content : ByteArray} (h : write tree here path content = .ok after) :
    CanOpen tree here path := by
  obtain ⟨location, old, hopen, -⟩ := exists_of_written h
  exact ⟨_, hopen⟩

theorem exists_of_canOpen (h : CanOpen tree here path) (content : ByteArray) :
    ∃ after, write tree here path content = .ok after := by
  obtain ⟨opened, hopen⟩ := h
  exact ⟨_, by rw [write, hopen]; rfl⟩

theorem canOpen_of_copy (h : copy tree here source path = .ok after) : CanOpen tree here path := by
  obtain ⟨origin, content, mode, location, old, -, -, hopen, -⟩ := exists_of_copied h
  exact ⟨_, hopen⟩

theorem readable_of_copy {origin : Location} (hcopy : copy tree here source path = .ok after)
    (hsource : find tree here source = .ok (origin, .file content mode)) :
      mode.readable = true := by
  obtain ⟨origin, content, mode, location, old, hfind, hmode, -, -⟩ := exists_of_copied hcopy
  cases hfind.symm.trans hsource
  exact hmode

theorem exists_copy {origin : Location}
    (hsource : find tree here source = .ok (origin, .file content mode))
    (hmode : mode.readable = true) (h : CanOpen tree here path) :
    ∃ after, copy tree here source path = .ok after := by
  obtain ⟨⟨location, found⟩, hopen⟩ := h
  exact ⟨_, copy_of_open hsource hmode hopen⟩

/-- From one tree to another every file stays as it is that may not be written. -/
def Locks (before after : FileTree) : Prop :=
  ∀ location content mode, before.node? location = some (.file content mode) →
    mode.writable = false →
    after.node? location = some (.file content mode)

theorem Locks.refl (tree : FileTree) : Locks tree tree :=
  fun _ _ _ hnode _ => hnode

theorem Locks.trans (h : Locks tree before) (hrest : Locks before after) : Locks tree after :=
  fun location content mode hnode hmode =>
    hrest location content mode (h location content mode hnode hmode) hmode

theorem Locks.put (h : ∀ content mode, tree.node? location = some (.file content mode) →
    mode.writable = true)
    (hroot : location ≠ []) (node : Node) : Locks tree (tree.put location node) := by
  intro l content mode hnode hmode
  by_cases hl : l = location
  · subst hl
    rw [h content mode hnode] at hmode
    cases hmode
  · rwa [node?_put_of_ne _ hl]

theorem exists_directory {front : List (List Char)} {piece : List Char}
    (h : descend tree true start (front ++ [piece]) = .arrived place) (hopening : IsOpening place) :
    ∃ directory, descend tree true start front = .arrived (.found directory .directory) := by
  induction front generalizing start with
  | nil => exact ⟨start, rfl⟩
  | cons first rest ih =>
      rw [List.cons_append] at h
      rcases piece_cases first with hidle | rfl | hname
      · rw [descend_idle _ hidle] at h ⊢
        exact ih h
      · rw [descend_parent] at h ⊢
        exact ih h
      · rw [descend_name _ hname] at h ⊢
        split at h
        · cases h
        · rename_i hshort
          rw [if_neg hshort]
          split at h
          · split at h
            · cases h
              simp [IsOpening] at hopening
            · cases h
          · exact ih h
          · split at h
            · rename_i hlast
              simp at hlast
            · cases h
          · split at h
            · rename_i hlast
              simp at hlast
            · cases h

section

variable (hkept : ∀ l, before.node? l = some .directory → after.node? l = some .directory)
  (hlocks : Locks before after) (hlinks : HasNoLinks before)
include hkept hlocks hlinks

theorem opening_in_directory {piece : List Char}
    (h : descend after true directory [piece] = .arrived place) (hopening : IsOpening place) :
    ∃ place, descend before true directory [piece] = .arrived place ∧ IsOpening place := by
  rcases piece_cases piece with hidle | rfl | hname
  · rw [descend_idle _ hidle, descend] at h
    cases h
    cases hopening
  · rw [descend_parent, descend] at h
    cases h
    cases hopening
  · rw [descend_name _ hname] at h ⊢
    by_cases hlong : nameLimit < (String.ofList piece).utf8ByteSize
    · rw [if_pos hlong] at h
      cases h
    · rw [if_neg hlong] at h ⊢
      cases hnode : before.node? (String.ofList piece :: directory) with
      | none => exact ⟨_, rfl, rfl⟩
      | some node =>
          cases node with
          | file content mode =>
              refine ⟨_, rfl, ?_⟩
              cases hmode : mode.writable with
              | true => exact hmode
              | false =>
                  rw [hlocks _ _ _ hnode hmode] at h
                  cases h
                  exact hopening
          | directory =>
              rw [hkept _ hnode, descend] at h
              cases h
              cases hopening
          | link target => exact absurd hnode (hlinks _ _)

theorem opening_of_descend (hway : ∀ l, after.node? l = some .directory →
    before.node? l = some .directory)
    (hafter : HasNoLinks after) {path : List (List Char)}
    (h : descend after true start path = .arrived place)
    (hopening : IsOpening place) :
    ∃ place, descend before true start path = .arrived place ∧ IsOpening place := by
  induction path generalizing start with
  | nil =>
      rw [descend] at h
      cases h
      cases hopening
  | cons piece rest ih =>
      by_cases hrest : rest = []
      · subst hrest
        exact opening_in_directory hkept hlocks hlinks h hopening
      · rcases piece_cases piece with hidle | rfl | hname
        · rw [descend_idle _ hidle] at h ⊢
          exact ih h
        · rw [descend_parent] at h ⊢
          exact ih h
        · rw [descend_name _ hname] at h ⊢
          split at h
          · cases h
          · rename_i hshort
            rw [if_neg hshort]
            split at h
            · split at h
              · cases h
                simp [IsOpening, hrest] at hopening
              · cases h
            · rename_i hdirectory
              rw [hway _ hdirectory]
              exact ih h
            · rename_i hlink
              exact absurd hlink (hafter _ _)
            · split at h
              · rename_i hlast
                exact absurd (List.isEmpty_iff.mp hlast) hrest
              · cases h

end

/-- Where a path leads through a directory, a file can be written beside it if one can be later on.
-/
theorem canOpen_beside {new : List Char} {other : Path} (hgrows : Grows changing here before after)
    (hlocks : Locks before after) (hbefore : HasNoLinks before) (hpath : Ends path front name)
    (hother : Ends other front new)
    (hdirectory : descend before true (startOf here path) (above front) =
      .arrived (.found directory .directory))
    (h : CanOpen after here other) : CanOpen before here other := by
  have hstart : startOf here other = startOf here path := by
    rw [startOf_of_ends hpath, startOf_of_ends hother]
  have hlater : descend after true (startOf here path) (above front) =
      .arrived (.found directory .directory) :=
    descend_of_kept (fun _ => hgrows.node?_directory) (fun hnode => absurd rfl hnode) hdirectory
  obtain ⟨htext, hnul, place, hdescend, hopening⟩ := (canOpen_iff_descend hgrows.plain.noLinks).mp h
  rw [hother.pieces, hstart, descend_append [] [new] (by simp) (by simpa using hlater)] at hdescend
  obtain ⟨place, hdescend, hopening⟩ :=
    opening_in_directory (fun _ => hgrows.node?_directory) hlocks hbefore hdescend hopening
  refine (canOpen_iff_descend hbefore).mpr ⟨htext, hnul, place, ?_, hopening⟩
  rw [hother.pieces, hstart, descend_append [] [new] (by simp) (by simpa using hdirectory)]
  exact hdescend

/-- Trees with the same directories that hold the same except at some places. -/
structure Agrees (apart : Location → Bool) (tree other : FileTree) : Prop where
  nodes : ∀ location, apart location = false → other.node? location = tree.node? location
  directories : ∀ location, other.node? location = some .directory ↔
    tree.node? location = some .directory

theorem Agrees.refl (apart : Location → Bool) (tree : FileTree) : Agrees apart tree tree :=
  ⟨fun _ _ => rfl, fun _ => Iff.rfl⟩

theorem Agrees.symm (h : Agrees apart tree other) : Agrees apart other tree :=
  ⟨fun location hfixed => (h.nodes location hfixed).symm, fun location =>
    (h.directories location).symm⟩

theorem locks_of_same (h : Agrees (fun _ => false) tree other) : Locks tree other :=
  fun location _ _ hnode _ => (h.nodes location rfl).trans hnode

section

variable (h : Agrees apart tree other) (hlinks : HasNoLinks tree) (hother : HasNoLinks other)
include h hlinks hother

theorem Agrees.find (hfixed : node ≠ .directory → apart location = false)
    (hfind : find tree here path = .ok (location, node)) :
      find other here path = .ok (location, node) := by
  rw [find_eq_ok_iff hlinks] at hfind
  rw [find_eq_ok_iff hother]
  obtain ⟨htext, hnul, hdescend⟩ := hfind
  refine ⟨htext, hnul, descend_of_kept (fun l => (h.directories l).mpr)
    (fun hnode hfound => ?_) hdescend⟩
  rw [h.nodes _ (hfixed hnode), hfound]

theorem Agrees.canOpen (hlocks : Locks other tree) (hopen : CanOpen tree here path) :
    CanOpen other here path := by
  obtain ⟨htext, hnul, place, hdescend, hopening⟩ := (canOpen_iff_descend hlinks).mp hopen
  exact (canOpen_iff_descend hother).mpr
    ⟨htext, hnul, opening_of_descend (fun l => (h.directories l).mp)
    hlocks hother (fun l => (h.directories l).mpr) hlinks hdescend hopening⟩

end

theorem Agrees.trans {last : FileTree} (h : Agrees apart tree other)
    (hlast : Agrees (fun _ => false) other last) :
    Agrees apart tree last :=
  ⟨fun location hfixed => (hlast.nodes location rfl).trans (h.nodes location hfixed),
    fun location => (hlast.directories location).trans (h.directories location)⟩

theorem Agrees.put {apart' : Location → Bool} (h : Agrees apart tree other)
    (hlocation : location ≠ [])
    (hapart : ∀ l, l ≠ location → apart l = true → apart' l = true) (node : Node) :
    Agrees apart' (tree.put location node) (other.put location node) where
  nodes := by
    intro l hfixed
    by_cases hl : l = location
    · subst hl
      rw [node?_put _ hlocation, node?_put _ hlocation]
    · rw [node?_put_of_ne _ hl, node?_put_of_ne _ hl]
      refine h.nodes l (Bool.eq_false_iff.mpr fun hap => ?_)
      rw [hapart l hl hap] at hfixed
      cases hfixed
  directories := by
    intro l
    by_cases hl : l = location
    · subst hl
      rw [node?_put _ hlocation, node?_put _ hlocation]
    · rw [node?_put_of_ne _ hl, node?_put_of_ne _ hl]
      exact h.directories l

/-- Writing into the other tree what is in the first one keeps them in agreement. -/
theorem Agrees.put_file (h : Agrees apart tree other) (hlocation : location ≠ []) {now : ByteArray}
    {mode' : FileMode} (hnode : tree.node? location = some (.file old mode))
    (hsame : apart location = false → now = old ∧ mode' = mode) :
    Agrees apart tree (other.put location (.file now mode')) where
  nodes := by
    intro l hfixed
    by_cases hl : l = location
    · subst hl
      obtain ⟨rfl, rfl⟩ := hsame hfixed
      rw [node?_put _ hlocation, hnode]
    · rw [node?_put_of_ne _ hl]
      exact h.nodes l hfixed
  directories := by
    intro l
    by_cases hl : l = location
    · subst hl
      rw [node?_put _ hlocation, hnode]
      simp
    · rw [node?_put_of_ne _ hl]
      exact h.directories l

theorem makeDirectories_again (h : IsPlain tree here)
    (hmade : makeDirectories tree here path = (none, before))
    (hgrows : Grows changing here before after) :
      makeDirectories after here path = (none, after) := by
  by_cases htext : path.text = ""
  · rw [makeDirectories]
    unfold makeDirectoriesUpTo
    rw [if_pos (by simpa using htext)]
  · have hbefore : Grows (fun _ => false) here tree before := by
      have hgrows := grows_makeDirectories (fun _ => false) h path
      rwa [hmade] at hgrows
    have hfind :=
      find_directory_of_grows hgrows hbefore.plain (find_of_makeDirectories h htext hmade)
    exact makeDirectories_of_find hfind hgrows.plain.noLinks

end Cythonizer.Proofs.FileTree.Agreement
