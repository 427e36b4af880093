import Cythonizer.FileTree.Access
import Cythonizer.Proofs.Path.Names

namespace Cythonizer.Proofs.FileTree.Frames

open Cythonizer.FileTree.Access
open Cythonizer.FileTree.Basic
open Cythonizer.FileTree.Resolution
open Cythonizer.Path.Basic
open Cythonizer.Text.Pieces
open Cythonizer.Proofs.Path.Names

variable {tree before after : FileTree} {followLast : Bool} {here location : Location} {node : Node}

def HasNoLinks (tree : FileTree) : Prop :=
  ∀ location target, tree.node? location ≠ some (.link target)

theorem hasNoLinks_of_entries (h : ∀ e ∈ tree.entries, ∀ target, e.2 ≠ .link target) :
    HasNoLinks tree := by
  intro location target hnode
  unfold FileTree.node? at hnode
  split at hnode
  · cases hnode
  · rw [Option.map_eq_some_iff] at hnode
    obtain ⟨e, hfind, htarget⟩ := hnode
    exact h e (List.mem_of_find?_eq_some hfind) target htarget

section

variable {piece : List Char} (rest : List (List Char))

theorem descend_idle (h : isIdle piece = true) :
    descend tree followLast here (piece :: rest) = descend tree followLast here rest := by
  rw [descend, if_pos h]

theorem descend_parent :
    descend tree followLast here (['.', '.'] :: rest) = descend tree followLast here.tail rest := by
  rw [descend, if_neg (by decide), if_pos rfl]

theorem descend_name (h : IsProper piece) :
    descend tree followLast here (piece :: rest) =
      if nameLimit < (String.ofList piece).utf8ByteSize then .failed .nameTooLong
      else
        match tree.node? (String.ofList piece :: here) with
        | none =>
          if rest.all List.isEmpty then .arrived (.free here (String.ofList piece) !rest.isEmpty)
          else .failed .noEntry
        | some .directory => descend tree followLast (String.ofList piece :: here) rest
        | some (.link target) =>
          if rest.isEmpty && !followLast then
            .arrived (.found (String.ofList piece :: here) (.link target))
          else .link here target rest
        | some node =>
          if rest.isEmpty then .arrived (.found (String.ofList piece :: here) node)
          else .failed .notDirectory := by
  rw [descend]
  exact (if_neg (by simp [isIdle_eq_false h])).trans (if_neg h.notParent)

end

theorem descend_all_idle {pieces : List (List Char)} (h : ∀ piece ∈ pieces, isIdle piece = true) :
    descend tree followLast here pieces = .arrived (.found here .directory) := by
  induction pieces with
  | nil => rw [descend]
  | cons piece rest ih =>
      rw [descend_idle rest (h piece List.mem_cons_self)]
      exact ih fun other hother => h other (List.mem_cons_of_mem piece hother)

theorem piece_cases (piece : List Char) :
    isIdle piece = true ∨ piece = ['.', '.'] ∨ IsProper piece := by
  by_cases hidle : isIdle piece = true
  · exact .inl hidle
  · by_cases hparent : piece = ['.', '.']
    · exact .inr (.inl hparent)
    · simp only [isIdle, Bool.or_eq_true, List.isEmpty_iff, beq_iff_eq, not_or] at hidle
      exact .inr (.inr ⟨hidle.1, hidle.2, hparent⟩)

theorem descend_append {follow : Bool} {front : List (List Char)} (idle back : List (List Char))
    (hidle : ∀ piece ∈ idle, isIdle piece = true)
    (h : descend tree followLast here (front ++ idle) = .arrived (.found location .directory)) :
    descend tree follow here (front ++ back) = descend tree follow location back := by
  induction front generalizing here with
  | nil =>
      rw [List.nil_append, descend_all_idle hidle] at h
      cases h
      rfl
  | cons piece rest ih =>
      rw [List.cons_append] at h ⊢
      rcases piece_cases piece with hidle | rfl | hname
      · rw [descend_idle _ hidle] at h ⊢
        exact ih h
      · rw [descend_parent] at h ⊢
        exact ih h
      · rw [descend_name _ hname] at h ⊢
        split at h
        · cases h
        · rename_i hshort
          rw [if_neg hshort]
          split at h
          · split at h <;> cases h
          · rename_i hdirectory
            exact ih h
          · split at h <;> cases h
          · rename_i other hother hlink hfound
            split at h
            · cases h
              exact absurd rfl hother
            · cases h

/-- A link that a way comes to is come to as well if the way goes on differently behind it. -/
theorem descend_append_of_link {directory : Location} {target : Path}
    {front rest : List (List Char)}
    (idle : List (List Char)) (hidle : ∀ piece ∈ idle, isIdle piece = true)
    (h : descend tree followLast here (front ++ idle) = .link directory target rest) :
    ∃ more, rest = more ++ idle ∧ ∀ (follow : Bool) (back : List (List Char)), back ≠ [] →
      descend tree follow here (front ++ back) = .link directory target (more ++ back) := by
  induction front generalizing here with
  | nil =>
      rw [List.nil_append, descend_all_idle hidle] at h
      cases h
  | cons piece front ih =>
      simp only [List.cons_append] at h ⊢
      rcases piece_cases piece with hpiece | rfl | hname
      · simp only [descend_idle _ hpiece] at h ⊢
        exact ih h
      · simp only [descend_parent] at h ⊢
        exact ih h
      · simp only [descend_name _ hname] at h ⊢
        split at h
        · cases h
        · rename_i hshort
          split at h
          · split at h <;> cases h
          · rename_i hdirectory
            obtain ⟨more, hrest, hback⟩ := ih h
            refine ⟨more, hrest, fun follow back hfilled => ?_⟩
            rw [if_neg hshort]
            exact hback follow back hfilled
          · rename_i hlink
            split at h
            · cases h
            · cases h
              refine ⟨front, rfl, fun follow back hfilled => ?_⟩
              rw [if_neg hshort, if_neg (by simp [hfilled])]
          · split at h <;> cases h

/-- A way that leads to a directory can be gone on from there. -/
theorem travel_append {links : Nat} {front : List (List Char)} (idle : List (List Char))
    (hidle : ∀ piece ∈ idle, isIdle piece = true)
    (h : travel tree followLast links here (front ++ idle) = .ok (.found location .directory)) :
    ∃ left, ∀ (follow : Bool) (back : List (List Char)), back ≠ [] →
      travel tree follow links here (front ++ back) = travel tree follow left location back := by
  induction links generalizing here front with
  | zero =>
      unfold travel at h
      split at h
      · rename_i hdescend
        cases h
        refine ⟨0, fun follow back _ => ?_⟩
        rw [travel, travel, descend_append idle back hidle hdescend]
      · cases h
      · cases h
  | succ links ih =>
      unfold travel at h
      split at h
      · rename_i hdescend
        cases h
        refine ⟨links + 1, fun follow back _ => ?_⟩
        rw [travel, travel, descend_append idle back hidle hdescend]
      · cases h
      · rename_i hdescend
        obtain ⟨more, rfl, hback⟩ := descend_append_of_link idle hidle hdescend
        dsimp only at h
        rw [← List.append_assoc] at h
        obtain ⟨left, hleft⟩ := ih h
        refine ⟨left, fun follow back hfilled => ?_⟩
        rw [travel, hback follow back hfilled]
        dsimp only
        rw [← List.append_assoc, hleft follow back hfilled]

theorem descend_of_kept {path : List (List Char)}
    (hdirectories : ∀ l, before.node? l = some .directory → after.node? l = some .directory)
    (hnode : node ≠ .directory → before.node? location = some node →
      after.node? location = some node)
    (h : descend before followLast here path = .arrived (.found location node)) :
    descend after followLast here path = .arrived (.found location node) := by
  induction path generalizing here with
  | nil => exact h
  | cons piece rest ih =>
      rcases piece_cases piece with hidle | rfl | hname
      · rw [descend_idle _ hidle] at h ⊢
        exact ih h
      · rw [descend_parent] at h ⊢
        exact ih h
      · rw [descend_name _ hname] at h ⊢
        split at h
        · cases h
        · rename_i hshort
          rw [if_neg hshort]
          split at h
          · split at h <;> cases h
          · rename_i hdirectory
            rw [hdirectories _ hdirectory]
            exact ih h
          · rename_i target hlink
            split at h
            · rename_i hlast
              cases h
              rw [hnode (by simp) hlink]
              exact if_pos hlast
            · cases h
          · rename_i other hother hlink hfound
            split at h
            · rename_i hlast
              cases h
              rw [hnode hother hfound]
              simp [hlast]
            · cases h

/-- What leads to a file is a way to a directory and the name of the file in it. -/
theorem descend_file {front : List (List Char)} {piece : List Char} {content : ByteArray}
    {mode : FileMode} (h : descend tree followLast here (front ++ [piece]) =
      .arrived (.found location (.file content mode))) :
    ∃ directory, location = String.ofList piece :: directory ∧ IsProper piece ∧
      descend tree followLast here front = .arrived (.found directory .directory) ∧
      tree.node? location = some (.file content mode) := by
  induction front generalizing here with
  | nil =>
      rw [List.nil_append] at h
      rcases piece_cases piece with hidle | rfl | hname
      · rw [descend_idle _ hidle, descend] at h
        cases h
      · rw [descend_parent, descend] at h
        cases h
      · rw [descend_name _ hname] at h
        split at h
        · cases h
        · split at h
          · split at h <;> cases h
          · rw [descend] at h
            cases h
          · split at h <;> cases h
          · rename_i hfound
            split at h
            · cases h
              exact ⟨here, rfl, hname, by rw [descend], hfound⟩
            · cases h
  | cons first rest ih =>
      rw [List.cons_append] at h
      rcases piece_cases first with hidle | rfl | hname
      · rw [descend_idle _ hidle] at h ⊢
        exact ih h
      · rw [descend_parent] at h ⊢
        exact ih h
      · rw [descend_name _ hname] at h ⊢
        split at h
        · cases h
        · rename_i hshort
          rw [if_neg hshort]
          split at h
          · split at h <;> cases h
          · exact ih h
          · split at h <;> cases h
          · split at h
            · rename_i hempty
              simp at hempty
            · cases h

theorem descend_free {piece : List Char} {directory : Location} {name : String} {asDirectory : Bool}
    (h : descend tree followLast here [piece] = .arrived (.free directory name asDirectory)) :
    directory = here ∧ name = String.ofList piece ∧ IsProper piece ∧
      tree.node? (name :: directory) = none := by
  rcases piece_cases piece with hidle | rfl | hname
  · rw [descend_idle _ hidle, descend] at h
    cases h
  · rw [descend_parent, descend] at h
    cases h
  · rw [descend_name _ hname] at h
    split at h
    · cases h
    · split at h
      · rename_i hnone
        split at h
        · cases h
          exact ⟨rfl, rfl, hname, hnone⟩
        · cases h
      · rw [descend] at h
        cases h
      · split at h <;> cases h
      · split at h <;> cases h

theorem resolve_iff_travel {path : Path} {place : Place} :
    resolve tree here path followLast = .ok place ↔
      path.text ≠ "" ∧ '\x00' ∉ path.chars ∧
        travel tree followLast linkLimit (startOf here path)
          (pieces '/' path.chars) = .ok place := by
  unfold resolve
  by_cases htext : path.text = ""
  · simp [htext]
  · by_cases hnul : '\x00' ∈ path.chars
    · simp [htext, hnul]
    · rw [if_neg (by simpa using htext), if_neg (by simpa using hnul)]
      simp [htext, hnul]

theorem find_iff_resolve {path : Path} :
    find tree here path = .ok (location, node) ↔ resolve tree here path true =
      .ok (.found location node) := by
  unfold find
  split
  · rename_i hresolve
    simp [hresolve]
  · rename_i hresolve
    simp [hresolve]
  · rename_i hresolve
    simp [hresolve]

theorem descend_follow {way : List (List Char)} {descent : Descent}
    (hdescend : descend tree followLast here way = descent)
    (h : ∀ location target, descent ≠ .arrived (.found location (.link target))) :
    descend tree true here way = descent := by
  subst hdescend
  induction way generalizing here with
  | nil => rfl
  | cons piece rest ih =>
      rcases piece_cases piece with hidle | rfl | hname
      · rw [descend_idle _ hidle] at h ⊢
        rw [ih h, descend_idle _ hidle]
      · rw [descend_parent] at h ⊢
        rw [ih h, descend_parent]
      · rw [descend_name _ hname] at h ⊢
        rw [descend_name _ hname]
        split
        · rfl
        · rename_i hshort
          rw [if_neg hshort] at h
          split
          · rfl
          · rename_i hdirectory
            rw [hdirectory] at h
            exact ih h
          · rename_i target hlink
            rw [hlink] at h
            dsimp only at h
            rw [if_neg (by simp), if_neg]
            intro hlast
            rw [if_pos hlast] at h
            exact h _ _ rfl
          · rfl

theorem travel_follow {links : Nat} {way : List (List Char)} {place : Place}
    (htravel : travel tree followLast links here way = .ok place)
    (hplace : ∀ location target, place ≠ .found location (.link target)) :
    travel tree true links here way = .ok place := by
  induction links, here, way using travel.induct tree followLast with
  | case1 links start way found hdescend =>
      rw [travel, hdescend] at htravel
      cases htravel
      rw [travel, descend_follow hdescend (by simpa using hplace)]
  | case2 links start way error hdescend =>
      rw [travel, hdescend] at htravel
      cases htravel
  | case3 start way directory target rest hdescend =>
      rw [travel, hdescend] at htravel
      cases htravel
  | case4 start way directory target rest hdescend links ih =>
      rw [travel, hdescend] at htravel
      rw [travel, descend_follow hdescend (by simp)]
      exact ih htravel

theorem resolve_follow {path : Path} {place : Place}
    (hresolve : resolve tree here path followLast = .ok place)
    (hplace : ∀ location target, place ≠ .found location (.link target)) :
    resolve tree here path true = .ok place := by
  obtain ⟨htext, hnul, htravel⟩ := resolve_iff_travel.mp hresolve
  exact resolve_iff_travel.mpr ⟨htext, hnul, travel_follow htravel hplace⟩

section

variable (hlinks : HasNoLinks tree)
include hlinks

theorem descend_ne_link (path : List (List Char)) (directory : Location) (target : Path)
    (rest : List (List Char)) : descend tree followLast here path ≠
      .link directory target rest := by
  induction path generalizing here with
  | nil => simp [descend]
  | cons piece path ih =>
      rcases piece_cases piece with hidle | rfl | hname
      · rw [descend_idle _ hidle]
        exact ih
      · rw [descend_parent]
        exact ih
      · rw [descend_name _ hname]
        split
        · simp
        · split
          · split <;> simp
          · exact ih
          · rename_i hlink
            exact absurd hlink (hlinks _ _)
          · split <;> simp

theorem descend_followLast (a b : Bool) (path : List (List Char)) :
    descend tree a here path = descend tree b here path := by
  induction path generalizing here with
  | nil => rfl
  | cons piece path ih =>
      rcases piece_cases piece with hidle | rfl | hname
      · rw [descend_idle _ hidle, descend_idle _ hidle]
        exact ih
      · rw [descend_parent, descend_parent]
        exact ih
      · rw [descend_name _ hname, descend_name _ hname]
        split
        · rfl
        · split
          · rfl
          · exact ih
          · rename_i hlink
            exact absurd hlink (hlinks _ _)
          · rfl

theorem resolve_eq_ok_iff {path : Path} {place : Place} :
    resolve tree here path followLast = .ok place ↔
      path.text ≠ "" ∧ '\x00' ∉ path.chars ∧
        descend tree true (startOf here path) (pieces '/' path.chars) = .arrived place := by
  rw [resolve_iff_travel, linkLimit, travel, descend_followLast hlinks followLast true]
  cases h : descend tree true (startOf here path) (pieces '/' path.chars) with
  | arrived found => simp
  | failed error => simp
  | link directory target rest => exact absurd h (descend_ne_link hlinks _ _ _ _)

theorem find_eq_ok_iff {path : Path} :
    find tree here path = .ok (location, node) ↔
      path.text ≠ "" ∧ '\x00' ∉ path.chars ∧
        descend tree true (startOf here path) (pieces '/' path.chars) =
          .arrived (.found location node) := by
  rw [find_iff_resolve, resolve_eq_ok_iff hlinks]

end

/-- Whether an entry has none of the names that may change. -/
def isStable (changing : String → Bool) : Location × Node → Bool
  | (name :: _, _) => !changing name
  | ([], _) => true

/-- A change of files under some names, which leaves all directories and makes no links. -/
structure Kept (changing : String → Bool) (before after : FileTree) : Prop where
  directories : ∀ l, before.node? l = some .directory → after.node? l = some .directory
  others : after.entries.filter (isStable changing) = before.entries.filter (isStable changing)
  noLinks : HasNoLinks after

section

variable {changing : String → Bool} {name : String}

theorem Kept.refl (hlinks : HasNoLinks tree) : Kept changing tree tree :=
  { directories := fun _ h => h
    others := rfl
    noLinks := hlinks }

theorem Kept.node? (h : Kept changing before after) (hname : changing name = false) :
    after.node? (name :: location) = before.node? (name :: location) := by
  have hstable : ∀ entries : List (Location × Node),
      entries.find? (fun e => decide (e.1 = name :: location)) =
        (entries.filter (isStable changing)).find? fun e => decide (e.1 = name :: location) := by
    intro entries
    rw [List.find?_filter]
    congr 1
    funext e
    by_cases he : e.1 = name :: location
    · obtain ⟨l, n⟩ := e
      cases he
      simp [isStable, hname]
    · simp [he]
  unfold FileTree.node?
  rw [hstable, h.others, ← hstable]

theorem filter_putEntry (hname : changing name = true) (node : Node)
    (entries : List (Location × Node)) :
    (putEntry (name :: location) node entries).filter (isStable changing) =
      entries.filter (isStable changing) := by
  have hnone : ∀ n, isStable changing (name :: location, n) = false := by simp [isStable, hname]
  induction entries with
  | nil => simp [putEntry, hnone]
  | cons e rest ih =>
      obtain ⟨l, n⟩ := e
      by_cases he : l = name :: location
      · subst he
        simp [putEntry, hnone]
      · simp [putEntry, he, List.filter_cons, ih]

theorem Kept.put {content : ByteArray} {mode : FileMode} (h : Kept changing before after)
    (hname : changing name = true) (hfree : after.node? (name :: location) ≠ some .directory) :
    Kept changing before (after.put (name :: location) (.file content mode)) where
  directories := by
    intro l hl
    have hne : l ≠ name :: location := by
      rintro rfl
      exact hfree (h.directories _ hl)
    rw [node?_put_of_ne _ hne]
    exact h.directories l hl
  others := by rw [FileTree.put, filter_putEntry hname, h.others]
  noLinks := by
    intro l target hl
    by_cases hne : l = name :: location
    · subst hne
      rw [node?_put _ (by simp)] at hl
      cases hl
    · rw [node?_put_of_ne _ hne] at hl
      exact h.noLinks l target hl

theorem find_of_kept {path : Path} (hlinks : HasNoLinks before) (h : Kept changing before after)
    (hname : changing name = false) (hfind : find before here path = .ok (name :: location, node)) :
    find after here path = .ok (name :: location, node) := by
  rw [find_eq_ok_iff hlinks] at hfind
  rw [find_eq_ok_iff h.noLinks]
  obtain ⟨htext, hnul, hdescend⟩ := hfind
  refine ⟨htext, hnul, descend_of_kept h.directories ?_ hdescend⟩
  intro _ hnode
  rw [h.node? hname]
  exact hnode

end

theorem startOf_of_ends {path : Path} {front name : List Char} (h : Ends path front name) :
    startOf here path = if front.head? = some '/' then [] else here := by
  unfold startOf Path.isAbsolute
  rw [h.chars]
  cases front with
  | nil =>
      cases name with
      | nil => rfl
      | cons c rest =>
          have hc : c ≠ '/' := by
            rintro rfl
            exact h.noSlash List.mem_cons_self
          simp [hc]
  | cons c rest => simp

/-- What is opened for writing is a file that may be written, or a free name in a directory. -/
inductive OpensAt (tree : FileTree) (here : Location) (path : Path) :
    Location → Option (ByteArray × FileMode) → Prop
  | found {location : Location} {content : ByteArray} {mode : FileMode}
      (hresolve : resolve tree here path true = .ok (.found location (.file content mode)))
      (hmode : mode.writable = true) : OpensAt tree here path location (some (content, mode))
  | free {directory : Location} {name : String}
      (hresolve : resolve tree here path true = .ok (.free directory name false)) :
      OpensAt tree here path (name :: directory) none

theorem openForWriting_iff {path : Path} {old : Option (ByteArray × FileMode)} :
    openForWriting tree here path = .ok (location, old) ↔ OpensAt tree here path location old := by
  constructor
  · intro hopen
    unfold openForWriting at hopen
    split at hopen
    · rename_i hresolve
      split at hopen
      · rename_i hmode
        cases hopen
        exact .found hresolve hmode
      · cases hopen
    · cases hopen
    · rename_i asDirectory hresolve
      split at hopen
      · cases hopen
      · rename_i hfile
        cases hopen
        rw [Bool.not_eq_true] at hfile
        subst hfile
        exact .free hresolve
    · cases hopen
  · rintro (⟨hresolve, hmode⟩ | ⟨hresolve⟩)
    · rw [openForWriting, hresolve]
      exact if_pos hmode
    · rw [openForWriting, hresolve]
      rfl

theorem exists_of_written {path : Path} {content : ByteArray}
    (hwrite : write tree here path content = .ok after) :
    ∃ location old, openForWriting tree here path = .ok (location, old) ∧
      after = tree.put location (.file content ((old.map Prod.snd).getD {})) := by
  unfold write at hwrite
  cases hopen : openForWriting tree here path with
  | error error =>
      rw [hopen] at hwrite
      cases hwrite
  | ok opened =>
      rw [hopen] at hwrite
      cases hwrite
      exact ⟨_, _, rfl, rfl⟩

/-- What a copy does: it reads a file, which may be read, opens the file of its path and fills it.
-/
theorem exists_of_copied {source path : Path} (hcopy : copy tree here source path = .ok after) :
    ∃ origin content mode location old, find tree here source = .ok (origin, .file content mode) ∧
      mode.readable = true ∧ openForWriting tree here path = .ok (location, old) ∧
      after = tree.put location (.file (if location = origin then .empty else content) mode) := by
  unfold copy at hcopy
  rcases hfind : find tree here source with error | ⟨origin, ⟨content, mode⟩ | _ | _⟩
  all_goals rw [hfind] at hcopy
  · cases hcopy
  · change (if mode.readable = true then Except.bind (openForWriting tree here path) _ else _) =
      _ at hcopy
    split at hcopy
    · rename_i hmode
      cases hopen : openForWriting tree here path with
      | error error =>
          rw [hopen] at hcopy
          cases hcopy
      | ok opened =>
          rw [hopen] at hcopy
          cases hcopy
          exact ⟨_, _, _, _, _, rfl, hmode, rfl, rfl⟩
    · cases hcopy
  · cases hcopy
  · cases hcopy

/-- A file that is opened beside another one is in the directory of that one. -/
theorem openForWriting_beside {path other : Path} {front name new : List Char} {content : ByteArray}
    {mode : FileMode} {place : Location} {old : Option (ByteArray × FileMode)}
    (hlinks : HasNoLinks tree) (hpath : Ends path front name) (hother : Ends other front new)
    (hfind : find tree here path = .ok (location, .file content mode))
    (hopen : openForWriting tree here other = .ok (place, old)) :
    place = String.ofList new :: location.tail ∧ IsProper new ∧
      tree.node? place ≠ some .directory := by
  rw [find_eq_ok_iff hlinks, hpath.pieces, startOf_of_ends hpath] at hfind
  obtain ⟨directory, rfl, -, hdirectory, -⟩ := descend_file hfind.2.2
  have hresolve : ∀ {found}, resolve tree here other true = .ok found →
      descend tree true directory [new] = .arrived found := by
    intro found h
    rw [resolve_eq_ok_iff hlinks, hother.pieces, startOf_of_ends hother,
      descend_append [] [new] (by simp) (by simpa using hdirectory)] at h
    exact h.2.2
  cases openForWriting_iff.mp hopen with
  | found hfound hmode =>
      obtain ⟨above, rfl, hproper, habove, hnode⟩ :=
        @descend_file _ _ _ _ [] _ _ _ (hresolve hfound)
      rw [descend] at habove
      cases habove
      simp [hnode, hproper]
  | free hfree =>
      obtain ⟨rfl, rfl, hproper, hnode⟩ := descend_free (hresolve hfree)
      simp [hnode, hproper]

end Cythonizer.Proofs.FileTree.Frames
