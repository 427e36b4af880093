import Cythonizer.Proofs.FileTree.Destinations

/-!
How a tree of files grows. Nothing is ever removed: a change makes a directory at a free place or
puts a file where no directory is (`Grows`). A file is only written at the destination of its path
(`grows_of_write`), and directories are made without changing any file (`grows_makeDirectories`).
-/

namespace Cythonizer.Proofs.FileTree.Growth

open Cythonizer.FileTree.Access
open Cythonizer.FileTree.Basic
open Cythonizer.FileTree.Resolution
open Cythonizer.Path.Basic
open Cythonizer.Proofs.FileTree.Destinations
open Cythonizer.Proofs.FileTree.Frames
open Cythonizer.Proofs.Path.Relative
open Cythonizer.Proofs.Project.Walk

variable {tree before between after : FileTree} {followLast : Bool}
    {here location directory : Location}
  {node : Node} {path : Path} {name : String} {content : ByteArray} {mode : FileMode}

/-- A well-formed tree without links that the current directory is in. -/
structure IsPlain (tree : FileTree) (here : Location) : Prop where
  wellFormed : WellFormed tree
  noLinks : HasNoLinks tree
  here : tree.node? here = some .directory

theorem IsPlain.node?_tail (h : IsPlain tree here) (hnode : tree.node? location = some node) :
    tree.node? location.tail = some .directory := by
  cases location with
  | nil => rfl
  | cons name directory => exact (h.wellFormed.parent hnode).2

theorem IsPlain.node?_of_suffix (h : IsPlain tree here)
    (hnode : tree.node? location = some .directory)
    {base : Location} (hsuffix : base <:+ location) : tree.node? base = some .directory := by
  obtain ⟨below, rfl⟩ := hsuffix
  induction below with
  | nil => exact hnode
  | cons name below ih => exact ih (h.node?_tail hnode)

theorem IsPlain.node?_startOf (h : IsPlain tree here) (path : Path) :
    tree.node? (startOf here path) = some .directory := by
  unfold startOf
  split
  · rfl
  · exact h.here

/-- A place for something in a directory. -/
structure IsPlace (tree : FileTree) (name : String) (directory : Location) : Prop where
  isName : IsName name
  directory : tree.node? directory = some .directory

theorem IsPlain.isPlace (h : IsPlain tree here)
    (hnode : tree.node? (name :: directory) = some node) :
    IsPlace tree name directory :=
  ⟨(h.wellFormed.parent hnode).1, (h.wellFormed.parent hnode).2⟩

theorem IsPlain.node?_of_descend (h : IsPlain tree here) {start : Location}
    {path : List (List Char)}
    (hstart : tree.node? start = some .directory)
    (hdescend : descend tree followLast start path = .arrived (.found location node)) :
    tree.node? location = some node := by
  induction path generalizing start with
  | nil =>
      rw [descend] at hdescend
      cases hdescend
      exact hstart
  | cons piece rest ih =>
      rcases piece_cases piece with hidle | rfl | hname
      · rw [descend_idle _ hidle] at hdescend
        exact ih hstart hdescend
      · rw [descend_parent] at hdescend
        exact ih (h.node?_tail hstart) hdescend
      · rw [descend_name _ hname] at hdescend
        split at hdescend
        · cases hdescend
        · split at hdescend
          · split at hdescend <;> cases hdescend
          · rename_i hdirectory
            exact ih hdirectory hdescend
          · rename_i hlink
            exact absurd hlink (h.noLinks _ _)
          · rename_i hfound
            split at hdescend
            · cases hdescend
              exact hfound
            · cases hdescend

theorem IsPlain.node?_of_find (h : IsPlain tree here)
    (hfind : find tree here path = .ok (location, node)) :
    tree.node? location = some node :=
  h.node?_of_descend (h.node?_startOf path) ((find_eq_ok_iff h.noLinks).mp hfind).2.2

/-- A free name at the end of a way is one for something in a directory. -/
theorem IsPlain.isPlace_of_descend (h : IsPlain tree here) {start : Location}
    {path : List (List Char)}
    {asDirectory : Bool} (hstart : tree.node? start = some .directory)
    (hslash : ∀ piece ∈ path, '/' ∉ piece) (hnul : ∀ piece ∈ path, '\x00' ∉ piece)
    (hdescend : descend tree followLast start path = .arrived (.free directory name asDirectory)) :
    IsPlace tree name directory ∧ tree.node? (name :: directory) = none ∧
      name :: directory = follow start path := by
  induction path generalizing start with
  | nil =>
      rw [descend] at hdescend
      cases hdescend
  | cons piece rest ih =>
      obtain ⟨hfirst, hrest⟩ := List.forall_mem_cons.mp hslash
      obtain ⟨hfirst', hrest'⟩ := List.forall_mem_cons.mp hnul
      rcases piece_cases piece with hidle | rfl | hname
      · rw [descend_idle _ hidle] at hdescend
        rw [follow_idle _ hidle]
        exact ih hstart hrest hrest' hdescend
      · rw [descend_parent] at hdescend
        rw [follow_parent]
        exact ih (h.node?_tail hstart) hrest hrest' hdescend
      · rw [descend_name _ hname] at hdescend
        rw [follow_name _ hname]
        split at hdescend
        · cases hdescend
        · rename_i hshort
          split at hdescend
          · rename_i hnone
            split at hdescend
            · rename_i hempty
              cases hdescend
              refine ⟨⟨⟨?_, ?_, ?_, by simpa using hshort⟩, hstart⟩, hnone, ?_⟩
              · simpa using hname
              · simpa using hfirst
              · simpa using hfirst'
              · refine (follow_all_idle fun piece hpiece => ?_).symm
                have hnil := List.all_eq_true.mp hempty piece hpiece
                simp [isIdle, hnil]
            · cases hdescend
          · rename_i hdirectory
            exact ih hdirectory hrest hrest' hdescend
          · rename_i hlink
            exact absurd hlink (h.noLinks _ _)
          · split at hdescend <;> cases hdescend

theorem IsPlain.isPlace_of_resolve (h : IsPlain tree here) {asDirectory : Bool}
    (hresolve : resolve tree here path followLast = .ok (.free directory name asDirectory)) :
    IsPlace tree name directory ∧ tree.node? (name :: directory) = none ∧
      name :: directory = destination here path := by
  obtain ⟨-, hnul, hdescend⟩ := (resolve_eq_ok_iff h.noLinks).mp hresolve
  rw [destination_eq_follow]
  exact h.isPlace_of_descend (h.node?_startOf path) (fun piece => not_mem_of_mem_pieces)
    (fun piece hpiece hmem => hnul (mem_of_mem_pieces hpiece hmem).1) hdescend

/-- A path at which a file can be written: it leads to a place in a directory where no directory is.
-/
structure Opens (tree : FileTree) (here : Location) (path : Path) (name : String)
    (directory : Location) :
    Prop where
  opened : ∃ old, openForWriting tree here path = .ok (name :: directory, old) ∧
    tree.node? (name :: directory) = old.map fun o => .file o.1 o.2
  destination : destination here path = name :: directory
  place : IsPlace tree name directory

theorem Opens.free (h : Opens tree here path name directory) :
    tree.node? (name :: directory) ≠ some .directory := by
  obtain ⟨old, -, hnode⟩ := h.opened
  rw [hnode]
  cases old <;> simp

theorem IsPlain.opens (h : IsPlain tree here) {old : Option (ByteArray × FileMode)}
    (hopen : openForWriting tree here path = .ok (location, old)) :
    tree.node? location = old.map (fun o => .file o.1 o.2) ∧
      ∃ name directory, location = name :: directory ∧ Opens tree here path name directory := by
  cases openForWriting_iff.mp hopen with
  | @found _ content mode hresolve hmode =>
      have hfind : find tree here path = .ok (location, .file content mode) :=
        by rw [find, hresolve]
      have hnode := h.node?_of_find hfind
      refine ⟨hnode, ?_⟩
      cases location with
      | nil => cases hnode
      | cons name directory =>
          exact ⟨name, directory, rfl, ⟨_, hopen, hnode⟩,
            (destination_of_find h.noLinks hfind).symm,
            h.isPlace hnode⟩
  | @free directory name hresolve =>
      obtain ⟨hplace, hnone, hdestination⟩ := h.isPlace_of_resolve hresolve
      exact ⟨hnone, name, directory, rfl, ⟨_, hopen, hnone⟩, hdestination.symm, hplace⟩

/-- The mode of the file at a place, or of one that is put there. -/
def modeAt (tree : FileTree) (location : Location) : FileMode :=
  match tree.node? location with
  | some (.file _ mode) => mode
  | _ => {}

/-- What becomes of a place: nothing, a directory where nothing was, or a file where no directory
was. -/
inductive Change (changing : Bool) : Option Node → Option Node → Prop
  | same (node : Option Node) : Change changing node node
  | made : Change changing none (some .directory)
  | written {node : Option Node} {content : ByteArray} {mode : FileMode} (h : changing = true)
      (hnode : node ≠ some .directory) : Change changing node (some (.file content mode))

theorem Change.trans {changing : Bool} {a b c : Option Node} (h : Change changing a b)
    (hrest : Change changing b c) : Change changing a c := by
  cases hrest with
  | same => exact h
  | made =>
      cases h with
      | same => exact .made
  | written hchanging hbetween =>
      cases h with
      | same => exact .written hchanging hbetween
      | made => exact absurd rfl hbetween
      | written _ hnode => exact .written hchanging hnode

theorem Change.mono {changing changing' : Bool} {a b : Option Node} (h : Change changing a b)
    (hsub : changing = true → changing' = true) : Change changing' a b := by
  cases h with
  | same => exact .same _
  | made => exact .made
  | written hchanging hnode => exact .written (hsub hchanging) hnode

def isRegular : Node → Bool
  | .file _ _ => true
  | .directory => false
  | .link _ => false

/-- Whether an entry is a file at a place that does not change. -/
def isFixed (changing : Location → Bool) (e : Location × Node) : Bool :=
  !changing e.1 && isRegular e.2

/-- A growth of a tree in which files are written at some places only. -/
structure Grows (changing : Location → Bool) (here : Location) (before after : FileTree) :
    Prop where
  nodes : ∀ location, Change (changing location) (before.node? location) (after.node? location)
  files : after.entries.filter (isFixed changing) = before.entries.filter (isFixed changing)
  plain : IsPlain after here

section

variable {changing changing' : Location → Bool}

theorem Grows.refl (changing : Location → Bool) (h : IsPlain tree here) :
    Grows changing here tree tree :=
  ⟨fun _ => .same _, rfl, h⟩

theorem Grows.trans (h : Grows changing here before between)
    (hrest : Grows changing here between after) :
    Grows changing here before after :=
  ⟨fun location => (h.nodes location).trans (hrest.nodes location),
    hrest.files.trans h.files, hrest.plain⟩

theorem Grows.mono (h : Grows changing here before after)
    (hsub : ∀ location, changing location = true → changing' location = true) :
    Grows changing' here before after where
  nodes := fun location => (h.nodes location).mono (hsub location)
  files := by
    have hfixed : ∀ entries : List (Location × Node), entries.filter (isFixed changing') =
        (entries.filter (isFixed changing)).filter (isFixed changing') := by
      intro entries
      rw [List.filter_filter]
      refine List.filter_congr fun e _ => ?_
      have hsub := hsub e.1
      unfold isFixed
      cases hc : changing e.1 <;> simp_all
    rw [hfixed, h.files, ← hfixed]
  plain := h.plain

theorem Grows.node?_directory (h : Grows changing here before after)
    (hnode : before.node? location = some .directory) : after.node? location = some .directory := by
  have hchange := h.nodes location
  rw [hnode] at hchange
  generalize after.node? location = found at hchange ⊢
  cases hchange with
  | same => rfl
  | written _ hnode => exact absurd rfl hnode

theorem Grows.exists_file (h : Grows changing here before after)
    (hnode : before.node? location = some (.file content mode)) :
    ∃ content mode, after.node? location = some (.file content mode) := by
  have hchange := h.nodes location
  rw [hnode] at hchange
  generalize after.node? location = found at hchange
  cases hchange with
  | same => exact ⟨content, mode, rfl⟩
  | written => exact ⟨_, _, rfl⟩

theorem Grows.node?_file (h : Grows changing here before after)
    (hfixed : changing location = false) :
    after.node? location = some (.file content mode) ↔
      before.node? location = some (.file content mode) := by
  have hchange := h.nodes location
  rw [hfixed] at hchange
  generalize before.node? location = a at hchange ⊢
  generalize after.node? location = b at hchange ⊢
  cases hchange with
  | same => rfl
  | made => simp
  | written h => cases h

theorem Grows.find_kept (h : Grows changing here before after) (hbefore : HasNoLinks before)
    (hfixed : node ≠ .directory → changing location = false)
    (hfind : find before here path = .ok (location, node)) :
    find after here path = .ok (location, node) := by
  rw [find_eq_ok_iff hbefore] at hfind
  rw [find_eq_ok_iff h.plain.noLinks]
  obtain ⟨htext, hnul, hdescend⟩ := hfind
  refine ⟨htext, hnul, descend_of_kept (fun _ => h.node?_directory)
    (fun hnode hfound => ?_) hdescend⟩
  cases node with
  | file content mode => exact (h.node?_file (hfixed hnode)).mpr hfound
  | directory => exact absurd rfl hnode
  | link target => exact absurd hfound (hbefore _ _)

end

theorem mem_putEntry {e : Location × Node} {entries : List (Location × Node)}
    (h : e ∈ putEntry location node entries) : e = (location, node) ∨ e ∈ entries := by
  induction entries with
  | nil => exact .inl (List.mem_singleton.mp h)
  | cons first rest ih =>
      rw [putEntry] at h
      split at h
      · rcases List.mem_cons.mp h with rfl | h
        · exact .inl rfl
        · exact .inr (List.mem_cons_of_mem first h)
      · rcases List.mem_cons.mp h with rfl | h
        · exact .inr List.mem_cons_self
        · exact (ih h).imp_right (List.mem_cons_of_mem first)

theorem keys_putEntry (location : Location) (node : Node) (entries : List (Location × Node)) :
    (putEntry location node entries).map Prod.fst =
      if location ∈ entries.map Prod.fst then entries.map Prod.fst
      else entries.map Prod.fst ++ [location] := by
  induction entries with
  | nil => rfl
  | cons first rest ih =>
      rw [putEntry]
      split
      · rename_i hfirst
        simp [← hfirst]
      · rename_i hfirst
        rw [List.map_cons, ih, List.map_cons]
        by_cases hmem : location ∈ rest.map Prod.fst
        · rw [if_pos hmem, if_pos (List.mem_cons_of_mem _ hmem)]
        · have hnot : location ∉ first.1 :: rest.map Prod.fst := by
            rw [List.mem_cons, not_or]
            exact ⟨Ne.symm hfirst, hmem⟩
          rw [if_neg hmem, if_neg hnot, List.cons_append]

theorem nodup_putEntry {entries : List (Location × Node)} (h : (entries.map Prod.fst).Nodup)
    (location : Location)
    (node : Node) : ((putEntry location node entries).map Prod.fst).Nodup := by
  rw [keys_putEntry]
  split
  · exact h
  · rename_i hmem
    refine List.nodup_append.mpr ⟨h, by simp, ?_⟩
    rintro a ha b hb rfl
    rw [List.mem_singleton] at hb
    exact hmem (hb ▸ ha)

theorem node?_put_of_directory (hfree : tree.node? location ≠ some .directory)
    (h : tree.node? directory = some .directory) :
    (tree.put location node).node? directory = some .directory := by
  have hne : directory ≠ location := by
    rintro rfl
    exact hfree h
  rw [node?_put_of_ne _ hne, h]

theorem wellFormed_put (h : WellFormed tree) (hplace : IsPlace tree name directory)
    (hfree : tree.node? (name :: directory) ≠ some .directory) (node : Node) :
    WellFormed (tree.put (name :: directory) node) := by
  refine ⟨?_, ?_, nodup_putEntry h.unique _ _⟩
  · intro e he
    rcases mem_putEntry he with rfl | he
    · rw [List.forall_mem_cons]
      refine ⟨hplace.isName, fun other hother => ?_⟩
      have hdirectory := hplace.directory
      rw [FileTree.node?, if_neg (by rintro rfl; cases hother),
        Option.map_eq_some_iff] at hdirectory
      obtain ⟨entry, hentry, -⟩ := hdirectory
      have hlocation : entry.1 = directory := by simpa using List.find?_some hentry
      exact h.names entry (List.mem_of_find?_eq_some hentry) other (hlocation ▸ hother)
    · exact h.names e he
  · intro e he
    rcases mem_putEntry he with rfl | he
    · exact node?_put_of_directory hfree hplace.directory
    · exact node?_put_of_directory hfree (h.parents e he)

theorem IsPlain.put (h : IsPlain tree here) (hplace : IsPlace tree name directory)
    (hnode : ∀ target,
    node ≠ .link target) (hfree : tree.node? (name :: directory) ≠ some .directory) :
    IsPlain (tree.put (name :: directory) node) here := by
  refine ⟨wellFormed_put h.wellFormed hplace hfree node, ?_, node?_put_of_directory hfree h.here⟩
  intro location target hlink
  by_cases hlocation : location = name :: directory
  · subst hlocation
    rw [node?_put _ (by simp)] at hlink
    exact hnode target (Option.some.inj hlink)
  · rw [node?_put_of_ne _ hlocation] at hlink
    exact h.noLinks location target hlink

section

variable {changing : Location → Bool}

theorem Grows.put_file (h : IsPlain tree here) (hplace : IsPlace tree name directory)
    (hchanging : changing (name :: directory) = true)
    (hfree : tree.node? (name :: directory) ≠ some .directory) :
    Grows changing here tree (tree.put (name :: directory) (.file content mode)) where
  nodes := by
    intro location
    by_cases hlocation : location = name :: directory
    · subst hlocation
      rw [node?_put _ (by simp)]
      exact .written hchanging hfree
    · rw [node?_put_of_ne _ hlocation]
      exact .same _
  files := by
    have hnone : ∀ node, isFixed changing (name :: directory, node) = false := by
      simp [isFixed, hchanging]
    suffices hput : ∀ entries : List (Location × Node),
        (putEntry (name :: directory) (.file content mode) entries).filter (isFixed changing) =
          entries.filter (isFixed changing) from hput tree.entries
    intro entries
    induction entries with
    | nil => simp [putEntry, hnone]
    | cons first rest ih =>
        obtain ⟨l, n⟩ := first
        by_cases hl : l = name :: directory
        · subst hl
          simp [putEntry, hnone]
        · simp [putEntry, hl, List.filter_cons, ih]
  plain := h.put hplace (by simp) hfree

theorem Grows.put_directory (h : IsPlain tree here) (hplace : IsPlace tree name directory)
    (hfree : tree.node? (name :: directory) = none) :
    Grows changing here tree (tree.put (name :: directory) .directory) where
  nodes := by
    intro location
    by_cases hlocation : location = name :: directory
    · subst hlocation
      rw [node?_put _ (by simp), hfree]
      exact .made
    · rw [node?_put_of_ne _ hlocation]
      exact .same _
  files := by
    have hunlisted : name :: directory ∉ tree.entries.map Prod.fst := by
      rw [FileTree.node?, if_neg (by simp), Option.map_eq_none_iff, List.find?_eq_none] at hfree
      intro hmem
      obtain ⟨e, he, heq⟩ := List.mem_map.mp hmem
      exact hfree e he (by simpa using heq)
    suffices hput : ∀ entries : List (Location × Node), name :: directory ∉ entries.map Prod.fst →
        (putEntry (name :: directory) .directory entries).filter (isFixed changing) =
          entries.filter (isFixed changing) from hput tree.entries hunlisted
    intro entries hentries
    induction entries with
    | nil => simp [putEntry, isFixed, isRegular]
    | cons first rest ih =>
        rw [List.map_cons, List.mem_cons, not_or] at hentries
        rw [putEntry, if_neg (Ne.symm hentries.1), List.filter_cons, ih hentries.2,
          ← List.filter_cons]
  plain := h.put hplace (by simp) (by simp [hfree])

theorem exists_of_write (h : IsPlain tree here)
    (hwrite : write tree here path content = .ok after) :
    ∃ name directory, Opens tree here path name directory ∧
      after = tree.put (name :: directory)
        (.file content (modeAt tree (name :: directory))) := by
  obtain ⟨location, old, hopen, rfl⟩ := exists_of_written hwrite
  obtain ⟨hnode, name, directory, rfl, hopens⟩ := h.opens hopen
  refine ⟨name, directory, hopens, ?_⟩
  rw [modeAt, hnode]
  cases old <;> rfl

theorem Opens.grows (h : IsPlain tree here) (hopens : Opens tree here path name directory)
    (hchanging : changing (Destinations.destination here path) = true) :
    Grows changing here tree (tree.put (name :: directory) (.file content mode)) :=
  .put_file h hopens.place (hopens.destination ▸ hchanging) hopens.free

theorem grows_of_write (h : IsPlain tree here) (hchanging : changing (destination here path) = true)
    (hwrite : write tree here path content = .ok after) : Grows changing here tree after := by
  obtain ⟨name, directory, hopens, rfl⟩ := exists_of_write h hwrite
  exact hopens.grows h hchanging

/-- Copying puts a file at the destination of the copy, with the text that is copied unless it is
put in its own place. -/
theorem exists_of_copy (h : IsPlain tree here) {source : Path}
    (hcopy : copy tree here source path = .ok after) :
    ∃ origin content mode name directory,
      find tree here source = .ok (origin, .file content mode) ∧
      Opens tree here path name directory ∧
      after = tree.put (name :: directory)
        (.file (if name :: directory = origin then .empty else content) mode) := by
  obtain ⟨origin, content, mode, location, old, hfind, -, hopen, rfl⟩ := exists_of_copied hcopy
  obtain ⟨-, name, directory, rfl, hopens⟩ := h.opens hopen
  exact ⟨origin, content, mode, name, directory, hfind, hopens, rfl⟩

theorem grows_of_copy (h : IsPlain tree here) {source : Path}
    (hchanging : changing (destination here path) = true)
    (hcopy : copy tree here source path = .ok after) : Grows changing here tree after := by
  obtain ⟨origin, content, mode, name, directory, -, hopens, rfl⟩ := exists_of_copy h hcopy
  exact hopens.grows h hchanging

theorem grows_of_makeDirectory (h : IsPlain tree here)
    (hmake : makeDirectory tree here path = .ok after) : Grows changing here tree after := by
  unfold makeDirectory at hmake
  split at hmake
  · cases hmake
  · rename_i directory name asDirectory hresolve
    cases hmake
    obtain ⟨hplace, hnone, -⟩ := h.isPlace_of_resolve hresolve
    exact .put_directory h hplace hnone
  · cases hmake

theorem grows_of_ensureDirectory (h : IsPlain tree here)
    (hensure : ensureDirectory tree here path = .ok after) : Grows changing here tree after := by
  unfold ensureDirectory at hensure
  split at hensure
  · rename_i hmake
    cases hensure
    exact grows_of_makeDirectory h hmake
  · split at hensure
    · cases hensure
      exact .refl changing h
    · cases hensure

theorem grows_makeDirectoriesUpTo (depth : Nat) (h : IsPlain tree here) (path : Path) :
    Grows changing here tree (makeDirectoriesUpTo depth tree here path).2 := by
  induction depth generalizing path with
  | zero =>
      unfold makeDirectoriesUpTo
      split
      · exact .refl changing h
      · split
        · rename_i hensure
          exact grows_of_ensureDirectory h hensure
        · rename_i hdepth
          cases hdepth
        · exact .refl changing h
  | succ depth ih =>
      unfold makeDirectoriesUpTo
      split
      · exact .refl changing h
      · split
        · rename_i hensure
          exact grows_of_ensureDirectory h hensure
        · rename_i hdepth
          cases hdepth
          split
          · exact .refl changing h
          · rename_i parent hparent
            have hparents := ih parent
            split
            · rename_i hmade
              rw [hmade] at hparents
              exact hparents
            · rename_i hmade
              rw [hmade] at hparents
              split
              · rename_i hensure
                exact hparents.trans (grows_of_ensureDirectory hparents.plain hensure)
              · exact hparents
        · exact .refl changing h

theorem grows_makeDirectories (changing : Location → Bool) (h : IsPlain tree here) (path : Path) :
    Grows changing here tree (makeDirectories tree here path).2 :=
  grows_makeDirectoriesUpTo _ h path

theorem grows_of_made {changing : Location → Bool} {error : Option FileError}
    (h : IsPlain tree here)
    (hmade : makeDirectories tree here path = (error, after)) : Grows changing here tree after := by
  have hgrows := grows_makeDirectories changing h path
  rwa [hmade] at hgrows

end

end Cythonizer.Proofs.FileTree.Growth
