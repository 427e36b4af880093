import Cythonizer.Proofs.FileTree.Growth

namespace Cythonizer.Proofs.FileTree.Finding

open Cythonizer.FileTree.Access
open Cythonizer.FileTree.Basic
open Cythonizer.FileTree.Resolution
open Cythonizer.Path.Basic
open Cythonizer.Proofs.FileTree.Destinations
open Cythonizer.Proofs.FileTree.Frames
open Cythonizer.Proofs.FileTree.Growth
open Cythonizer.Proofs.Path.Names

variable {changing : Location → Bool} {tree before after : FileTree} {followLast : Bool}
  {here location directory : Location} {node : Node} {path : Path} {name : String} {place : Place}
  {content : ByteArray} {mode : FileMode}

def locationOf : Place → Location
  | .found location _ => location
  | .free directory name _ => name :: directory

/-- What can be at a place later on: a directory stays one, and a name with a slash behind it
becomes one. -/
def Fits : Place → Node → Prop
  | .found _ old, node => old = .directory → node = .directory
  | .free _ _ asDirectory, node => asDirectory = true → node = .directory

theorem descend_of_grows (h : Grows changing here before after) (hlinks : HasNoLinks before)
    {start : Location} {path : List (List Char)}
    (hdescend : descend before followLast start path = .arrived place)
    (hnode : after.node? (locationOf place) = some node) (hfits : Fits place node) :
    descend after followLast start path = .arrived (.found (locationOf place) node) := by
  induction path generalizing start with
  | nil =>
      rw [descend] at hdescend
      cases hdescend
      rw [descend, hfits rfl]
      rfl
  | cons piece rest ih =>
      rcases piece_cases piece with hidle | rfl | hname
      · rw [descend_idle _ hidle] at hdescend ⊢
        exact ih hdescend
      · rw [descend_parent] at hdescend ⊢
        exact ih hdescend
      · rw [descend_name _ hname] at hdescend ⊢
        split at hdescend
        · cases hdescend
        · rename_i hshort
          rw [if_neg hshort]
          split at hdescend
          · split at hdescend
            · rename_i hempty
              cases hdescend
              rw [locationOf] at hnode ⊢
              rw [hnode]
              have hidle : ∀ piece ∈ rest, isIdle piece = true := fun piece hpiece => by
                have hnil := List.all_eq_true.mp hempty piece hpiece
                simp [isIdle, hnil]
              cases node with
              | directory => exact descend_all_idle hidle
              | link target => exact absurd hnode (h.plain.noLinks _ _)
              | file content mode =>
                  have hrest : rest = [] := by
                    by_cases hrest : rest = []
                    · exact hrest
                    · cases hfits (by simpa using hrest)
                  simp [hrest]
            · cases hdescend
          · rename_i hdirectory
            rw [h.node?_directory hdirectory]
            exact ih hdescend
          · rename_i hlink
            exact absurd hlink (hlinks _ _)
          · split at hdescend
            · rename_i hrest
              cases hdescend
              rw [locationOf] at hnode ⊢
              rw [hnode]
              rw [List.isEmpty_iff] at hrest
              cases node with
              | directory => simp [hrest, descend]
              | link target => exact absurd hnode (h.plain.noLinks _ _)
              | file content mode => simp [hrest]
            · cases hdescend

theorem find_of_grows (h : Grows changing here before after) (hlinks : HasNoLinks before)
    (hresolve : resolve before here path followLast = .ok place)
    (hnode : after.node? (locationOf place) = some node) (hfits : Fits place node) :
    find after here path = .ok (locationOf place, node) := by
  obtain ⟨htext, hnul, hdescend⟩ := (resolve_eq_ok_iff hlinks).mp hresolve
  exact (find_eq_ok_iff h.plain.noLinks).mpr
    ⟨htext, hnul, descend_of_grows h hlinks hdescend hnode hfits⟩

theorem find_directory_of_grows (h : Grows changing here before after)
    (hbefore : IsPlain before here)
    (hfind : find before here path = .ok (location, .directory)) :
    find after here path = .ok (location, .directory) :=
  find_of_grows h hbefore.noLinks (find_iff_resolve.mp hfind)
    (h.node?_directory (hbefore.node?_of_find hfind))
    fun _ => rfl

theorem find_file_of_grows (h : Grows changing here before after) (hbefore : IsPlain before here)
    (hfind : find before here path = .ok (location, .file content mode)) :
    ∃ content mode, find after here path = .ok (location, .file content mode) ∧
      after.node? location = some (.file content mode) := by
  obtain ⟨content, mode, hnode⟩ := h.exists_file (hbefore.node?_of_find hfind)
  exact ⟨content, mode, find_of_grows h hbefore.noLinks (find_iff_resolve.mp hfind) hnode
    (fun hdirectory => by cases hdirectory), hnode⟩

theorem find_of_opens (hopens : Opens tree here path name directory)
    (h : Grows changing here tree after)
    (hlinks : HasNoLinks tree)
    (hnode : after.node? (name :: directory) = some (.file content mode)) :
    find after here path = .ok (name :: directory, .file content mode) := by
  obtain ⟨old, hopen, -⟩ := hopens.opened
  cases openForWriting_iff.mp hopen with
  | found hresolve hmode =>
    exact find_of_grows h hlinks hresolve hnode fun hdirectory => by cases hdirectory
  | free hresolve =>
    exact find_of_grows h hlinks hresolve hnode fun hdirectory => by cases hdirectory

theorem find_of_write (h : IsPlain tree here)
    (hwrite : write tree here path content = .ok after) :
    ∃ mode, find after here path = .ok (destination here path, .file content mode) := by
  have hgrows : Grows (fun _ => true) here tree after := grows_of_write h rfl hwrite
  obtain ⟨name, directory, hopens, rfl⟩ := exists_of_write h hwrite
  rw [hopens.destination]
  exact ⟨_, find_of_opens hopens hgrows h.noLinks (node?_put _ (by simp))⟩

theorem find_of_copy {copied : Path} (h : IsPlain tree here)
    (hcopy : copy tree here path copied = .ok after)
    (hread : readBytes tree here path = .ok content)
    (hne : destination here path ≠ destination here copied) :
    ∃ mode, find after here copied = .ok (destination here copied, .file content mode) := by
  have hgrows : Grows (fun _ => true) here tree after := grows_of_copy h rfl hcopy
  obtain ⟨origin, found, mode, name, directory, hfind, hopens, rfl⟩ := exists_of_copy h hcopy
  have horigin := destination_of_find h.noLinks hfind
  rw [readBytes, hfind] at hread
  cases hread
  rw [hopens.destination] at hne ⊢
  rw [← horigin] at hne
  refine ⟨mode, find_of_opens hopens hgrows h.noLinks ?_⟩
  rw [if_neg (Ne.symm hne)]
  exact node?_put _ (by simp)

theorem exists_of_isDirectory (h : isDirectory tree here path = true) :
    ∃ location, find tree here path = .ok (location, .directory) := by
  unfold isDirectory at h
  split at h
  · rename_i location hfind
    exact ⟨location, hfind⟩
  · cases h

theorem makeDirectories_of_find (hfind : find tree here path = .ok (location, .directory))
    (hlinks : HasNoLinks tree) : makeDirectories tree here path = (none, tree) := by
  have hresolve : resolve tree here path false = .ok (.found location .directory) :=
    (resolve_eq_ok_iff hlinks).mpr ((find_eq_ok_iff hlinks).mp hfind)
  have hensure : ensureDirectory tree here path = .ok tree := by
    rw [ensureDirectory, makeDirectory, hresolve]
    dsimp only
    rw [if_pos]
    rw [isDirectory, hfind]
  rw [makeDirectories]
  unfold makeDirectoriesUpTo
  split
  · rfl
  · rw [hensure]

theorem find_of_ensureDirectory (h : IsPlain tree here)
    (hensure : ensureDirectory tree here path = .ok after) :
    find after here path = .ok (destination here path, .directory) := by
  unfold ensureDirectory at hensure
  split at hensure
  · rename_i hmake
    cases hensure
    have hgrows : Grows (fun _ => false) here tree after := grows_of_makeDirectory h hmake
    unfold makeDirectory at hmake
    split at hmake
    · cases hmake
    · rename_i directory name asDirectory hresolve
      cases hmake
      obtain ⟨-, -, hdestination⟩ := h.isPlace_of_resolve hresolve
      rw [← hdestination]
      exact find_of_grows hgrows h.noLinks hresolve (node?_put _ (by simp)) fun _ => rfl
    · cases hmake
  · split at hensure
    · rename_i hthere
      cases hensure
      unfold isDirectory at hthere
      split at hthere
      · rename_i hfind
        rw [hfind, destination_of_find h.noLinks hfind]
      · cases hthere
    · cases hensure

theorem find_of_makeDirectoriesUpTo (depth : Nat) (h : IsPlain tree here) (htext : path.text ≠ "")
    (hmake : makeDirectoriesUpTo depth tree here path = (none, after)) :
    find after here path = .ok (destination here path, .directory) := by
  unfold makeDirectoriesUpTo at hmake
  rw [if_neg (by simpa using htext)] at hmake
  split at hmake
  · rename_i hensure
    cases hmake
    exact find_of_ensureDirectory h hensure
  · rename_i above _
    split at hmake
    · cases hmake
    · rename_i parent hparent
      have hparents :
        Grows (fun _ => false) here tree (makeDirectoriesUpTo above tree here parent).2 :=
        grows_makeDirectoriesUpTo above h parent
      split at hmake
      · cases hmake
      · rename_i hmade
        rw [hmade] at hparents
        split at hmake
        · rename_i hensure
          cases hmake
          exact find_of_ensureDirectory hparents.plain hensure
        · cases hmake
  · cases hmake

theorem find_of_makeDirectories (h : IsPlain tree here) (htext : path.text ≠ "")
    (hmake : makeDirectories tree here path = (none, after)) :
    find after here path = .ok (destination here path, .directory) :=
  find_of_makeDirectoriesUpTo _ h htext hmake

end Cythonizer.Proofs.FileTree.Finding
