import Mathlib.Data.List.Basic
import Cythonizer.Packaging.Artifact
import Cythonizer.Proofs.FileTree.Finding

namespace Cythonizer.Proofs.Packaging.Artifacts

open Cythonizer.FileTree.Access
open Cythonizer.FileTree.Basic
open Cythonizer.FileTree.Resolution
open Cythonizer.Packaging.Artifact
open Cythonizer.Path.Basic
open Cythonizer.Text.Pieces
open Cythonizer.Proofs.FileTree.Destinations
open Cythonizer.Proofs.FileTree.Finding
open Cythonizer.Proofs.FileTree.Frames
open Cythonizer.Proofs.FileTree.Growth
open Cythonizer.Proofs.Path.Joining
open Cythonizer.Proofs.Path.Names
open Cythonizer.Proofs.Path.Relative
open Cythonizer.Proofs.Project.Walk

variable {changing : Location → Bool} {tree before after : FileTree} {here location base : Location}
  {node : Node} {path source artifact directory : Path} {piece : List Char} {name : String}

theorem isAbsolute_name (h : '/' ∉ name.toList) : Path.isAbsolute ⟨name⟩ = false := by
  unfold Path.isAbsolute Path.chars
  cases hname : name.toList with
  | nil => rfl
  | cons c rest =>
      have hc : c ≠ '/' := by
        rintro rfl
        exact h (by simp [hname])
      simpa using hc

theorem destination_of_same (h : path.same ⟨"."⟩ = true) : destination here path = here := by
  rw [Path.same, beq_iff_eq] at h
  rw [destination, h, show Path.components ⟨"."⟩ = [.current] by decide]
  rfl

theorem destination_inside (path : Path) (h : '/' ∉ name.toList) :
    destination here (inside path name) = follow (destination here path) [name.toList] := by
  have hpieces : pieces '/' (Path.chars ⟨name⟩) = [name.toList] := pieces_of_not_mem h
  unfold inside
  split
  · rename_i hsame
    rw [destination_of_same hsame, destination_eq_follow, startOf, isAbsolute_name h, hpieces]
    rfl
  · rw [destination_join (isAbsolute_name h), hpieces]

theorem destination_respell {pieces : List (List Char)} (hslash : ∀ piece ∈ pieces, '/' ∉ piece)
    (h : respell tree here path pieces = some directory) :
    destination here directory = follow (destination here path) pieces := by
  induction pieces generalizing path with
  | nil =>
      rw [respell, Option.some.injEq] at h
      rw [← h]
      rfl
  | cons piece rest ih =>
      obtain ⟨hpiece, hslash⟩ := List.forall_mem_cons.mp hslash
      have hname : (String.ofList piece).toList = piece := String.toList_ofList
      rw [respell] at h
      split at h
      all_goals
        split at h
        · rw [ih hslash h, destination_inside path (by rwa [hname]), hname, ← follow_append]
          rfl
        · cases h

/-- Where the spelling of a directory starts, and the pieces it goes on with. -/
def start (written : Path) : Path × List Char :=
  if written.isAbsolute then (⟨"/"⟩, written.chars.drop 1) else (⟨"."⟩, written.chars)

/-- The directory that is searched for a source as it is spelled piece by piece. -/
def spelled [Encoding] (tree : FileTree) (here : Location) (source : Path) : Option Path :=
  respell tree here (start (shownDirectory source)).1 (pieces '/' (start (shownDirectory source)).2)

def isCompiled [Encoding] (tree : FileTree) (here : Location) (stem : String) (directory : Path)
    (name : String) :
    Bool :=
  isProper name && isNamedFor stem name && isFile tree here (inside directory name)

theorem artifact?_eq [Encoding] (tree : FileTree) (here : Location) (source : Path) :
    artifact? tree here source =
      (source.stem?.filter isProper).bind fun stem =>
      (spelled tree here source).bind fun directory =>
        match find tree here directory with
        | .ok (location, .directory) =>
          (least ((namesIn tree location).filter (isCompiled tree here stem directory))).map
            (inside directory)
        | _ => none := by
  have hmap : ∀ (name? : Option String) (directory : Path),
      (name?.bind fun name => some (inside directory name)) = name?.map (inside directory) := by
    intro name? directory
    cases name? <;> rfl
  unfold artifact? spelled start
  simp only [bind, pure, hmap]
  split <;> rfl

theorem destination_start (written : Path) :
    destination here written =
      follow (destination here (start written).1) (pieces '/' (start written).2) := by
  unfold start
  rw [destination_eq_follow, startOf]
  split
  · rename_i habsolute
    have hchars : ∃ rest, written.chars = '/' :: rest := by
      unfold Path.isAbsolute at habsolute
      cases htext : written.chars with
      | nil => rw [htext] at habsolute; cases habsolute
      | cons c rest => exact ⟨rest, by simpa [htext] using habsolute⟩
    obtain ⟨rest, hchars⟩ := hchars
    have hroot : destination here ⟨"/"⟩ = [] := by
      rw [destination, show Path.components ⟨"/"⟩ = [.root] by decide]
      rfl
    rw [hchars, pieces, if_pos rfl, follow_idle _ rfl, hroot, List.drop_one, List.tail_cons]
  · dsimp only
    rw [destination_of_same (by decide)]

theorem destination_spelled [Encoding] (h : spelled tree here source = some directory) :
    destination here directory = destination here (shownDirectory source) := by
  rw [destination_respell (fun piece => not_mem_of_mem_pieces) h, ← destination_start]

theorem destination_directoryOf (h : source.fileName? = some name) :
    destination here source = name :: destination here (directoryOf source) := by
  obtain ⟨parent, hparent, hdestination⟩ := exists_parent h
  rw [directoryOf, hparent, hdestination]
  dsimp only
  split
  · rename_i hempty
    rw [show parent = ⟨""⟩ by cases parent; simpa using hempty]
    rfl
  · rfl

theorem find_directoryOf {content : ByteArray} {mode : FileMode} (hlinks : HasNoLinks tree)
    (hfind : find tree here source = .ok (location, .file content mode)) :
    find tree here (directoryOf source) =
      .ok (destination here (directoryOf source), .directory) := by
  obtain ⟨front, last, hends⟩ := exists_ends source
  obtain ⟨-, hnul, hdescend⟩ := (find_eq_ok_iff hlinks).mp hfind
  have hway := hdescend
  rw [hends.pieces] at hway
  obtain ⟨directory, -, hlast, habove, -⟩ := descend_file hway
  obtain ⟨parent, hparent, hchars, hstart, hcomponents⟩ := parent_pieces (hends.fileName hlast)
  rw [hends.pieces, componentsOf_append, componentsOf_cons [] (isIdle_eq_false hlast),
    ofPiece_of_proper hlast, String.toList_ofList] at hcomponents
  have hthere := descend_of_components hlinks (List.append_cancel_right hcomponents) habove
  rw [← hstart here] at hthere
  suffices h : find tree here (directoryOf source) = .ok (directory, .directory) by
    rw [h, ← destination_of_find hlinks h]
  rw [directoryOf, hparent]
  dsimp only
  split
  · rename_i hempty
    rw [show parent = ⟨""⟩ by cases parent; simpa using hempty] at hthere
    exact (find_eq_ok_iff hlinks).mpr ⟨by decide, by decide, hthere⟩
  · rename_i hfilled
    exact (find_eq_ok_iff hlinks).mpr ⟨by simpa using hfilled, fun hmem =>
      hnul (hchars.subset hmem), hthere⟩

theorem mem_of_least {names : List String} (h : least names = some name) : name ∈ names := by
  induction names generalizing name with
  | nil => cases h
  | cons first rest ih =>
      rw [least] at h
      split at h
      · rename_i other hother
        split at h
        · cases h
          exact List.mem_cons_of_mem first (ih hother)
        · cases h
          exact List.mem_cons_self
      · cases h
        exact List.mem_cons_self

theorem mem_of_mem_namesIn (h : name ∈ namesIn tree location) :
    ∃ node, (name :: location, node) ∈ tree.entries := by
  obtain ⟨⟨l, node⟩, hmem, hname⟩ := List.mem_filterMap.mp h
  cases l with
  | nil => cases hname
  | cons first rest =>
      dsimp only at hname
      split at hname
      · rename_i hrest
        cases hname
        exact ⟨node, hrest ▸ hmem⟩
      · cases hname

/-- What is in a directory is found there. -/
theorem find_inside (hlinks : HasNoLinks tree)
    (hdirectory : find tree here path = .ok (base, .directory))
    (hslash : '/' ∉ name.toList) (hnul : '\x00' ∉ name.toList)
    (htext : (inside path name).text ≠ "") :
    find tree here (inside path name) = .ok (location, node) ↔
      descend tree true base [name.toList] = .arrived (.found location node) := by
  have hpieces : pieces '/' (Path.chars ⟨name⟩) = [name.toList] := pieces_of_not_mem hslash
  have hbase := destination_of_find hlinks hdirectory
  rw [find_eq_ok_iff hlinks] at hdirectory ⊢
  obtain ⟨hfilled, hnone, hdescend⟩ := hdirectory
  suffices h : '\x00' ∉ (inside path name).chars ∧
      descend tree true (startOf here (inside path name)) (pieces '/' (inside path name).chars) =
        descend tree true base [name.toList] by
    rw [h.2]
    simp [htext, h.1]
  unfold inside
  split
  · rename_i hsame
    rw [destination_of_same hsame] at hbase
    rw [startOf, isAbsolute_name hslash, hpieces, hbase]
    exact ⟨hnul, rfl⟩
  · rw [startOf_join (isAbsolute_name hslash)]
    rcases chars_join path (isAbsolute_name hslash) with
      ⟨hempty, -⟩ | ⟨front, idle, -, hpath, hidle, hjoined⟩
    · exact absurd (String.toList_eq_nil_iff.mp hempty) hfilled
    · rw [hpath, List.mem_append, not_or] at hnone
      rw [hjoined, pieces_append, hpieces]
      refine ⟨by simpa [hnone.1] using (show '\x00' ∉ Path.chars ⟨name⟩ from hnul), ?_⟩
      have hway : descend tree true (startOf here path) (pieces '/' front ++ idle.map fun _ => []) =
          .arrived (.found base .directory) := by
        rw [← hdescend, hpath]
        rcases hidle with rfl | rfl
        · simp
        · rw [pieces_append]
          rfl
      exact descend_append _ _ (by simp +contextual [isIdle]) hway

theorem exists_of_artifact [Encoding] (h : IsPlain tree here)
    (hartifact : artifact? tree here source = some artifact) :
    ∃ name content mode,
      find tree here artifact =
        .ok (name :: destination here (shownDirectory source), .file content mode) ∧
      ∃ stem, isNamedFor stem name = true := by
  rw [artifact?_eq, Option.bind_eq_some_iff] at hartifact
  obtain ⟨stem, -, hartifact⟩ := hartifact
  rw [Option.bind_eq_some_iff] at hartifact
  obtain ⟨directory, hspelled, hartifact⟩ := hartifact
  split at hartifact
  · rename_i location hfind
    obtain ⟨name, hleast, rfl⟩ := Option.map_eq_some_iff.mp hartifact
    obtain ⟨hmem, hcompiled⟩ := List.mem_filter.mp (mem_of_least hleast)
    obtain ⟨node, hentry⟩ := mem_of_mem_namesIn hmem
    have hname := h.wellFormed.names _ hentry name List.mem_cons_self
    rw [isCompiled, Bool.and_eq_true, Bool.and_eq_true, isFile] at hcompiled
    obtain ⟨⟨-, hnamed⟩, hfile⟩ := hcompiled
    split at hfile
    · rename_i place content mode hfound
      refine ⟨name, content, mode, ?_, stem, hnamed⟩
      have hplace := destination_of_find h.noLinks hfound
      rw [destination_inside directory hname.noSlash, destination_spelled hspelled,
        follow_name _ hname.proper, String.ofList_toList] at hplace
      rw [hfound, hplace]
      rfl
    · cases hfile
  · cases hartifact

/-- A way to a directory goes through directories. -/
theorem exists_of_descend_cons {rest : List (List Char)} (hlinks : HasNoLinks tree)
    (h : descend tree true here (piece :: rest) = .arrived (.found location .directory)) :
    ∃ between, descend tree true here [piece] = .arrived (.found between .directory) ∧
      descend tree true between rest = .arrived (.found location .directory) := by
  rcases piece_cases piece with hidle | rfl | hname
  · rw [descend_idle _ hidle] at h
    exact ⟨here, by rw [descend_idle _ hidle, descend], h⟩
  · rw [descend_parent] at h
    exact ⟨here.tail, by rw [descend_parent, descend], h⟩
  · rw [descend_name _ hname] at h
    split at h
    · cases h
    · rename_i hshort
      split at h
      · split at h <;> cases h
      · rename_i hdirectory
        refine ⟨String.ofList piece :: here, ?_, h⟩
        rw [descend_name _ hname, if_neg hshort, hdirectory]
        dsimp only
        rw [descend]
      · rename_i hlink
        exact absurd hlink (hlinks _ _)
      · rename_i hother _ _
        split at h
        · cases h
          exact absurd rfl hother
        · cases h

/-- Whether a piece leads on from a path. -/
def isThere (tree : FileTree) (here : Location) (path : Path) (piece : List Char) : Bool :=
  if piece = ['.'] || piece = ['.', '.'] then isDirectory tree here path
  else holds tree here (inside path (String.ofList piece))

theorem respell_cons (path : Path) (piece : List Char) (rest : List (List Char)) :
    respell tree here path (piece :: rest) =
      if isThere tree here path piece then respell tree here
        (inside path (String.ofList piece)) rest
      else none := by
  rw [respell, isThere]

theorem isThere_of_find {between : Location}
    (hpath : find tree here path = .ok (location, .directory))
    (hnext : find tree here (inside path (String.ofList piece)) = .ok (between, .directory)) :
    isThere tree here path piece = true := by
  unfold isThere
  split
  · rw [isDirectory, hpath]
  · rw [holds, hnext]
    rfl

theorem isThere_of_empty (hpath : find tree here path = .ok (location, .directory))
    (hslash : '/' ∉ piece)
    (h : (inside path (String.ofList piece)).text = "") (tree' : FileTree) :
    isThere tree' here path piece = false := by
  have hname : '/' ∉ (String.ofList piece).toList := by simpa using hslash
  have hpiece : piece = [] := by
    have hchars : (inside path (String.ofList piece)).chars = [] := String.toList_eq_nil_iff.mpr h
    unfold inside at hchars
    split at hchars
    · simpa [Path.chars] using hchars
    · rcases chars_join path (isAbsolute_name hname) with ⟨hempty, -⟩ | ⟨_, _, _, _, _, hjoined⟩
      · have htext : path.text = "" := String.toList_eq_nil_iff.mp hempty
        rw [find, resolve, if_pos (by simpa using htext)] at hpath
        cases hpath
      · rw [hjoined] at hchars
        simp at hchars
  rw [isThere, hpiece, if_neg (by simp), holds, find, resolve, if_pos (by simpa [hpiece] using h)]
  rfl

/-- A directory is spelled the same in a tree that has grown. -/
theorem respell_of_grows {pieces : List (List Char)} (h : Grows changing here before after)
    (hbefore : IsPlain before here) (hslash : ∀ piece ∈ pieces, '/' ∉ piece)
    (hnul : ∀ piece ∈ pieces, '\x00' ∉ piece)
    (hfind : find before here path = .ok (location, .directory))
    (hdescend : descend before true location pieces = .arrived (.found base .directory)) :
    respell after here path pieces = respell before here path pieces ∧
      ∀ directory ∈ respell before here path pieces,
        find before here directory = .ok (base, .directory) := by
  induction pieces generalizing path location with
  | nil =>
      rw [descend] at hdescend
      cases hdescend
      refine ⟨rfl, fun directory hdirectory => ?_⟩
      rw [respell, Option.mem_some_iff] at hdirectory
      exact hdirectory ▸ hfind
  | cons piece rest ih =>
      obtain ⟨hslash', hslash⟩ := List.forall_mem_cons.mp hslash
      obtain ⟨hnul', hnul⟩ := List.forall_mem_cons.mp hnul
      obtain ⟨between, hpiece, hrest⟩ := exists_of_descend_cons hbefore.noLinks hdescend
      rw [respell_cons, respell_cons]
      by_cases htext : (inside path (String.ofList piece)).text = ""
      · rw [isThere_of_empty hfind hslash' htext after, isThere_of_empty hfind hslash' htext before]
        simp
      · have hnext :=
          (find_inside hbefore.noLinks hfind (by simpa using hslash') (by simpa using hnul')
          htext).mpr (by simpa using hpiece)
        rw [isThere_of_find hfind hnext, isThere_of_find (find_directory_of_grows h hbefore hfind)
          (find_directory_of_grows h hbefore hnext), if_pos rfl, if_pos rfl]
        exact ih hslash hnul hnext hrest

/-- The name of a compiled file in a directory, from the entries of a tree. -/
def compiledName? [Encoding] (stem : String) (base : Location) : Location × Node → Option String
  | (name :: rest, .file _ _) =>
    if rest = base ∧ isProper name ∧ isNamedFor stem name then some name else none
  | _ => none

theorem text_inside_ne (path : Path) (hname : IsName name) : (inside path name).text ≠ "" := by
  intro htext
  have hfilled : name.toList ≠ [] := hname.proper.filled
  have hchars : (inside path name).chars = [] := String.toList_eq_nil_iff.mpr htext
  unfold inside at hchars
  split at hchars
  · exact hfilled hchars
  · rcases chars_join path (isAbsolute_name hname.noSlash) with
      ⟨-, hjoined⟩ | ⟨_, _, _, _, _, hjoined⟩
    · exact hfilled (hjoined.symm.trans hchars)
    · rw [hjoined] at hchars
      simp at hchars

theorem filter_isCompiled [Encoding] (h : IsPlain tree here)
    (hfind : find tree here directory = .ok (base, .directory))
    (stem : String) :
    (namesIn tree base).filter (isCompiled tree here stem directory) =
      tree.entries.filterMap (compiledName? stem base) := by
  rw [namesIn, List.filter_filterMap]
  refine List.filterMap_congr fun e he => ?_
  obtain ⟨l, node⟩ := e
  cases l with
  | nil => cases node <;> rfl
  | cons name rest =>
      by_cases hrest : rest = base
      · subst hrest
        have hname := h.wellFormed.names _ he name List.mem_cons_self
        have hnode := h.wellFormed.node?_of_mem he (by simp)
        have hfound : find tree here (inside directory name) = .ok (name :: rest, node) :=
          (find_inside h.noLinks hfind hname.noSlash hname.noNul
            (text_inside_ne directory hname)).mpr (by
            rw [descend_name _ hname.proper, String.ofList_toList,
              if_neg (by simpa using hname.short), hnode]
            cases node with
            | file content mode => rfl
            | directory => rw [descend]
            | link target => exact absurd hnode (h.noLinks _ _))
        cases node with
        | file content mode => 
            cases hproper : isProper name <;> cases hstem : isNamedFor stem name <;>
              simp [compiledName?, isCompiled, isFile, hfound, hproper, hstem]
        | directory => simp [compiledName?, isCompiled, isFile, hfound]
        | link target => exact absurd hnode (h.noLinks _ _)
      · cases node <;> simp [compiledName?, hrest]

theorem filterMap_compiledName? [Encoding] (h : Grows changing here before after) (stem : String)
    (hfixed : ∀ name, changing (name :: base) = true → isNamedFor stem name = false) :
    after.entries.filterMap (compiledName? stem base) =
      before.entries.filterMap (compiledName? stem base) := by
  have hkept : ∀ entries : List (Location × Node),
      entries.filterMap (compiledName? stem base) =
        (entries.filter (isFixed changing)).filterMap (compiledName? stem base) := by
    intro entries
    rw [List.filterMap_filter]
    refine List.filterMap_congr fun e _ => ?_
    split
    · rfl
    · rename_i hchanging
      obtain ⟨_ | ⟨name, rest⟩, _ | _ | _⟩ := e
      all_goals try rfl
      rw [compiledName?, if_neg]
      rintro ⟨rfl, -, hstem⟩
      have hname : changing (name :: rest) = true := by simpa [isFixed, isRegular] using hchanging
      rw [hfixed name hname] at hstem
      cases hstem
  rw [hkept, h.files, ← hkept]

theorem find_start (hlinks : HasNoLinks tree) {written : Path}
    (h : find tree here written = .ok (base, .directory)) :
    ∃ location, find tree here (start written).1 = .ok (location, .directory) ∧
      descend tree true location (pieces '/' (start written).2) =
        .arrived (.found base .directory) ∧
      '\x00' ∉ (start written).2 := by
  obtain ⟨-, hnul, hdescend⟩ := (find_eq_ok_iff hlinks).mp h
  unfold start
  rw [startOf] at hdescend
  split at hdescend
  · rename_i habsolute
    obtain ⟨rest, hchars⟩ : ∃ rest, written.chars = '/' :: rest := by
      unfold Path.isAbsolute at habsolute
      cases htext : written.chars with
      | nil =>
          rw [htext] at habsolute
          cases habsolute
      | cons c rest => exact ⟨rest, by simpa [htext] using habsolute⟩
    rw [hchars, pieces, if_pos rfl, descend_idle _ rfl] at hdescend
    rw [if_pos habsolute, hchars]
    have hroot : find tree here ⟨"/"⟩ = .ok ([], .directory) :=
      (find_eq_ok_iff hlinks).mpr ⟨by decide, by decide, descend_all_idle (by decide)⟩
    rw [hchars] at hnul
    exact ⟨[], hroot, hdescend, fun hmem => hnul (List.mem_cons_of_mem _ hmem)⟩
  · rename_i hrelative
    rw [if_neg hrelative]
    have hcurrent : find tree here ⟨"."⟩ = .ok (here, .directory) :=
      (find_eq_ok_iff hlinks).mpr ⟨by decide, by decide, descend_all_idle (by decide)⟩
    exact ⟨here, hcurrent, hdescend, hnul⟩

/-- The compiled file that is found for a source stays the same. -/
theorem artifact_of_grows [Encoding] (h : Grows changing here before after)
    (hbefore : IsPlain before here)
    (hfind : find before here (shownDirectory source) = .ok (base, .directory))
    (hfixed : ∀ stem name, changing (name :: base) = true → isNamedFor stem name = false) :
    artifact? after here source = artifact? before here source := by
  obtain ⟨location, hstart, hdescend, hnul⟩ := find_start hbefore.noLinks hfind
  obtain ⟨hspelled, hdirectory⟩ := respell_of_grows h hbefore (fun piece => not_mem_of_mem_pieces)
    (fun piece hpiece hmem => hnul (mem_of_mem_pieces hpiece hmem).1) hstart hdescend
  rw [artifact?_eq, artifact?_eq, spelled, hspelled, ← spelled]
  cases source.stem?.filter isProper with
  | none => rw [Option.bind_none, Option.bind_none]
  | some stem =>
      cases hdir : spelled before here source with
      | none => simp only [Option.bind_some, Option.bind_none]
      | some directory =>
          have hfound := hdirectory directory hdir
          have hfound' := find_directory_of_grows h hbefore hfound
          simp only [Option.bind_some, hfound, hfound']
          rw [filter_isCompiled hbefore hfound, filter_isCompiled h.plain hfound',
            filterMap_compiledName? h stem (hfixed stem)]

end Cythonizer.Proofs.Packaging.Artifacts
