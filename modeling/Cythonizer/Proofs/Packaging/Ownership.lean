import Cythonizer.Proofs.Packaging.Spellings

/-!
Whose compiled file is shipped for a source. A compiled file that is named for a source may be named
for another source of the directory as well, if the stem of that one goes on behind a dot. The first
of the compiled files named for a source is shipped for it (`exists_artifact`), so every source is
shipped with a file of its own exactly if none of these first files belongs to a source with a
longer stem and no file is missed because its name is no text (`ships_own_iff`).
-/

namespace Cythonizer.Proofs.Packaging.Ownership

open Cythonizer.FileTree.Access
open Cythonizer.FileTree.Basic
open Cythonizer.FileTree.Resolution
open Cythonizer.Packaging.Artifact
open Cythonizer.Path.Basic
open Cythonizer.Project.Sources
open Cythonizer.Proofs.Packaging.Artifacts
open Cythonizer.Proofs.Packaging.Spellings
open Cythonizer.Proofs.Path.Names
open Cythonizer.Proofs.Project.Walk

variable {tree other : FileTree} {here location : Location} {written source path : Path}
    {stem name : String}

/-! ### Sources and compiled files of a directory -/

section

variable (tree : FileTree) (here : Location) (written : Path) (location : Location)

/-- A source in a directory, with its stem. -/
structure IsSourceIn (stem : String) (source : Path) : Prop where
  directory : directoryOf source = written
  stem : source.stem? = some stem
  extension : isSource source = true
  present : isFile tree here source = true

/-- The name of a compiled file in a directory that is named for a stem. What has the name may be a
link to a file. -/
structure IsCompiledFor (stem name : String) : Prop where
  listed : name ∈ namesIn tree location
  named : isNamedFor stem name = true
  file : isFile tree here (inside written name) = true

/-- The compiled file named for a stem that comes first in the order of names, among those whose
names are texts. -/
structure IsFirstFor [Encoding] (stem name : String) : Prop where
  compiled : IsCompiledFor tree here written location stem name
  proper : isProper name = true
  first : ∀ later, IsCompiledFor tree here written location stem later →
    isProper later = true → ¬later < name

/-- A compiled file of the module with a stem: one that is named for it and for no source with a
longer stem. -/
structure IsOwnOf (stem name : String) : Prop where
  compiled : IsCompiledFor tree here written location stem name
  longest : ∀ longer source, IsSourceIn tree here written longer source →
    isNamedFor longer name = true →
    longer.length ≤ stem.length

/-- No source of a directory is shipped with a compiled file of another one. -/
structure ShipsOwn [Encoding] : Prop where
  /-- Two sources never get the same file. -/
  apart : ∀ stem source stem' source', IsSourceIn tree here written stem source →
    IsSourceIn tree here written stem' source' → stem ≠ stem' →
    ∀ path, artifact? tree here source = some path → artifact? tree here source' ≠ some path
  /-- What a source gets is a compiled file in its directory, and not the one with the stem of
  another source. -/
  beside : ∀ stem source, IsSourceIn tree here written stem source →
    ∀ path, artifact? tree here source = some path →
      ∃ name, path.fileName? = some name ∧ find tree here path =
        find tree here (inside written name) ∧
        IsCompiledFor tree here written location stem name ∧
        ∀ stem' source', IsSourceIn tree here written stem' source' → stem' ≠ stem →
          name ≠ stem' ++ ".so"
  /-- A source gets none exactly if its module has none. -/
  none_iff : ∀ stem source, IsSourceIn tree here written stem source →
    (artifact? tree here source = none ↔ ∀ name, ¬IsOwnOf tree here written location stem name)

/-- For every source of a directory, the first of the compiled files named for it is its own, and
there is a first one if it has one of its own. -/
structure FirstIsOwn [Encoding] : Prop where
  own : ∀ stem source name, IsSourceIn tree here written stem source →
    IsFirstFor tree here written location stem name → IsOwnOf tree here written location stem name
  exists_first : ∀ stem source name, IsSourceIn tree here written stem source →
    IsOwnOf tree here written location stem name →
      ∃ first, IsFirstFor tree here written location stem first

end

/-! ### Names for a stem -/

theorem isNamedFor_iff :
    isNamedFor stem name = true ↔
      (stem.toList ++ ['.']) <+: name.toList ∧
      (cutAtDot name.toList).2 = some compiledExtension.toList := by
  rw [isNamedFor, Bool.and_eq_true, List.isPrefixOf_iff_prefix, beq_iff_eq]

theorem prefix_of_isNamedFor {longer : String} (h : isNamedFor stem name = true)
    (hlonger : isNamedFor longer name = true) (hlength : stem.length ≤ longer.length) :
    (stem.toList ++ ['.']) <+: longer.toList ++ ['.'] := by
  refine List.prefix_of_prefix_length_le (isNamedFor_iff.mp h).1 (isNamedFor_iff.mp hlonger).1 ?_
  simpa [String.length_toList] using hlength

theorem isNamedFor_of_prefix {longer : String}
    (hstarts : (stem.toList ++ ['.']) <+: longer.toList ++ ['.'])
    (h : isNamedFor longer name = true) : isNamedFor stem name = true := by
  rw [isNamedFor_iff] at h ⊢
  exact ⟨hstarts.trans h.1, h.2⟩

theorem eq_of_isNamedFor {stem' : String} (h : isNamedFor stem name = true)
    (h' : isNamedFor stem' name = true)
    (hlength : stem.length = stem'.length) : stem = stem' := by
  have hstarts := prefix_of_isNamedFor h h' hlength.le
  have heq := hstarts.eq_of_length (by simp [String.length_toList, hlength])
  exact String.toList_inj.mp (List.append_cancel_right heq)

theorem isNamedFor_append (hstem : stem ≠ "") : isNamedFor stem (stem ++ ".so") = true := by
  have hfilled : stem.toList ≠ [] := fun hempty => hstem (String.toList_eq_nil_iff.mp hempty)
  rw [isNamedFor_iff, show (stem ++ ".so").toList = stem.toList ++ '.' :: ['s', 'o'] by simp,
    cutAtDot_append stem.toList hfilled (by decide)]
  exact ⟨⟨['s', 'o'], by simp⟩, rfl⟩

theorem length_le_of_isNamedFor {stem' : String} (h : isNamedFor stem (stem' ++ ".so") = true) :
    stem.length ≤ stem'.length := by
  obtain ⟨rest, hrest⟩ := (isNamedFor_iff.mp h).1
  by_contra hlonger
  have hdot : (stem' ++ ".so").toList[stem.toList.length]? = some '.' := by
    rw [← hrest]
    simp
  have hshort : stem'.toList.length < stem.toList.length := by
    rw [String.length_toList, String.length_toList]
    exact not_le.mp hlonger
  rw [show (stem' ++ ".so").toList = stem'.toList ++ ['.', 's', 'o'] by simp,
    List.getElem?_append_right hshort.le] at hdot
  obtain ⟨n, hn⟩ : ∃ n, stem.toList.length - stem'.toList.length = n + 1 :=
    Nat.exists_eq_succ_of_ne_zero (by omega)
  rw [hn] at hdot
  match n with
  | 0 => simp at hdot
  | 1 => simp at hdot
  | n + 2 => simp at hdot

theorem IsSourceIn.stem_ne (h : IsSourceIn tree here written stem source) : stem ≠ "" := by
  obtain ⟨name, hname, hstem⟩ := Option.map_eq_some_iff.mp h.stem
  have hsource := h.extension
  rw [isSource, beq_iff_eq, Path.extension?, hname, Option.bind_some] at hsource
  obtain ⟨extension, hextension, -⟩ := Option.map_eq_some_iff.mp hsource
  have hcut := eq_of_cutAtDot (Prod.ext rfl hextension : cutAtDot name.toList = (_, some extension))
  rintro rfl
  exact hcut.2 (by simpa using congrArg String.toList hstem)

/-! ### The first name -/

theorem least_eq_none_iff {names : List String} : least names = none ↔ names = [] := by
  cases names with
  | nil => simp [least]
  | cons first rest =>
      rw [least]
      split
      · split <;> simp
      · simp

theorem not_lt_least {names : List String} (h : least names = some name) :
    ∀ later ∈ names, ¬later < name := by
  induction names generalizing name with
  | nil => cases h
  | cons first rest ih =>
      intro later hlater
      rw [least] at h
      split at h
      · rename_i least hleast
        split at h
        · rename_i hless
          cases h
          rcases List.mem_cons.mp hlater with rfl | hrest
          · exact fun hlt => String.lt_irrefl _ (String.lt_trans hlt hless)
          · exact ih hleast later hrest
        · rename_i hless
          cases h
          rcases List.mem_cons.mp hlater with rfl | hrest
          · exact String.lt_irrefl _
          · exact String.not_lt.mpr
              (String.le_trans (String.not_lt.mp hless) (String.not_lt.mp (ih hleast later hrest)))
      · rename_i hleast
        cases h
        rw [least_eq_none_iff.mp hleast, List.mem_singleton] at hlater
        exact hlater ▸ String.lt_irrefl _

theorem least_eq_some_iff {names : List String} :
    least names = some name ↔ name ∈ names ∧ ∀ later ∈ names, ¬later < name := by
  refine ⟨fun h => ⟨mem_of_least h, not_lt_least h⟩, fun ⟨hmem, hfirst⟩ => ?_⟩
  cases h : least names with
  | none => simp [least_eq_none_iff.mp h] at hmem
  | some found =>
      have hle := String.not_lt.mp (hfirst found (mem_of_least h))
      have hge := String.not_lt.mp (not_lt_least h name hmem)
      rw [String.le_antisymm hge hle]

/-! ### The file that is shipped -/

theorem fileName?_inside (path : Path) (hname : IsName name) :
    (inside path name).fileName? = some name := by
  unfold inside
  split
  · have hends : Ends ⟨name⟩ [] name.toList := ⟨rfl, .inl rfl, hname.noSlash⟩
    rw [hends.fileName hname.proper, String.ofList_toList]
  · obtain ⟨front, hends, -⟩ := @join_ends path name hname.noSlash
    rw [hends.fileName hname.proper, String.ofList_toList]

theorem isName_of_mem (htree : WellFormed tree) (h : name ∈ namesIn tree location) :
    IsName name := by
  obtain ⟨node, hentry⟩ := mem_of_mem_namesIn h
  exact htree.names _ hentry name List.mem_cons_self

theorem isProper_of_isNamedFor [Encoding] (h : isNamedFor stem name = true)
    (hproper : isProper name = true) :
    isProper stem = true := by
  have hstarts := ((List.prefix_append stem.toList ['.']).trans (isNamedFor_iff.mp h).1).subset
  rw [isProper, List.all_eq_true] at hproper ⊢
  exact fun c hc => hproper c (hstarts hc)

section

variable [Encoding]

theorem mem_filter_isCompiled :
    name ∈ (namesIn tree location).filter (isCompiled tree here stem written) ↔
      IsCompiledFor tree here written location stem name ∧ isProper name = true := by
  rw [List.mem_filter, isCompiled, Bool.and_eq_true, Bool.and_eq_true]
  constructor
  · rintro ⟨hlisted, ⟨hproper, hnamed⟩, hfile⟩
    exact ⟨⟨hlisted, hnamed, hfile⟩, hproper⟩
  · rintro ⟨⟨hlisted, hnamed, hfile⟩, hproper⟩
    exact ⟨hlisted, ⟨hproper, hnamed⟩, hfile⟩

theorem least_isCompiled :
    least ((namesIn tree location).filter (isCompiled tree here stem written)) = some name ↔
      IsFirstFor tree here written location stem name := by
  simp only [least_eq_some_iff, mem_filter_isCompiled]
  constructor
  · rintro ⟨⟨hcompiled, hproper⟩, hfirst⟩
    exact ⟨hcompiled, hproper, fun later hlater hlaterProper => hfirst later ⟨hlater, hlaterProper⟩⟩
  · rintro ⟨hcompiled, hproper, hfirst⟩
    exact ⟨⟨hcompiled, hproper⟩, fun later hlater => hfirst later hlater.1 hlater.2⟩

variable (htree : WellFormed tree) (hfind : find tree here written = .ok (location, .directory))
  (hproper : written.isProper = true)
include htree hfind hproper

/-- A source gets the first of the compiled files that are named for it, as a path in its directory.
-/
theorem exists_artifact (hplain : IsPlainlyWritten written) :
    ∃ directory, SpellsSame tree here directory written ∧
      ∀ stem source, directoryOf source = written → source.stem? = some stem →
        ∀ path, artifact? tree here source = some path ↔
          ∃ name, IsFirstFor tree here written location stem name ∧
            inside directory name = path := by
  obtain ⟨directory, hspelled, hsame⟩ := exists_spelled hplain hfind
  refine ⟨directory, hsame, fun stem source hdirectory hstem path => ?_⟩
  have hthere : find tree here directory = .ok (location, .directory) := hsame.find_eq.trans hfind
  have hcompiled : (namesIn tree location).filter (isCompiled tree here stem directory) =
      (namesIn tree location).filter (isCompiled tree here stem written) :=
    List.filter_congr fun name hlisted => by
      rw [isCompiled, isFile, hsame.inside_eq (isName_of_mem htree hlisted), ← isFile, ← isCompiled]
  have hshown : shownDirectory source = written := by
    rw [shownDirectory, hdirectory, Path.shown_eq hproper]
  rw [artifact?_eq, hstem, spelled, hshown, hspelled]
  cases hstemProper : isProper stem with
  | true =>
      rw [Option.filter_some_pos hstemProper, Option.bind_some, Option.bind_some, hthere]
      simp only [hcompiled, Option.map_eq_some_iff, least_isCompiled]
  | false =>
      rw [Option.filter_some_neg (by simp [hstemProper]), Option.bind_none]
      refine iff_of_false (by simp) ?_
      rintro ⟨name, hfirst, -⟩
      rw [isProper_of_isNamedFor hfirst.compiled.named hfirst.proper] at hstemProper
      cases hstemProper

theorem firstIsOwn_of_shipsOwn (hplain : IsPlainlyWritten written)
    (h : ShipsOwn tree here written location) :
    FirstIsOwn tree here written location := by
  obtain ⟨directory, -, hartifact⟩ := exists_artifact htree hfind hproper hplain
  refine ⟨fun stem source name hsource hfirst => ?_, fun stem source name hsource hown => ?_⟩
  · refine ⟨hfirst.compiled, fun longer source' hsource' hnamed => ?_⟩
    by_contra hlonger
    have hstarts := prefix_of_isNamedFor hfirst.compiled.named hnamed (not_le.mp hlonger).le
    -- what is compiled for the longer stem is compiled for the shorter one, so the first one is the
    -- same
    have hfirst' : IsFirstFor tree here written location longer name :=
      ⟨⟨hfirst.compiled.listed, hnamed, hfirst.compiled.file⟩, hfirst.proper, fun later hlater =>
        hfirst.first later ⟨hlater.listed, isNamedFor_of_prefix hstarts hlater.named, hlater.file⟩⟩
    refine h.apart stem source longer source' hsource hsource' ?_ (inside directory name)
      ((hartifact stem source hsource.directory hsource.stem _).mpr ⟨name, hfirst, rfl⟩)
      ((hartifact longer source' hsource'.directory hsource'.stem _).mpr ⟨name, hfirst', rfl⟩)
    rintro rfl
    exact hlonger le_rfl
  · obtain ⟨path, hpath⟩ := Option.ne_none_iff_exists'.mp fun hnone =>
      (h.none_iff stem source hsource).mp hnone name hown
    obtain ⟨first, hfirst, -⟩ :=
      (hartifact stem source hsource.directory hsource.stem path).mp hpath
    exact ⟨first, hfirst⟩

theorem shipsOwn_of_firstIsOwn (hplain : IsPlainlyWritten written)
    (h : FirstIsOwn tree here written location) : ShipsOwn tree here written location := by
  obtain ⟨directory, hsame, hartifact⟩ := exists_artifact htree hfind hproper hplain
  constructor
  · intro stem source stem' source' hsource hsource' hne path hpath hpath'
    obtain ⟨name, hfirst, rfl⟩ :=
      (hartifact stem source hsource.directory hsource.stem path).mp hpath
    obtain ⟨name', hfirst', heq⟩ :=
      (hartifact stem' source' hsource'.directory hsource'.stem _).mp hpath'
    obtain rfl : name = name' := by
      have hfile := congrArg Path.fileName? heq
      rw [fileName?_inside _ (isName_of_mem htree hfirst.compiled.listed),
        fileName?_inside _ (isName_of_mem htree hfirst'.compiled.listed)] at hfile
      exact (Option.some.inj hfile).symm
    have hle :=
      (h.own stem source name hsource hfirst).longest stem' source' hsource' hfirst'.compiled.named
    have hge :=
      (h.own stem' source' name hsource' hfirst').longest stem source hsource hfirst.compiled.named
    exact hne (eq_of_isNamedFor hfirst.compiled.named hfirst'.compiled.named (hge.antisymm hle))
  · intro stem source hsource path hpath
    obtain ⟨name, hfirst, rfl⟩ :=
      (hartifact stem source hsource.directory hsource.stem path).mp hpath
    have hname := isName_of_mem htree hfirst.compiled.listed
    refine ⟨name, fileName?_inside directory hname, hsame.inside_eq hname, hfirst.compiled, ?_⟩
    rintro stem' source' hsource' hne rfl
    have hnamed := isNamedFor_append hsource'.stem_ne
    have hle := (h.own stem source _ hsource hfirst).longest stem' source' hsource' hnamed
    have hge := length_le_of_isNamedFor hfirst.compiled.named
    exact hne (eq_of_isNamedFor hnamed hfirst.compiled.named (hle.antisymm hge))
  · intro stem source hsource
    constructor
    · intro hnone name hown
      obtain ⟨first, hfirst⟩ := h.exists_first stem source name hsource hown
      have hsome := (hartifact stem source hsource.directory hsource.stem _).mpr
        ⟨first, hfirst, rfl⟩
      rw [hnone] at hsome
      cases hsome
    · intro hown
      rw [Option.eq_none_iff_forall_ne_some]
      intro path hpath
      obtain ⟨name, hfirst, -⟩ :=
        (hartifact stem source hsource.directory hsource.stem path).mp hpath
      exact hown name (h.own stem source name hsource hfirst)

end

/-! ### The order of a directory -/

section

variable (h : ∀ location, other.node? location = tree.node? location)
include h

theorem descend_of_node? {followLast : Bool} (way : List (List Char)) :
    descend other followLast here way = descend tree followLast here way := by
  induction way generalizing here with
  | nil => rfl
  | cons piece rest ih =>
      unfold descend
      simp only [h, ih]

theorem travel_of_node? {followLast : Bool} {links : Nat} (way : List (List Char)) :
    travel other followLast links here way = travel tree followLast links here way := by
  induction links generalizing here way with
  | zero =>
      unfold travel
      rw [descend_of_node? h]
  | succ links ih =>
      unfold travel
      simp only [descend_of_node? h, ih]

theorem find_of_node? (path : Path) : find other here path = find tree here path := by
  unfold find resolve
  simp only [travel_of_node? h]

theorem respell_of_node? (path : Path) (way : List (List Char)) :
    respell other here path way = respell tree here path way := by
  induction way generalizing path with
  | nil => rfl
  | cons piece rest ih =>
      rw [respell_cons, respell_cons, ih, isThere, isThere, isDirectory, isDirectory, holds, holds,
        find_of_node? h, find_of_node? h]

end

theorem node?_of_perm (hunique : (tree.entries.map Prod.fst).Nodup)
    (hperm : other.entries.Perm tree.entries)
    (location : Location) : other.node? location = tree.node? location := by
  by_cases hroot : location = []
  · rw [FileTree.node?, FileTree.node?, if_pos hroot, if_pos hroot]
  · have hunique' : (other.entries.map Prod.fst).Nodup := (hperm.map Prod.fst).nodup_iff.mpr hunique
    refine Option.ext fun node => ⟨fun h => ?_, fun h => ?_⟩
    · exact node?_of_mem hunique (hperm.mem_iff.mp (mem_of_node? hroot h)) hroot
    · exact node?_of_mem hunique' (hperm.mem_iff.mpr (mem_of_node? hroot h)) hroot

theorem least_of_perm {names names' : List String} (h : names'.Perm names) :
    least names' = least names := by
  refine Option.ext fun name => ?_
  rw [least_eq_some_iff, least_eq_some_iff, h.mem_iff]
  simp only [h.mem_iff]

theorem artifact?_of_perm [Encoding] (hunique : (tree.entries.map Prod.fst).Nodup)
    (hperm : other.entries.Perm tree.entries) (source : Path) :
    artifact? other here source = artifact? tree here source := by
  have hnode := node?_of_perm hunique hperm
  have hcompiled : ∀ stem directory location,
      least ((namesIn other location).filter (isCompiled other here stem directory)) =
        least ((namesIn tree location).filter (isCompiled tree here stem directory)) := by
    intro stem directory location
    have hisCompiled : isCompiled other here stem directory =
      isCompiled tree here stem directory := by
      funext name
      rw [isCompiled, isCompiled, isFile, isFile, find_of_node? hnode]
    rw [hisCompiled]
    exact least_of_perm ((hperm.filterMap _).filter _)
  simp only [artifact?_eq, spelled, respell_of_node? hnode, find_of_node? hnode, hcompiled]

/-- Every source of a plainly written directory gets a compiled file of its own, and none exactly if
it has none, if and only if the first of the compiled files named for it is not named for another
source with a longer stem as well, and no source has compiled files of its own of which no name is a
text. In a directory that is not plainly written, none is found. The order of the directory does not
matter. -/
theorem ships_own_iff [Encoding] (htree : WellFormed tree)
    (hfind : find tree here written = .ok (location, .directory))
    (hproper : written.isProper = true) :
    (IsPlainlyWritten written →
      (ShipsOwn tree here written location ↔ FirstIsOwn tree here written location)) ∧
    (¬IsPlainlyWritten written → ∀ source, directoryOf source = written →
      artifact? tree here source = none) ∧
    ∀ other : FileTree, other.entries.Perm tree.entries →
      ∀ source, artifact? other here source = artifact? tree here source := by
  refine ⟨fun hplain => ⟨firstIsOwn_of_shipsOwn htree hfind hproper hplain,
      shipsOwn_of_firstIsOwn htree hfind hproper hplain⟩,
    fun hplain source hdirectory => ?_, fun other hperm => artifact?_of_perm htree.unique hperm⟩
  have hshown : shownDirectory source = written := by
    rw [shownDirectory, hdirectory, Path.shown_eq hproper]
  rw [artifact?_eq, spelled, hshown, respell_eq_none hplain]
  cases source.stem?.filter isProper <;> rfl

/-- A directory with two sources, where the stem of the one goes on behind a dot, and compiled files
of both. -/
def bothCompiled : FileTree :=
  { entries :=
      [(["p"], .directory), (["a.py", "p"], .file .empty false),
        (["a.b.py", "p"], .file .empty false),
        (["a.b.so", "p"], .file .empty false), (["a.abi.so", "p"], .file .empty false)] }

theorem wellFormed_bothCompiled : WellFormed bothCompiled where
  names := by decide +kernel
  parents := by decide +kernel
  unique := by decide

theorem ships_own_bothCompiled :
    WellFormed bothCompiled ∧ find bothCompiled [] ⟨"p"⟩ = .ok (["p"], .directory) ∧
      Path.isProper ⟨"p"⟩ = true ∧
      artifact? bothCompiled [] ⟨"p/a.py"⟩ = some ⟨"p/a.abi.so"⟩ ∧
      artifact? bothCompiled [] ⟨"p/a.b.py"⟩ = some ⟨"p/a.b.so"⟩ ∧
      (ShipsOwn bothCompiled [] ⟨"p"⟩ ["p"] ↔ FirstIsOwn bothCompiled [] ⟨"p"⟩ ["p"]) ∧
      ∀ other : FileTree, other.entries.Perm bothCompiled.entries →
        artifact? other [] ⟨"p/a.py"⟩ = some ⟨"p/a.abi.so"⟩ := by
  have hfind : find bothCompiled [] ⟨"p"⟩ = .ok (["p"], .directory) := by decide +kernel
  have hartifact : artifact? bothCompiled [] ⟨"p/a.py"⟩ = some ⟨"p/a.abi.so"⟩ := by decide +kernel
  obtain ⟨hplain, -, horder⟩ := ships_own_iff wellFormed_bothCompiled hfind (by simp)
  exact ⟨wellFormed_bothCompiled, hfind, by simp, hartifact, by decide +kernel,
    hplain (.inr (by decide)),
    fun other hperm => (horder other hperm _).trans hartifact⟩

/-- The same directory before the first of the two sources is compiled. -/
def secondCompiled : FileTree :=
  { entries :=
      [(["p"], .directory), (["a.py", "p"], .file .empty false),
        (["a.b.py", "p"], .file .empty false),
        (["a.b.so", "p"], .file .empty false)] }

theorem other_compiled_shipped :
    ¬∀ (tree : FileTree) (here : Location) (written : Path) (location : Location), WellFormed tree →
      find tree here written = .ok (location, .directory) → IsPlainlyWritten written →
        ShipsOwn tree here written location := by
  intro h
  have htree : WellFormed secondCompiled :=
    { names := by decide +kernel, parents := by decide +kernel, unique := by decide }
  have hships := h secondCompiled [] ⟨"p"⟩ ["p"] htree (by decide +kernel) (.inr (by decide))
  have hfirst : IsSourceIn secondCompiled [] ⟨"p"⟩ "a" ⟨"p/a.py"⟩ :=
    { directory := by decide +kernel, stem := by decide +kernel, extension := by decide +kernel,
      present := by decide +kernel }
  have hsecond : IsSourceIn secondCompiled [] ⟨"p"⟩ "a.b" ⟨"p/a.b.py"⟩ :=
    { directory := by decide +kernel, stem := by decide +kernel, extension := by decide +kernel,
      present := by decide +kernel }
  exact hships.apart "a" _ "a.b" _ hfirst hsecond (by decide) ⟨"p/a.b.so"⟩ (by decide +kernel)
    (by decide +kernel)

end Cythonizer.Proofs.Packaging.Ownership
