import Cythonizer.Compiler.Command
import Cythonizer.Project.Sources
import Cythonizer.Proofs.FileTree.Frames

namespace Cythonizer.Proofs.Project.Walk

open Cythonizer.Compiler.Command
open Cythonizer.FileTree.Access
open Cythonizer.FileTree.Basic
open Cythonizer.FileTree.Resolution
open Cythonizer.Path.Basic
open Cythonizer.Project.Sources
open Cythonizer.Text.Pieces
open Cythonizer.Proofs.FileTree.Frames
open Cythonizer.Proofs.Path.Names

variable {tree before after : FileTree} {here base location : Location} {node : Node}

/-- A name that something in a directory can have. -/
structure IsName (name : String) : Prop where
  proper : IsProper name.toList
  noSlash : '/' ∉ name.toList
  noNul : '\x00' ∉ name.toList
  short : name.utf8ByteSize ≤ nameLimit

instance (name : String) : Decidable (IsName name) :=
  decidable_of_iff
    ((name.toList ≠ [] ∧ name.toList ≠ ['.'] ∧ name.toList ≠ ['.', '.']) ∧ '/' ∉ name.toList ∧
      '\x00' ∉ name.toList ∧ name.utf8ByteSize ≤ nameLimit)
    ⟨fun ⟨⟨hfilled, hcurrent, hparent⟩, hslash, hnul, hshort⟩ =>
      ⟨⟨hfilled, hcurrent, hparent⟩, hslash, hnul, hshort⟩,
    fun h => ⟨⟨h.proper.filled, h.proper.notCurrent, h.proper.notParent⟩, h.noSlash,
      h.noNul, h.short⟩⟩

/-- A tree of files in which every entry has a location of its own, in a directory. -/
structure WellFormed (tree : FileTree) : Prop where
  names : ∀ e ∈ tree.entries, ∀ name ∈ e.1, IsName name
  parents : ∀ e ∈ tree.entries, tree.node? e.1.tail = some .directory
  unique : (tree.entries.map Prod.fst).Nodup

theorem node?_of_mem (hunique : (tree.entries.map Prod.fst).Nodup)
    (hmem : (location, node) ∈ tree.entries)
    (hroot : location ≠ []) : tree.node? location = some node := by
  have hfind : ∀ entries : List (Location × Node), (entries.map Prod.fst).Nodup →
      (location, node) ∈ entries →
      entries.find? (fun e => decide (e.1 = location)) = some (location, node) := by
    intro entries hunique hmem
    induction entries with
    | nil => cases hmem
    | cons e rest ih =>
        rw [List.map_cons, List.nodup_cons] at hunique
        rcases List.mem_cons.mp hmem with rfl | hmem
        · simp
        · have hne : e.1 ≠ location := by
            rintro rfl
            exact hunique.1 (List.mem_map.mpr ⟨_, hmem, rfl⟩)
          rw [List.find?_cons_of_neg (by simpa using hne)]
          exact ih hunique.2 hmem
  rw [FileTree.node?, if_neg hroot, hfind tree.entries hunique hmem]
  rfl

theorem mem_of_node? (hroot : location ≠ []) (h : tree.node? location = some node) :
    (location, node) ∈ tree.entries := by
  rw [FileTree.node?, if_neg hroot, Option.map_eq_some_iff] at h
  obtain ⟨⟨found, node⟩, hfind, rfl⟩ := h
  obtain rfl : found = location := by simpa using List.find?_some hfind
  exact List.mem_of_find?_eq_some hfind

theorem WellFormed.node?_of_mem (h : WellFormed tree) (hmem : (location, node) ∈ tree.entries)
    (hroot : location ≠ []) : tree.node? location = some node :=
  Walk.node?_of_mem h.unique hmem hroot

theorem WellFormed.parent {name : String} (h : WellFormed tree)
    (hnode : tree.node? (name :: location) = some node) :
    IsName name ∧ tree.node? location = some .directory := by
  rw [FileTree.node?, if_neg (by simp), Option.map_eq_some_iff] at hnode
  obtain ⟨⟨l, n⟩, hfind, -⟩ := hnode
  have hl : l = name :: location := by simpa using List.find?_some hfind
  subst hl
  have hmem := List.mem_of_find?_eq_some hfind
  exact ⟨h.names _ hmem name List.mem_cons_self, h.parents _ hmem⟩

section

variable {path : Path} {name : String}

theorem join_ends (hname : '/' ∉ name.toList) :
    ∃ front, Ends (path.join ⟨name⟩) front name.toList ∧
      (front = path.chars ∨ path.chars ≠ [] ∧ front = path.chars ++ ['/']) := by
  have hrelative : Path.isAbsolute ⟨name⟩ = false := by
    unfold Path.isAbsolute Path.chars
    cases h : name.toList with
    | nil => rfl
    | cons c rest =>
        have hc : c ≠ '/' := by
          rintro rfl
          exact hname (by simp [h])
        simpa using hc
  unfold Path.join
  rw [if_neg (by simp [hrelative])]
  split
  · rename_i hempty
    refine ⟨path.chars, ⟨by simp [Path.chars], .inl (List.getLast?_eq_none_iff.mp hempty),
      hname⟩, .inl rfl⟩
  · rename_i hslash
    exact ⟨path.chars, ⟨by simp [Path.chars], .inr (List.getLast?_eq_some_iff.mp hslash),
      hname⟩, .inl rfl⟩
  · rename_i last _ hlast
    refine ⟨path.chars ++ ['/'], ⟨by simp [Path.chars], .inr ⟨path.chars, rfl⟩, hname⟩,
      .inr ⟨?_, rfl⟩⟩
    intro hempty
    rw [hempty] at hlast
    cases hlast

/-- A path inside a directory goes on from there. -/
theorem exists_resolve_inside {other : Path} {front new : List Char}
    (hdirectory : find tree here path = .ok (location, .directory)) (hends : Ends other front new)
    (hfront : front = path.chars ∨ path.chars ≠ [] ∧ front = path.chars ++ ['/'])
    (hnul : '\x00' ∉ new) :
    ∃ left, ∀ followLast place, resolve tree here other followLast = .ok place ↔
      travel tree followLast left location [new] = .ok place := by
  obtain ⟨htext, hclean, htravel⟩ := resolve_iff_travel.mp (find_iff_resolve.mp hdirectory)
  obtain ⟨c, rest, hchars⟩ : ∃ c rest, path.chars = c :: rest :=
    List.exists_cons_of_ne_nil fun hempty => htext (String.toList_eq_nil_iff.mp hempty)
  have hhead : front.head? = path.chars.head? := by
    rcases hfront with rfl | ⟨-, rfl⟩
    · rfl
    · rw [hchars]
      rfl
  have hpieces : ∃ idle, pieces '/' path.chars = above front ++ idle ∧
      ∀ piece ∈ idle, isIdle piece = true := by
    rcases hfront with rfl | ⟨-, rfl⟩
    · have hslash := @pieces_of_closed path.chars [] hends.closed (by simp)
      exact ⟨[[]], by simpa using hslash, by simp [isIdle]⟩
    · refine ⟨[], ?_, by simp⟩
      have hslash : pieces '/' (path.chars ++ ['/']) = pieces '/' path.chars ++ [[]] :=
        pieces_append '/' path.chars []
      rw [above, hslash, List.dropLast_concat, List.append_nil]
  obtain ⟨idle, hidle, hall⟩ := hpieces
  have hstart : startOf here other = startOf here path := by
    rw [startOf_of_ends hends, hhead]
    unfold startOf Path.isAbsolute
    simp
  have hother : other.text ≠ "" ∧ '\x00' ∉ other.chars := by
    refine ⟨fun hempty => ?_, ?_⟩
    · have hnone : other.chars = [] := by
        rw [Path.chars, hempty]
        rfl
      rw [hends.chars, List.append_eq_nil_iff] at hnone
      rw [hnone.1, hchars] at hhead
      cases hhead
    · rw [hends.chars, List.mem_append, not_or]
      refine ⟨?_, hnul⟩
      rcases hfront with rfl | ⟨-, rfl⟩
      · exact hclean
      · simpa using hclean
  rw [hidle] at htravel
  obtain ⟨left, hleft⟩ := travel_append idle hall htravel
  refine ⟨left, fun followLast place => ?_⟩
  rw [resolve_iff_travel, hstart, hends.pieces, hleft followLast [new] (by simp)]
  exact ⟨fun h => h.2.2, fun h => ⟨hother.1, hother.2, h⟩⟩

theorem find_join (hname : IsName name)
    (hdirectory : find tree here path = .ok (location, .directory))
    (hnode : tree.node? (name :: location) = some node) (hlink : ∀ target, node ≠ .link target) :
    find tree here (path.join ⟨name⟩) = .ok (name :: location, node) := by
  obtain ⟨front, hends, hfront⟩ := @join_ends path name hname.noSlash
  obtain ⟨left, hleft⟩ := exists_resolve_inside hdirectory hends hfront hname.noNul
  rw [find_iff_resolve, hleft, travel, descend_name _ hname.proper,
    if_neg (by simpa using hname.short),
    String.ofList_toList, hnode]
  cases node with
  | file content mode => rfl
  | directory => rfl
  | link target => exact absurd rfl (hlink target)

end

theorem pathBelow_append (root : Path) (names : List String) (name : String) :
    pathBelow root (names ++ [name]) = (pathBelow root names).join ⟨name⟩ := by
  simp [pathBelow]

/-- What is below a directory is found by the names on the way down. -/
theorem find_pathBelow {root : Path} (htree : WellFormed tree)
    (hroot : find tree here root = .ok (base, .directory)) (below : Location) (node : Node)
    (hnode : tree.node? (below ++ base) = some node) (hlink : ∀ target, node ≠ .link target)
    (hbelow : below ≠ []) : find tree here (pathBelow root below.reverse) =
      .ok (below ++ base, node) := by
  induction below generalizing node with
  | nil => exact absurd rfl hbelow
  | cons name below ih =>
      obtain ⟨hname, hparent⟩ := htree.parent hnode
      rw [List.reverse_cons, pathBelow_append]
      refine find_join hname ?_ hnode hlink
      by_cases hempty : below = []
      · subst hempty
        exact hroot
      · exact ih .directory hparent (by simp) hempty

theorem eq_of_namesBelow {names : List String} (h : namesBelow base location = some names) :
    ∃ below, names = below.reverse ∧ location = below ++ base := by
  unfold namesBelow at h
  split at h
  · rename_i hsuffix
    cases h
    obtain ⟨below, rfl⟩ := List.isSuffixOf_iff_suffix.mp hsuffix
    exact ⟨below, by simp, rfl⟩
  · cases h

/-- A path that leads to a regular file with the extension of a source. -/
def LeadsToSource (tree : FileTree) (here : Location) (path : Path) : Prop :=
  isSource path = true ∧
    ∃ location content mode, find tree here path = .ok (location, .file content mode)

theorem leadsToSource_of_sourceOf {exclusions : Exclusions} {root path : Path} {e : Location × Node}
    (htree : WellFormed tree) (hroot : find tree here root = .ok (base, .directory))
    (hmem : e ∈ tree.entries)
    (h : sourceOf exclusions root base e = some path) : LeadsToSource tree here path := by
  unfold sourceOf at h
  split at h
  · rename_i location content mode
    split at h
    · rename_i name rest hnames
      dsimp only at h
      split at h
      · rename_i hopen
        cases h
        obtain ⟨below, hbelow, rfl⟩ := eq_of_namesBelow hnames
        have hfilled : below ≠ [] := by
          rintro rfl
          cases hbelow
        have hnode := htree.node?_of_mem hmem (by simp [hfilled])
        have hfind := find_pathBelow htree hroot below _ hnode (by simp) hfilled
        rw [Bool.and_eq_true] at hopen
        exact ⟨hopen.2, _, content, mode, hbelow ▸ hfind⟩
      · cases h
    · cases h
  · cases h

theorem leadsToSource_of_mem [Encoding] {exclusions : Exclusions} {root path : Path}
    (htree : WellFormed tree)
    (hmem : .ok path ∈ sources exclusions tree here root) : LeadsToSource tree here path := by
  have hbelow : ∀ {base : Location}, find tree here root = .ok (base, .directory) →
      path ∈ sourcesBelow exclusions tree root base → LeadsToSource tree here path := by
    intro base hroot hmem
    obtain ⟨e, he, hsource⟩ := List.mem_filterMap.mp hmem
    exact leadsToSource_of_sourceOf htree hroot he hsource
  unfold sources at hmem
  split at hmem
  · simp at hmem
  · simp at hmem
  · rename_i location content mode hfile
    split at hmem
    · rename_i hsource
      rw [List.mem_singleton] at hmem
      cases hmem
      exact ⟨hsource, location, content, mode, find_iff_resolve.mpr
        (resolve_follow hfile (by simp))⟩
    · simp at hmem
  · rename_i base hdirectory
    exact hbelow (find_iff_resolve.mpr (resolve_follow hdirectory (by simp))) (by simpa using hmem)
  · split at hmem
    · rename_i hfind
      exact hbelow hfind (by simpa using hmem)
    · simp at hmem
    · simp at hmem

theorem exists_stem {path : Path} {front name : List Char} (hends : Ends path front name)
    (hname : IsProper name) (hsource : isSource path = true) :
    ∃ stem : String, name = (stem ++ ".py").toList ∧ stem ≠ "" := by
  rw [isSource, beq_iff_eq, Path.extension?, hends.fileName hname, Option.bind_some,
    String.toList_ofList] at hsource
  cases hcut : cutAtDot name with
  | mk stem found =>
      rw [hcut, Option.map_eq_some_iff] at hsource
      obtain ⟨extension, rfl, hpy⟩ := hsource
      obtain ⟨rfl, hstem⟩ := eq_of_cutAtDot hcut
      have hextension : extension = ['p', 'y'] :=
        by simpa [sourceExtension] using congrArg String.toList hpy
      exact ⟨String.ofList stem, by simp [hextension], by simpa using hstem⟩

/-- A source has a stem and the extension of sources, in its path and where the path leads to. -/
theorem LeadsToSource.ends {path : Path} (hlinks : HasNoLinks tree)
    (h : LeadsToSource tree here path) :
    ∃ front stem directory content mode, Ends path front (stem ++ ".py").toList ∧
      IsProper (stem ++ ".py").toList ∧ stem ≠ "" ∧
      find tree here path = .ok ((stem ++ ".py") :: directory, .file content mode) := by
  obtain ⟨hsource, location, content, mode, hfind⟩ := h
  obtain ⟨front, name, hends⟩ := exists_ends path
  have hfound := ((find_eq_ok_iff hlinks).mp hfind).2.2
  rw [hends.pieces] at hfound
  obtain ⟨directory, rfl, hname, -, -⟩ := descend_file hfound
  obtain ⟨stem, rfl, hstem⟩ := exists_stem hends hname hsource
  rw [String.ofList_toList] at hfind
  exact ⟨front, stem, directory, content, mode, hends, hname, hstem, hfind⟩

/-- The paths of a source and of the file that is written for it differ in their last names only. -/
theorem ends_intermediate {path : Path} {front : List Char} {stem : String}
    (hends : Ends path front (stem ++ ".py").toList) (hname : IsProper (stem ++ ".py").toList)
    (hstem : stem ≠ "") :
    Ends (intermediate path) front
      (if stem.toList = ['.'] then ['.', '.'] else stem.toList ++ '.' :: "pyx".toList) := by
  have hstem' : stem.toList ≠ [] := fun hempty => hstem (String.toList_eq_nil_iff.mp hempty)
  have hslash : '/' ∉ stem.toList := fun hmem => hends.noSlash (by simp [hmem])
  have hcut : cutAtDot (stem ++ ".py").toList = (stem.toList, some ['p', 'y']) := by
    rw [show (stem ++ ".py").toList = stem.toList ++ '.' :: ['p', 'y'] by simp]
    exact cutAtDot_append stem.toList hstem' (by decide)
  refine ⟨hends.withExtension hname hcut "pyx", hends.closed, ?_⟩
  split
  · simp
  · simp [hslash]

/-- Whether a name is one of the files that a compiler reads. -/
def isIntermediate (name : String) : Bool :=
  !name.toList.contains '/' && (cutAtDot name.toList).2 == some ['p', 'y', 'x']

theorem isIntermediate_source {stem : String} (h : stem ≠ "") :
    isIntermediate (stem ++ ".py") = false := by
  have hstem : stem.toList ≠ [] := fun hempty => h (String.toList_eq_nil_iff.mp hempty)
  have hcut := @cutAtDot_append stem.toList ['p', 'y'] hstem (by decide)
  have hchars : (stem ++ ".py").toList = stem.toList ++ ['.', 'p', 'y'] := by simp
  simp [isIntermediate, hchars, hcut]

theorem isIntermediate_intermediate {stem : String} (h : stem ≠ "") (hslash : '/' ∉ stem.toList) :
    isIntermediate (stem ++ ".pyx") = true := by
  have hstem : stem.toList ≠ [] := fun hempty => h (String.toList_eq_nil_iff.mp hempty)
  have hcut := @cutAtDot_append stem.toList ['p', 'y', 'x'] hstem (by decide)
  have hchars : (stem ++ ".pyx").toList = stem.toList ++ ['.', 'p', 'y', 'x'] := by simp
  simp [isIntermediate, hchars, hcut, hslash]

section

variable {path : Path} (hlinks : HasNoLinks before) (hkept : Kept isIntermediate before after)
  (hpath : LeadsToSource before here path)
include hlinks hkept hpath

theorem readText_of_kept : readText after here path = readText before here path := by
  obtain ⟨_, stem, directory, content, mode, -, -, hstem, hfind⟩ := hpath.ends hlinks
  have hfind' := find_of_kept hlinks hkept (isIntermediate_source hstem) hfind
  rw [readText, readText, isUnreadable, isUnreadable, readBytes, readBytes, hfind, hfind']

/-- The file that is written for a source is beside it, under its stem. -/
theorem openForWriting_intermediate {place : Location} {old : Option (ByteArray × FileMode)}
    (hopen : openForWriting after here (intermediate path) = .ok (place, old)) :
    ∃ stem directory content mode,
      find before here path = .ok ((stem ++ ".py") :: directory, .file content mode) ∧
      place = (stem ++ ".pyx") :: directory ∧ isIntermediate (stem ++ ".pyx") = true ∧
      after.node? place ≠ some .directory := by
  obtain ⟨front, stem, directory, content, mode, hends, hname, hstem, hfind⟩ :=
    hpath.ends hlinks
  have hfind' := find_of_kept hlinks hkept (isIntermediate_source hstem) hfind
  have hslash : '/' ∉ stem.toList := fun hmem => hends.noSlash (by simp [hmem])
  have hother := ends_intermediate hends hname hstem
  obtain ⟨hplace, hproper, hfree⟩ := openForWriting_beside hkept.noLinks hends hother hfind' hopen
  split at hproper
  · exact absurd rfl hproper.notParent
  · rename_i hdot
    refine ⟨stem, directory, content, mode, hfind, ?_,
      isIntermediate_intermediate hstem hslash, hfree⟩
    rw [hplace, if_neg hdot, List.tail_cons, String.ofList_append]
    simp

end

theorem sourceOf_unstable {exclusions : Exclusions} {root : Path} {e : Location × Node}
    (h : isStable isIntermediate e = false) : sourceOf exclusions root base e = none := by
  unfold sourceOf
  split
  · rename_i location content mode
    split
    · rename_i first rest hnames
      obtain ⟨below, hbelow, rfl⟩ := eq_of_namesBelow hnames
      cases below with
      | nil => cases hbelow
      | cons name below =>
          have hname : isIntermediate name = true := by simpa [isStable] using h
          rw [isIntermediate, Bool.and_eq_true, Bool.not_eq_true', List.contains_eq_mem,
            decide_eq_false_iff_not, beq_iff_eq] at hname
          obtain ⟨hslash, hextension⟩ := hname
          obtain ⟨front, hends, -⟩ := @join_ends (pathBelow root below.reverse) name hslash
          have hcut : cutAtDot name.toList = ((cutAtDot name.toList).1, some ['p', 'y', 'x']) :=
            Prod.ext rfl hextension
          have hproper : IsProper name.toList := by
            have hlong : 4 ≤ name.toList.length := by
              rw [(eq_of_cutAtDot hcut).1]
              simp
            constructor
            all_goals
              intro hname
              simp [hname] at hlong
          have hnone : isSource (pathBelow root (first :: rest)) = false := by
            rw [hbelow, List.reverse_cons, pathBelow_append, isSource, hends.extension hproper hcut]
            decide
          simp [hnone]
    · rfl
  · rfl

theorem sourcesBelow_of_kept (hkept : Kept isIntermediate before after) (exclusions : Exclusions)
    (root : Path) (base : Location) :
    sourcesBelow exclusions after root base = sourcesBelow exclusions before root base := by
  have hstable : ∀ entries : List (Location × Node),
      entries.filterMap (sourceOf exclusions root base) =
        (entries.filter (isStable isIntermediate)).filterMap (sourceOf exclusions root base) := by
    intro entries
    induction entries with
    | nil => rfl
    | cons e rest ih =>
        cases he : isStable isIntermediate e with
        | false =>
            rw [List.filter_cons_of_neg (by simp [he]), List.filterMap_cons_none
              (sourceOf_unstable he)]
            exact ih
        | true => rw [List.filter_cons_of_pos he, List.filterMap_cons, List.filterMap_cons, ih]
  rw [sourcesBelow, sourcesBelow, hstable, hkept.others, ← hstable]

end Cythonizer.Proofs.Project.Walk
