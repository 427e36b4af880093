import Cythonizer.Proofs.Project.Modules

/-!
What a walk yields. It goes down from its root through directories that are neither excluded nor
links (`IsEntered`), and it yields the regular files in them that have the extension of sources, all
of them and each of them once (`sources_exact`).
-/

namespace Cythonizer.Proofs.Project.Coverage

open Cythonizer.FileTree.Access
open Cythonizer.FileTree.Basic
open Cythonizer.FileTree.Resolution
open Cythonizer.Project.Sources
open Cythonizer.Proofs.FileTree.Frames
open Cythonizer.Proofs.Project.Modules
open Cythonizer.Proofs.Project.Walk

variable {built tree : FileTree} {here base location : Location} {root path : Path} {node : Node}
  {excluded : List String} {directories : List Path} {exclusions : Exclusions} {name : String}

/-- The exclusions of a walk: names, and what the paths of directories lead to when the walk is set
up. -/
def exclusionsOf (built : FileTree) (here : Location) (excluded : List String)
    (directories : List Path) :
    Exclusions :=
  directories.foldl (fun exclusions directory => exclusions.excludeDirectory built here directory)
    { names := excluded }

section

variable (built tree : FileTree) (here : Location) (root : Path) (excluded : List String)
  (directories : List Path)

/-- A directory that a walk goes through: the root, or one in such a directory that is no link, has
none of the excluded names, and is not what one of the excluded paths led to when the walk was set
up. -/
inductive IsEntered : Path → Prop
  | root {location : Location} (h : find tree here root = .ok (location, .directory)) :
    IsEntered root
  | down {directory : Path} {name : String} {location : Location} (habove : IsEntered directory)
      (hname : IsName name)
      (h : resolve tree here (directory.join ⟨name⟩) false = .ok (.found location .directory))
      (hkept : name ∉ excluded)
      (hplace : ∀ other ∈ directories, ∀ node, find built here other ≠ .ok (location, node)) :
      IsEntered (directory.join ⟨name⟩)

/-- A path that a walk is to yield: a regular file, and no link to one, with the extension of
sources, which is the root or stands in a directory that the walk goes through. -/
inductive IsDue : Path → Prop
  | root {location : Location} {content : ByteArray} {mode : FileMode}
      (h : resolve tree here root false = .ok (.found location (.file content mode)))
      (hsource : isSource root = true) : IsDue root
  | inside {directory : Path} {name : String} {location : Location} {content : ByteArray}
      {mode : FileMode} (habove : IsEntered built tree here root excluded directories directory)
      (hname : IsName name)
      (h : resolve tree here (directory.join ⟨name⟩) false =
        .ok (.found location (.file content mode)))
      (hsource : isSource (directory.join ⟨name⟩) = true) : IsDue (directory.join ⟨name⟩)

end

@[simp] theorem names_exclusionsOf :
    (exclusionsOf built here excluded directories).names = excluded := by
  suffices h : ∀ exclusions : Exclusions,
      (directories.foldl (fun exclusions directory =>
        exclusions.excludeDirectory built here directory)
        exclusions).names = exclusions.names from h _
  induction directories with
  | nil => exact fun _ => rfl
  | cons directory rest ih =>
      intro exclusions
      rw [List.foldl_cons, ih, Exclusions.excludeDirectory]
      split <;> rfl

theorem mem_locations_exclusionsOf :
    location ∈ (exclusionsOf built here excluded directories).locations ↔
      ∃ other ∈ directories, ∃ node, find built here other = .ok (location, node) := by
  suffices h : ∀ exclusions : Exclusions,
      location ∈ (directories.foldl
          (fun exclusions directory => exclusions.excludeDirectory built here directory)
            exclusions).locations ↔
        location ∈ exclusions.locations ∨
          ∃ other ∈ directories, ∃ node, find built here other = .ok (location, node) by
    rw [exclusionsOf, h]
    simp
  induction directories with
  | nil => simp
  | cons directory rest ih =>
      intro exclusions
      have hstep : location ∈ (exclusions.excludeDirectory built here directory).locations ↔
          location ∈ exclusions.locations ∨ ∃ node, find built here directory =
            .ok (location, node) := by
        rw [Exclusions.excludeDirectory]
        split
        · rename_i found node hfind
          simp [hfind, eq_comm]
        · rename_i hfind
          simp [hfind]
      rw [List.foldl_cons, ih, hstep]
      simp [or_assoc]

theorem resolve_join_iff (hname : IsName name)
    (hdirectory : find tree here path = .ok (location, .directory))
    {place : Location} :
    resolve tree here (path.join ⟨name⟩) false = .ok (.found place node) ↔
      place = name :: location ∧ tree.node? (name :: location) = some node := by
  obtain ⟨front, hends, hfront⟩ := @join_ends path name hname.noSlash
  obtain ⟨left, hleft⟩ := exists_resolve_inside hdirectory hends hfront hname.noNul
  rw [hleft, travel, descend_name _ hname.proper, if_neg (by simpa using hname.short),
    String.ofList_toList]
  cases hnode : tree.node? (name :: location) with
  | none => simp
  | some found => cases found <;> simp [descend, eq_comm]

/-- A way down from `base` on which no name and no place is excluded. -/
def IsOpenWay (exclusions : Exclusions) (base below : Location) : Prop :=
  ∀ name above, name :: above <:+ below →
    name ∉ exclusions.names ∧ name :: (above ++ base) ∉ exclusions.locations

theorem isOpenWay_cons {below : Location} :
    IsOpenWay exclusions base (name :: below) ↔
      (name ∉ exclusions.names ∧ name :: (below ++ base) ∉ exclusions.locations) ∧
        IsOpenWay exclusions base below := by
  simp only [IsOpenWay, List.suffix_cons_iff, List.cons.injEq]
  constructor
  · exact fun h =>
      ⟨h name below (.inl ⟨rfl, rfl⟩), fun other above hbelow => h other above (.inr hbelow)⟩
  · rintro ⟨hname, hbelow⟩ other above (⟨rfl, rfl⟩ | hother)
    · exact hname
    · exact hbelow other above hother

theorem isOpen_append (exclusions : Exclusions) (base : Location) (names : List String)
    (name last : String) :
    isOpen exclusions base (names ++ [name, last]) =
      (isOpen exclusions base (names ++ [name]) &&
        (!exclusions.names.contains name && !exclusions.locations.contains
          (name :: (names.reverse ++ base)))) := by
  induction names generalizing base with
  | nil => simp [isOpen]
  | cons first rest ih =>
      have hopen (tail : List String) (hfilled : tail ≠ []) :
        isOpen exclusions base (first :: tail) =
          (!exclusions.names.contains first && !exclusions.locations.contains (first :: base) &&
            isOpen exclusions (first :: base) tail) := by
        obtain ⟨next, tail, rfl⟩ := List.exists_cons_of_ne_nil hfilled
        rfl
      rw [List.cons_append, List.cons_append, hopen _ (by simp), hopen _ (by simp), ih]
      simp [Bool.and_assoc]

theorem isOpen_iff {below : Location} :
    isOpen exclusions base (name :: below).reverse = true ↔ IsOpenWay exclusions base below := by
  induction below generalizing name with
  | nil => simp [isOpen, IsOpenWay]
  | cons next below ih =>
      rw [isOpenWay_cons, ← @ih next, List.reverse_cons, List.reverse_cons, List.append_assoc,
        List.singleton_append, isOpen_append, List.reverse_reverse]
      simp [and_comm]

theorem mem_of_isFound {below : Location} (h : IsFound tree exclusions root base below path) :
    path ∈ sourcesBelow exclusions tree root base := by
  obtain ⟨content, mode, hentry⟩ := h.file
  refine List.mem_filterMap.mpr ⟨_, hentry, ?_⟩
  have hnames : namesBelow base (below ++ base) = some below.reverse := by simp [namesBelow]
  obtain ⟨name, rest, hreverse⟩ := List.exists_cons_of_ne_nil (List.reverse_ne_nil_iff.mpr h.filled)
  rw [sourceOf, hnames, hreverse]
  dsimp only
  rw [← hreverse, ← h.eq_pathBelow, h.isOpen, h.isSource]
  rfl

section

variable (htree : WellFormed tree) (hroot : find tree here root = .ok (base, .directory))
include hroot

theorem IsEntered.exists_below (h : IsEntered built tree here root excluded directories path) :
    ∃ below, path = pathBelow root below.reverse ∧ find tree here path =
      .ok (below ++ base, .directory) ∧
      IsOpenWay (exclusionsOf built here excluded directories) base below := by
  induction h with
  | root _ => exact ⟨[], rfl, hroot, by simp [IsOpenWay]⟩
  | @down directory name location _ hname hresolve hkept hplace ih =>
      obtain ⟨below, hpath, hfind, hopen⟩ := ih
      obtain ⟨rfl, hnode⟩ := (resolve_join_iff hname hfind).mp hresolve
      refine ⟨name :: below, ?_, find_join hname hfind hnode (by simp), isOpenWay_cons.mpr
        ⟨⟨?_, ?_⟩, hopen⟩⟩
      · rw [List.reverse_cons, pathBelow_append, ← hpath]
      · rwa [names_exclusionsOf]
      · rw [mem_locations_exclusionsOf]
        rintro ⟨other, hother, node, hfound⟩
        exact hplace other hother node hfound

include htree

/-- The walk goes through every directory to which an open way leads. -/
theorem isEntered_of_isOpenWay {below : Location}
    (hopen : IsOpenWay (exclusionsOf built here excluded directories) base below)
    (hnode : below ≠ [] → tree.node? (below ++ base) = some .directory) :
    IsEntered built tree here root excluded directories (pathBelow root below.reverse) ∧
      find tree here (pathBelow root below.reverse) = .ok (below ++ base, .directory) := by
  induction below with
  | nil => exact ⟨.root hroot, hroot⟩
  | cons name below ih =>
      obtain ⟨⟨hkept, hplace⟩, hbelow⟩ := isOpenWay_cons.mp hopen
      have hthere := hnode (by simp)
      obtain ⟨hname, hparent⟩ := htree.parent hthere
      obtain ⟨hentered, hfind⟩ := ih hbelow fun _ => hparent
      rw [List.reverse_cons, pathBelow_append]
      refine ⟨.down hentered hname ((resolve_join_iff hname hfind).mpr ⟨rfl, hthere⟩) ?_ ?_,
        find_join hname hfind hthere (by simp)⟩
      · rwa [names_exclusionsOf] at hkept
      · intro other hother node hfound
        exact hplace (mem_locations_exclusionsOf.mpr ⟨other, hother, node, hfound⟩)

theorem mem_sourcesBelow_iff :
    path ∈ sourcesBelow (exclusionsOf built here excluded directories) tree root base ↔
      IsDue built tree here root excluded directories path := by
  constructor
  · intro hmem
    obtain ⟨below, hfound⟩ := exists_isFound hmem
    obtain ⟨name, below, rfl⟩ := List.exists_cons_of_ne_nil hfound.filled
    obtain ⟨content, mode, hentry⟩ := hfound.file
    have hnode := htree.node?_of_mem hentry (by simp)
    obtain ⟨hname, hparent⟩ := htree.parent hnode
    obtain ⟨hentered, hfind⟩ :=
      isEntered_of_isOpenWay htree hroot (isOpen_iff.mp hfound.isOpen) fun _ => hparent
    have hpath : path = (pathBelow root below.reverse).join ⟨name⟩ := by
      rw [hfound.eq_pathBelow, List.reverse_cons, pathBelow_append]
    rw [hpath]
    exact .inside hentered hname ((resolve_join_iff hname hfind).mpr ⟨rfl, hnode⟩)
      (hpath ▸ hfound.isSource)
  · intro hdue
    cases hdue with
    | root h _ =>
        rw [find_iff_resolve.mpr (resolve_follow h (by simp))] at hroot
        cases hroot
    | @inside directory name location content mode habove hname h hsource =>
        obtain ⟨below, rfl, hfind, hopen⟩ := habove.exists_below hroot
        obtain ⟨rfl, hnode⟩ := (resolve_join_iff hname hfind).mp h
        have hpath : (pathBelow root below.reverse).join ⟨name⟩ =
          pathBelow root (name :: below).reverse := by
          rw [List.reverse_cons, pathBelow_append]
        exact mem_of_isFound ⟨by simp, hpath, isOpen_iff.mpr hopen, hsource, content, mode,
          mem_of_node? (by simp) hnode⟩

end

theorem IsEntered.exists_base (h : IsEntered built tree here root excluded directories path) :
    ∃ base, find tree here root = .ok (base, .directory) := by
  induction h with
  | root h => exact ⟨_, h⟩
  | down _ _ _ _ _ ih => exact ih

theorem isDue_iff_of_not_directory (h : ∀ base, find tree here root ≠ .ok (base, .directory)) :
    IsDue built tree here root excluded directories path ↔
      path = root ∧ isSource root = true ∧ ∃ location content mode,
        resolve tree here root false = .ok (.found location (.file content mode)) := by
  constructor
  · intro hdue
    cases hdue with
    | root hresolve hsource => exact ⟨rfl, hsource, _, _, _, hresolve⟩
    | inside habove _ _ _ =>
        obtain ⟨base, hbase⟩ := habove.exists_base
        exact absurd hbase (h base)
  · rintro ⟨rfl, hsource, location, content, mode, hresolve⟩
    exact .root hresolve hsource

section

variable (exclusions : Exclusions)

theorem sources_of_error {error : FileError} (h : find tree here root = .error error) :
    sources exclusions tree here root = [.error (walkFailure root error)] := by
  unfold sources
  split
  · rename_i hresolve
    rw [find_eq_error hresolve] at h
    cases h
    rfl
  · rename_i hresolve
    rw [find, resolve_follow hresolve (by simp)] at h
    cases h
    rfl
  · rename_i hresolve
    rw [find_iff_resolve.mpr (resolve_follow hresolve (by simp))] at h
    cases h
  · rename_i hresolve
    rw [find_iff_resolve.mpr (resolve_follow hresolve (by simp))] at h
    cases h
  · rw [h]

/-- Of a root that is no directory only the root itself is a source, and only if it is no link. -/
theorem exists_sources_of_not_directory {there : Location × Node}
    (h : find tree here root = .ok there)
    (hother : there.2 ≠ .directory) :
    ∃ paths : List Path, sources exclusions tree here root = paths.map .ok ∧
      paths.Pairwise (fun a b => a.same b = false) ∧
      ∀ path, path ∈ paths ↔ path = root ∧ isSource root = true ∧ ∃ location content mode,
        resolve tree here root false = .ok (.found location (.file content mode)) := by
  unfold sources
  split
  · rename_i hresolve
    rw [find_eq_error hresolve] at h
    cases h
  · rename_i hresolve
    rw [find, resolve_follow hresolve (by simp)] at h
    cases h
  · rename_i hresolve
    cases hsource : isSource root with
    | true => exact ⟨[root], rfl, List.pairwise_singleton _ _, by simp [hresolve]⟩
    | false => exact ⟨[], rfl, .nil, by simp⟩
  · rename_i hresolve
    rw [find_iff_resolve.mpr (resolve_follow hresolve (by simp))] at h
    cases h
    exact absurd rfl hother
  · rename_i hresolve
    refine ⟨[], ?_, .nil, by simp [hresolve]⟩
    obtain ⟨location, node⟩ := there
    rw [h]
    cases node with
    | directory => exact absurd rfl hother
    | file content mode => rfl
    | link target => rfl

end

/-- A walk from a root that leads nowhere gives one failure. A walk from any other root gives no
failure, and its sources are exactly the paths that are due, each of them in one spelling and once.
-/
theorem sources_exact (built : FileTree) (here : Location) (root : Path) (excluded : List String)
    (directories : List Path) (htree : WellFormed tree) :
    (∀ error, find tree here root = .error error →
      sources (exclusionsOf built here excluded directories) tree here root =
        [.error (walkFailure root error)]) ∧
    ∀ there, find tree here root = .ok there →
      ∃ paths : List Path, sources (exclusionsOf built here excluded directories) tree here root =
          paths.map .ok ∧
        paths.Pairwise (fun a b => a.same b = false) ∧
        ∀ path, path ∈ paths ↔ IsDue built tree here root excluded directories path := by
  refine ⟨fun error h => sources_of_error _ h, fun there h => ?_⟩
  by_cases hdirectory : there.2 = .directory
  · obtain ⟨base, node⟩ := there
    subst hdirectory
    refine ⟨_, sources_of_directory h, pairwise_sourcesBelow htree (text_ne_of_find h) _ base,
      fun path => ?_⟩
    exact mem_sourcesBelow_iff htree h
  · obtain ⟨paths, hsources, hdistinct, hmem⟩ :=
      exists_sources_of_not_directory (exclusionsOf built here excluded directories) h hdirectory
    refine ⟨paths, hsources, hdistinct, fun path => ?_⟩
    rw [hmem, isDue_iff_of_not_directory]
    intro base hbase
    rw [h] at hbase
    cases hbase
    exact hdirectory rfl

/-- A project with a directory that is excluded by its name, one that is excluded by another path to
it, a link to a directory, a link to a source, and a source with an excluded name. -/
def crossedProject : FileTree :=
  { entries :=
      [(["p"], .directory), (["a.py", "p"], .file .empty false), (["b.py", "p"], .link ⟨"a.py"⟩),
        (["venv", "p"], .directory), (["c.py", "venv", "p"], .file .empty false),
        (["sub", "p"], .directory), (["d.py", "sub", "p"], .file .empty false),
        (["venv.py", "sub", "p"], .file .empty false), (["again", "p"], .link ⟨"sub"⟩),
        (["out", "p"], .directory), (["e.py", "out", "p"], .file .empty false)] }

theorem wellFormed_crossedProject : WellFormed crossedProject where
  names := by decide +kernel
  parents := by decide +kernel
  unique := by decide

theorem sources_exact_crossedProject :
    WellFormed crossedProject ∧
      find crossedProject [] ⟨"p"⟩ = .ok (["p"], .directory) ∧
      ∃ paths : List Path,
        sources (exclusionsOf crossedProject [] ["venv", "venv.py"] [⟨"none"⟩, ⟨"p/again/../out"⟩])
          crossedProject [] ⟨"p"⟩ = paths.map .ok ∧
        paths = [⟨"p/a.py"⟩, ⟨"p/sub/d.py"⟩, ⟨"p/sub/venv.py"⟩] ∧
        ∀ path, path ∈ paths ↔ IsDue crossedProject crossedProject [] ⟨"p"⟩ ["venv", "venv.py"]
          [⟨"none"⟩, ⟨"p/again/../out"⟩] path := by
  have hfind : find crossedProject [] ⟨"p"⟩ = .ok (["p"], .directory) := by decide +kernel
  obtain ⟨paths, hsources, -, hdue⟩ := (sources_exact crossedProject [] ⟨"p"⟩ ["venv", "venv.py"]
    [⟨"none"⟩, ⟨"p/again/../out"⟩] wellFormed_crossedProject).2 _ hfind
  refine ⟨wellFormed_crossedProject, hfind, paths, hsources, ?_, hdue⟩
  have hall :
    sources (exclusionsOf crossedProject [] ["venv", "venv.py"] [⟨"none"⟩, ⟨"p/again/../out"⟩])
      crossedProject [] ⟨"p"⟩ = [⟨"p/a.py"⟩, ⟨"p/sub/d.py"⟩, ⟨"p/sub/venv.py"⟩].map .ok := by
    rfl
  exact (List.map_inj_right fun _ _ h => Except.ok.inj h).mp (hsources.symm.trans hall)

end Cythonizer.Proofs.Project.Coverage
