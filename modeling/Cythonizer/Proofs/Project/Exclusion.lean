import Cythonizer.Proofs.Packaging.Repetition
import Cythonizer.Proofs.Project.Modules

namespace Cythonizer.Proofs.Project.Exclusion

open Cythonizer.FileTree.Access
open Cythonizer.FileTree.Basic
open Cythonizer.Project.Sources
open Cythonizer.Proofs.FileTree.Destinations
open Cythonizer.Proofs.FileTree.Frames
open Cythonizer.Proofs.FileTree.Growth
open Cythonizer.Proofs.Packaging.Artifacts
open Cythonizer.Proofs.Packaging.Outputs
open Cythonizer.Proofs.Packaging.Repetition
open Cythonizer.Proofs.Packaging.Shipping
open Cythonizer.Proofs.Project.Modules
open Cythonizer.Proofs.Project.Walk

variable {tree before after : FileTree} {here base output : Location} {root path : Path}
  {names excluded : List String} {exclusions : Exclusions} {e : Location × Node}

theorem isInside_append {front location : Location} (h : isInside output location = true) :
    isInside output (front ++ location) = true := by
  induction front with
  | nil => exact h
  | cons name front ih =>
      rw [List.cons_append, isInside_cons]
      cases hlocation : front ++ location with
      | nil =>
          rw [hlocation] at ih
          cases ih
      | cons first rest =>
          rw [hlocation, isInside_cons] at ih
          exact ih.trans (List.suffix_cons _ _)

theorem isOpen_cons_cons (exclusions : Exclusions) (base : Location) (name next : String)
    (rest : List String) :
    isOpen exclusions base (name :: next :: rest) =
      (!exclusions.names.contains name && !exclusions.locations.contains (name :: base) &&
        isOpen exclusions (name :: base) (next :: rest)) :=
  rfl

theorem isOpen_of_outside (h : isInside output (names.reverse ++ base) = false) :
    isOpen { names := excluded, locations := [output] } base names =
      isOpen { names := excluded } base names := by
  induction names generalizing base with
  | nil => rfl
  | cons name rest ih =>
      cases rest with
      | nil => rfl
      | cons next rest =>
          rw [List.reverse_cons, List.append_assoc, List.singleton_append] at h
          have hne : name :: base ≠ output := by
            rintro rfl
            rw [List.reverse_cons, List.append_assoc, List.singleton_append,
              isInside_append (isInside_cons.mpr (List.suffix_refl _))] at h
            cases h
          rw [isOpen_cons_cons, isOpen_cons_cons, ih h]
          simp [hne]

theorem isOpen_of_inside (hbase : ¬ output <:+ base)
    (h : isInside output (names.reverse ++ base) = true) :
    isOpen { names := excluded, locations := [output] } base names = false := by
  induction names generalizing base with
  | nil =>
      cases base with
      | nil => cases h
      | cons name directory =>
          exact absurd ((isInside_cons.mp h).trans (List.suffix_cons _ _)) hbase
  | cons name rest ih =>
      cases rest with
      | nil => exact absurd (isInside_cons.mp h) hbase
      | cons next rest =>
          rw [List.reverse_cons, List.append_assoc, List.singleton_append] at h
          by_cases hlocation : name :: base = output
          · simp [isOpen, hlocation]
          · have hbelow : ¬ output <:+ name :: base := by
              rw [List.suffix_cons_iff, not_or]
              exact ⟨Ne.symm hlocation, hbase⟩
            rw [isOpen_cons_cons, ih hbelow h, Bool.and_false]

theorem sourceOf_of_outside (h : isInside output e.1 = false) :
    sourceOf { names := excluded, locations := [output] } root base e =
      sourceOf { names := excluded } root base e := by
  rcases e with ⟨location, content | _ | _⟩
  · unfold sourceOf
    dsimp only
    split
    · rename_i first rest hnames
      obtain ⟨below, hbelow, rfl⟩ := eq_of_namesBelow hnames
      have hreverse : below = (first :: rest).reverse := by rw [hbelow, List.reverse_reverse]
      rw [hreverse] at h
      rw [isOpen_of_outside h]
    · rfl
  · rfl
  · rfl

theorem sourceOf_of_inside (hbase : ¬ output <:+ base) (h : isInside output e.1 = true) :
    sourceOf { names := excluded, locations := [output] } root base e = none := by
  rcases e with ⟨location, content | _ | _⟩
  · unfold sourceOf
    dsimp only
    split
    · rename_i first rest hnames
      obtain ⟨below, hbelow, rfl⟩ := eq_of_namesBelow hnames
      have hreverse : below = (first :: rest).reverse := by rw [hbelow, List.reverse_reverse]
      rw [hreverse] at h
      rw [isOpen_of_inside hbase h]
      simp
    · rfl
  · rfl
  · rfl

theorem sourcesBelow_of_grows (hgrows : Grows (isTouched output) here before after)
    (hbase : ¬ output <:+ base) :
    sourcesBelow { names := excluded, locations := [output] } after root base =
      sourcesBelow { names := excluded, locations := [output] } before root base := by
  have hfixed : ∀ entries : List (Location × Node),
      entries.filterMap (sourceOf { names := excluded, locations := [output] } root base) =
        (entries.filter (isFixed (isTouched output))).filterMap
          (sourceOf { names := excluded, locations := [output] } root base) := by
    intro entries
    rw [List.filterMap_filter]
    refine List.filterMap_congr fun e _ => ?_
    split
    · rfl
    · rename_i hchanging
      obtain ⟨_ | ⟨name, directory⟩, _ | _ | _⟩ := e
      all_goals try rfl
      · rename_i content mode
        unfold sourceOf namesBelow
        cases base <;> simp
      · rename_i content mode
        have htouched : isTouched output (name :: directory) = true := by
          simpa [isFixed, isRegular] using hchanging
        rcases Bool.or_eq_true_iff.mp htouched with hname | hinside
        · exact sourceOf_unstable (by simp [Cythonizer.Proofs.FileTree.Frames.isStable, hname])
        · exact sourceOf_of_inside hbase hinside
  rw [sourcesBelow, sourcesBelow, hfixed, hgrows.files, ← hfixed]

section

variable (htree : IsPlain tree here) (hroot : find tree here root = .ok (base, .directory))
include htree hroot

theorem destination_of_isFound {below : Location}
    (h : IsFound tree exclusions root base below path) :
    destination here path = below ++ base := by
  obtain ⟨content, mode, hmem⟩ := h.file
  have hnode := htree.wellFormed.node?_of_mem hmem (by simp [h.filled])
  rw [h.eq_pathBelow]
  exact (destination_of_find htree.noLinks
    (find_pathBelow htree.wellFormed hroot below _ hnode (by simp) h.filled)).symm

theorem isInside_of_mem (hbase : ¬ output <:+ base)
    (h : path ∈ sourcesBelow { names := excluded, locations := [output] } tree root base) :
    isInside output (destination here path) = false := by
  obtain ⟨below, hfound⟩ := exists_isFound h
  rw [destination_of_isFound htree hroot hfound, Bool.eq_false_iff]
  intro hinside
  have hclosed := hfound.isOpen
  rw [isOpen_of_inside hbase (by simpa using hinside)] at hclosed
  cases hclosed

theorem sourcesBelow_of_outside (hbase : ¬ output <:+ base)
    (h : ∀ path ∈ sourcesBelow { names := excluded } tree root base,
      isInside output (destination here path) = false) :
    sourcesBelow { names := excluded, locations := [output] } tree root base =
      sourcesBelow { names := excluded } tree root base := by
  refine List.filterMap_congr fun e he => ?_
  cases hinside : isInside output e.1 with
  | false => exact sourceOf_of_outside hinside
  | true =>
      rw [sourceOf_of_inside hbase hinside]
      cases hsource : sourceOf { names := excluded } root base e with
      | none => rfl
      | some path =>
          obtain ⟨below, hlocation, hfound⟩ := exists_isFound_of_sourceOf he hsource
          have houtside := h path (List.mem_filterMap.mpr ⟨e, he, hsource⟩)
          rw [destination_of_isFound htree hroot hfound, ← hlocation, hinside] at houtside
          cases houtside

theorem pairwise_destinations :
    (sourcesBelow exclusions tree root base).Pairwise fun a b =>
      destination here a ≠ destination here b := by
  refine (pairwise_sourcesBelow htree.wellFormed (text_ne_of_find hroot) exclusions base).imp_of_mem
    ?_
  intro a b ha hb hdistinct hsame
  obtain ⟨names, hnames⟩ := isBelow_of_mem htree.wellFormed (text_ne_of_find hroot) ha
  obtain ⟨names', hnames'⟩ := isBelow_of_mem htree.wellFormed (text_ne_of_find hroot) hb
  rw [destination_of_below hnames, destination_of_below hnames', List.append_left_inj,
    List.reverse_inj,
    List.map_inj_right fun _ _ => String.ofList_inj.mp] at hsame
  rw [Path.same, hnames.components, hnames'.components, hsame, beq_self_eq_true] at hdistinct
  cases hdistinct

end

section

variable (hbefore : IsPlain before here) (hsource : LeadsToSource before here path)
  (hout : isInside output (destination here path) = false)
include hbefore hsource hout

theorem find_of_outside (hgrows : Grows (isTouched output) here before after) :
    ∃ location content mode, find before here path = .ok (location, .file content mode) ∧
      find after here path = .ok (location, .file content mode) := by
  obtain ⟨-, stem, directory, content, mode, -, -, hstem, hfind⟩ := hsource.ends hbefore.noLinks
  refine ⟨_, content, mode, hfind, hgrows.find_kept hbefore.noLinks (fun _ => ?_) hfind⟩
  rw [← destination_of_find hbefore.noLinks hfind] at hout
  rw [isTouched, isIntermediate_source hstem, Bool.false_or]
  exact hout

theorem readText_of_outside (hgrows : Grows (isTouched output) here before after) :
    readText after here path = readText before here path := by
  obtain ⟨location, content, mode, hfind, hfind'⟩ := find_of_outside hbefore hsource hout hgrows
  rw [readText, readText, isUnreadable, isUnreadable, readBytes, readBytes, hfind, hfind']

theorem isApart_of_outside : IsApart output here before path := by
  obtain ⟨front, stem, directory, content, mode, hends, hname, -, hfind⟩ :=
    hsource.ends hbefore.noLinks
  refine ⟨find_directoryOf hbefore.noLinks hfind, fun hsuffix => ?_⟩
  rw [destination_directoryOf (hends.fileName hname), isInside_cons.mpr hsuffix] at hout
  cases hout

end

theorem excludeDirectory_of_find {location : Location} {node : Node} (hlinks : HasNoLinks tree)
    (h : find tree here path = .ok (location, node)) (excluded : List String) :
    ({ names := excluded } : Exclusions).excludeDirectory tree here path =
      { names := excluded, locations := [destination here path] } := by
  rw [Exclusions.excludeDirectory, h, destination_of_find hlinks h]
  rfl

/-- A walk that is to leave out the output directory gives no source in it if the path of that
directory leads somewhere, or if nothing is there. -/
theorem outside_of_walk (hbefore : IsPlain before here)
    (hroot : find before here root = .ok (base, .directory))
    (hbase : ¬ destination here path <:+ base)
    (h : (∃ there, find before here path = .ok there) ∨
      before.node? (destination here path) = none) :
    ∀ source ∈ sourcesBelow
      (({ names := excluded } : Exclusions).excludeDirectory before here path) before root
      base, isInside (destination here path) (destination here source) = false := by
  intro source hsource
  rcases h with ⟨there, hthere⟩ | hnone
  · rw [excludeDirectory_of_find hbefore.noLinks hthere] at hsource
    exact isInside_of_mem hbefore hroot hbase hsource
  · rw [Bool.eq_false_iff]
    intro hinside
    obtain ⟨below, hfound⟩ := exists_isFound hsource
    obtain ⟨content, mode, hmem⟩ := hfound.file
    rw [destination_of_isFound hbefore hroot hfound] at hinside
    have hnode := hbefore.wellFormed.node?_of_mem hmem (by simp [hfound.filled])
    obtain ⟨name, directory, hlocation⟩ := List.exists_cons_of_ne_nil
      (show below ++ base ≠ [] by simp [hfound.filled])
    rw [hlocation] at hinside hnode
    rw [hbefore.node?_of_suffix (hbefore.isPlace hnode).directory (isInside_cons.mp hinside)]
      at hnone
    cases hnone

/-- A walk that is to leave out the output directory gives the same sources when it has been made
and files have been written there, if it has given none of those in it. -/
theorem sourcesBelow_again (excluded : List String) (hbefore : IsPlain before here)
    (hroot : find before here root = .ok (base, .directory))
    (hbase : ¬ destination here path <:+ base)
    (hgrows : Grows (isTouched (destination here path)) here before after)
    (hfound : find after here path = .ok (destination here path, .directory))
    (hout : ∀ source ∈ sourcesBelow
      (({ names := excluded } : Exclusions).excludeDirectory before here path)
      before root base, isInside (destination here path) (destination here source) = false) :
    sourcesBelow (({ names := excluded } : Exclusions).excludeDirectory after here path)
      after root base =
      sourcesBelow (({ names := excluded } : Exclusions).excludeDirectory before here path)
        before root base := by
  rw [excludeDirectory_of_find hgrows.plain.noLinks hfound, sourcesBelow_of_grows hgrows hbase]
  cases hthere : find before here path with
  | ok there => rw [excludeDirectory_of_find hbefore.noLinks hthere]
  | error error =>
      rw [Exclusions.excludeDirectory, hthere] at hout ⊢
      exact sourcesBelow_of_outside hbefore hroot hbase hout

end Cythonizer.Proofs.Project.Exclusion
