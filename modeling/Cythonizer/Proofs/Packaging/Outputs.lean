import Cythonizer.Packaging.Basic
import Cythonizer.Project.Sources
import Cythonizer.Proofs.FileTree.Destinations

namespace Cythonizer.Proofs.Packaging.Outputs

open Cythonizer.FileTree.Basic
open Cythonizer.FileTree.Resolution
open Cythonizer.Packaging.Artifact
open Cythonizer.Packaging.Basic
open Cythonizer.Path.Basic
open Cythonizer.Project.Sources
open Cythonizer.Text.Pieces
open Cythonizer.Proofs.FileTree.Destinations
open Cythonizer.Proofs.FileTree.Frames
open Cythonizer.Proofs.Path.Joining
open Cythonizer.Proofs.Path.Names
open Cythonizer.Proofs.Path.Relative

variable {here : Location} {packager : Packager} {path other project source : Path}
  {names folders : List (List Char)} {stem : List Char}

/-- A path that goes on behind another one with names only. -/
structure IsBelow (base path : Path) (names : List (List Char)) : Prop where
  components : path.components = base.components ++ names.map Component.name
  filled : names ≠ []

/-- A source as a path below the project: the names of directories, and its stem. -/
structure IsModule (project source : Path) (folders : List (List Char)) (stem : List Char) :
    Prop where
  below : IsBelow project source (folders ++ [stem ++ '.' :: sourceExtension.toList])
  filled : stem ≠ []

theorem exists_isModule (hbelow : IsBelow project source names) (hsource : isSource source = true) :
    ∃ folders stem, IsModule project source folders stem := by
  obtain ⟨folders, last, rfl⟩ := (List.eq_nil_or_concat names).resolve_left hbelow.filled
  rw [List.concat_eq_append] at hbelow
  have hname : source.fileName? = some (String.ofList last) := by
    rw [Path.fileName?, hbelow.components]
    simp
  rw [isSource, beq_iff_eq, Path.extension?, hname, Option.bind_some, String.toList_ofList,
    Option.map_eq_some_iff] at hsource
  obtain ⟨extension, hcut, hpy⟩ := hsource
  obtain ⟨hlast, hstem⟩ := eq_of_cutAtDot (Prod.ext rfl hcut)
  have hextension : extension = sourceExtension.toList := by simpa using congrArg String.toList hpy
  exact ⟨folders, _, hextension ▸ hlast ▸ hbelow, hstem⟩

theorem IsModule.same (h : IsModule project source folders stem)
    (hother : IsModule project other folders stem) :
    source.same other = true := by
  rw [Path.same, h.below.components, hother.below.components]
  exact beq_self_eq_true _

theorem IsModule.cut (h : IsModule project source folders stem) :
    cutAtDot (stem ++ '.' :: sourceExtension.toList) = (stem, some sourceExtension.toList) :=
  cutAtDot_append stem h.filled (by decide)

theorem IsModule.fileName (h : IsModule project source folders stem) :
    source.fileName? = some (String.ofList (stem ++ '.' :: sourceExtension.toList)) := by
  rw [Path.fileName?, h.below.components]
  simp

theorem ends_join {front name : List Char} (hother : other.isAbsolute = false)
    (h : Ends other front name) :
    ∃ front, Ends (path.join other) front name := by
  rcases chars_join path hother with ⟨-, hjoined⟩ | ⟨before, idle, -, -, -, hjoined⟩
  · exact ⟨front, by rw [hjoined, h.chars], h.closed, h.noSlash⟩
  · refine ⟨before ++ '/' :: front, by rw [hjoined, h.chars]; simp, .inr ?_, h.noSlash⟩
    rcases h.closed with rfl | ⟨text, rfl⟩
    · exact ⟨before, rfl⟩
    · exact ⟨before ++ '/' :: text, by simp⟩

/-- The place of a directory below the output directory. -/
def folderAt (here : Location) (packager : Packager) (folders : List (List Char)) : Location :=
  (folders.map String.ofList).reverse ++ destination here packager.output

def packagedAt (here : Location) (packager : Packager) (folders : List (List Char))
    (stem : List Char) :
    Location :=
  String.ofList (stem ++ '.' :: sourceExtension.toList) :: folderAt here packager folders

def compiledAt (here : Location) (packager : Packager) (folders : List (List Char))
    (stem : List Char) :
    Location :=
  String.ofList (stem ++ '.' :: compiledExtension.toList) :: folderAt here packager folders

theorem foldl_stepTo_names (location : Location) (names : List (List Char)) :
    (names.map Component.name).foldl stepTo location =
    (names.map String.ofList).reverse ++ location := by
  induction names generalizing location with
  | nil => rfl
  | cons name rest ih =>
      rw [List.map_cons, List.foldl_cons, stepTo, ih, List.map_cons, List.reverse_cons,
        List.append_assoc,
        List.singleton_append]

theorem destination_of_below (h : IsBelow project path names) :
    destination here path = (names.map String.ofList).reverse ++ destination here project := by
  rw [destination, h.components, List.foldl_append, foldl_stepTo_names]
  rfl

section

variable (h : IsModule packager.project source folders stem)
include h

theorem exists_relative :
    ∃ relative, packager.packaged source = packager.output.join relative ∧
      IsRelative relative (folders ++ [stem ++ '.' :: sourceExtension.toList]) := by
  obtain ⟨relative, hstrip, hrelative⟩ := stripPrefix?_of_below h.below.filled h.below.components
  refine ⟨relative, ?_, hrelative⟩
  rw [Packager.packaged, hstrip]

theorem destination_packaged :
    destination here (packager.packaged source) = packagedAt here packager folders stem := by
  obtain ⟨relative, hpackaged, hrelative⟩ := exists_relative h
  rw [hpackaged, destination_join hrelative.relative, follow, hrelative.components,
    foldl_stepTo_names]
  simp [packagedAt, folderAt]

theorem ends_packaged :
    ∃ front, Ends (packager.packaged source) front (stem ++ '.' :: sourceExtension.toList) := by
  obtain ⟨relative, hpackaged, hrelative⟩ := exists_relative h
  obtain ⟨front, name, hends, hlast⟩ := hrelative.ends
  rw [List.getLast?_concat, Option.some.injEq] at hlast
  subst hlast
  exact hpackaged ▸ ends_join hrelative.relative hends

theorem isProper_name : IsProper (stem ++ '.' :: sourceExtension.toList) := by
  obtain ⟨relative, -, hrelative⟩ := exists_relative h
  have hmem : Component.name (stem ++ '.' :: sourceExtension.toList) ∈
      componentsOf (pieces '/' relative.chars) := by
    rw [hrelative.components]
    simp
  exact (mem_of_name_mem hmem).2

/-- The paths of a place and of the compiled file that goes there differ in their last names only.
After a dot alone there is no extension to be changed, and the path leads to a directory. -/
theorem ends_compiled :
    ∃ front, Ends (packager.packaged source) front (stem ++ '.' :: sourceExtension.toList) ∧
      Ends ((packager.packaged source).withExtension compiledExtension) front
        (if stem = ['.'] then ['.', '.'] else stem ++ '.' :: compiledExtension.toList) := by
  obtain ⟨front, hends⟩ := ends_packaged h
  have hslash : '/' ∉ stem := fun hmem => hends.noSlash (List.mem_append_left _ hmem)
  refine ⟨front, hends, hends.withExtension (isProper_name h) h.cut compiledExtension,
    hends.closed, ?_⟩
  split
  · decide
  · simp [hslash, compiledExtension]

theorem destination_compiled :
    destination here ((packager.packaged source).withExtension compiledExtension) =
      if stem = ['.'] then (folderAt here packager folders).tail
      else compiledAt here packager folders stem := by
  obtain ⟨front, hends, hcompiled⟩ := ends_compiled h
  have hfolder : follow (startOf here (packager.packaged source)) (above front) =
      folderAt here packager folders := by
    have hpackaged := @destination_of_ends here _ _ _ hends
    rw [destination_packaged h, packagedAt, follow_name _ (isProper_name h),
      follow_all_idle (by simp),
      List.cons.injEq] at hpackaged
    exact hpackaged.2.symm
  rw [destination_of_ends hcompiled, startOf_of_ends hcompiled, ← startOf_of_ends hends, hfolder]
  split
  · rw [follow_parent]
    rfl
  · rename_i hdot
    have hproper : IsProper (stem ++ '.' :: compiledExtension.toList) := by
      constructor
      all_goals
        intro hname
        have hlength := congrArg List.length hname
        simp [compiledExtension] at hlength
    rw [follow_name _ hproper]
    rfl

end

theorem suffix_folderAt (here : Location) (packager : Packager) (folders : List (List Char)) :
    destination here packager.output <:+ folderAt here packager folders :=
  List.suffix_append _ _

/-- The places where a module can go. -/
def IsPlaceOf (here : Location) (packager : Packager) (folders : List (List Char))
    (stem : List Char)
    (location : Location) : Prop :=
  location = packagedAt here packager folders stem ∨
    location = compiledAt here packager folders stem

theorem eq_of_name_eq {stem stem' extension extension' : List Char}
    (hextension : extension ∈ [sourceExtension.toList, compiledExtension.toList])
    (hextension' : extension' ∈ [sourceExtension.toList, compiledExtension.toList])
    (h : stem ++ '.' :: extension = stem' ++ '.' :: extension') : stem = stem' := by
  have hlength : ∀ extension ∈ [sourceExtension.toList, compiledExtension.toList],
    extension.length = 2 := by
    decide
  refine List.append_inj_left' h ?_
  rw [List.length_cons, List.length_cons, hlength _ hextension, hlength _ hextension']

theorem eq_of_isPlaceOf {folders' : List (List Char)} {stem' : List Char} {location : Location}
    (h : IsPlaceOf here packager folders stem location)
    (h' : IsPlaceOf here packager folders' stem' location) : folders = folders' ∧ stem = stem' := by
  have hname : ∀ {location folders stem}, IsPlaceOf here packager folders stem location →
      ∃ extension ∈ [sourceExtension.toList, compiledExtension.toList],
        location = String.ofList (stem ++ '.' :: extension) :: folderAt here packager folders := by
    rintro location folders stem (rfl | rfl)
    · exact ⟨_, by simp, rfl⟩
    · exact ⟨_, by simp, rfl⟩
  obtain ⟨extension, hextension, rfl⟩ := hname h
  obtain ⟨extension', hextension', heq⟩ := hname h'
  rw [List.cons.injEq, String.ofList_inj] at heq
  refine ⟨?_, eq_of_name_eq hextension hextension' heq.1⟩
  have hfolders := List.append_cancel_right heq.2
  rw [List.reverse_inj] at hfolders
  exact (List.map_inj_right fun _ _ => String.ofList_inj.mp).mp hfolders

end Cythonizer.Proofs.Packaging.Outputs
