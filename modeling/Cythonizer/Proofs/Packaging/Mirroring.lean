import Mathlib.Data.Set.List
import Cythonizer.Proofs.Packaging.Outputs
import Cythonizer.Proofs.Path.Extensions

/-!
The output directory mirrors the project. A source inside the project is packaged to the same path
inside the output directory, so that different sources go to different places, compiled or not
(`mirrors`).
-/

namespace Cythonizer.Proofs.Packaging.Mirroring

open Cythonizer.Packaging.Artifact
open Cythonizer.Packaging.Basic
open Cythonizer.Path.Basic
open Cythonizer.Project.Sources
open Cythonizer.Text.Pieces
open Cythonizer.Proofs.Packaging.Outputs
open Cythonizer.Proofs.Path.Extensions
open Cythonizer.Proofs.Path.Joining
open Cythonizer.Proofs.Path.Names
open Cythonizer.Proofs.Path.Relative

variable {packager : Packager} {project source other path : Path} {names folders : List (List Char)}
  {stem : List Char}

/-- A path that is another one, or goes on behind it with names only. -/
def IsInside (project source : Path) : Prop :=
  ∃ names : List (List Char), source.components = project.components ++ names.map Component.name

theorem exists_name_of_mem_componentsOf {pieces : List (List Char)} {c : Component}
    (h : c ∈ componentsOf pieces) (hparent : c ≠ .parent) : ∃ name, c = .name name := by
  obtain ⟨piece, -, rfl⟩ := List.mem_map.mp h
  unfold Component.ofPiece at hparent ⊢
  split at hparent
  · exact absurd rfl hparent
  · rename_i hname
    rw [if_neg hname]
    exact ⟨piece, rfl⟩

/-- What goes on behind a path without `..` goes on with names. The empty path is an exception,
since a `/` or a `.` at the start goes on behind it. -/
theorem isInside_of_components (hproject : project.text ≠ "") {rest : List Component}
    (h : source.components = project.components ++ rest) (hparent : .parent ∉ rest) :
    IsInside project source := by
  have htail : rest <:+ source.components.tail := by
    rw [h, List.tail_append_of_ne_nil (components_ne_nil hproject)]
    exact List.suffix_append _ _
  have hsub : ∀ c ∈ rest, c ∈ componentsOf (pieces '/' (body source.chars)) := by
    intro c hc
    have hmem : c ∈ source.components.tail := htail.subset hc
    unfold Path.components bodyComponents at hmem
    rw [← componentsOf] at hmem
    cases hanchor : anchor source.chars with
    | none =>
        rw [hanchor] at hmem
        exact List.mem_of_mem_tail hmem
    | some first =>
        rw [hanchor] at hmem
        exact hmem
  have hnames : ∀ c ∈ rest, c ∈ Set.range Component.name := by
    intro c hc
    obtain ⟨name, rfl⟩ := exists_name_of_mem_componentsOf (hsub c hc) fun hc' => hparent (hc' ▸ hc)
    exact ⟨name, rfl⟩
  have hrange : rest ∈ Set.range (List.map Component.name) := by
    rw [Set.range_list_map]
    exact hnames
  obtain ⟨names, rfl⟩ := hrange
  exact ⟨names, h⟩

/-- A source inside the project is packaged as the path that it is seen as from the project. -/
theorem exists_packaged (h : source.components = packager.project.components ++
    names.map Component.name) :
    ∃ relative, source.stripPrefix? packager.project = some relative ∧
      packager.packaged source = packager.output.join relative ∧ IsTrimmed relative ∧
      (packager.packaged source).components = packager.output.components ++
        names.map Component.name := by
  obtain ⟨relative, hstrip, htrimmed, hnames⟩ := exists_stripPrefix? h
  have hpackaged : packager.packaged source = packager.output.join relative := by
    rw [Packager.packaged, hstrip]
  refine ⟨relative, hstrip, hpackaged, htrimmed, ?_⟩
  rw [hpackaged, components_join_of_anchor htrimmed.anchor, hnames]

theorem startsWith_of_components {base : Path} {more : List Component}
    (h : path.components = base.components ++ more) : path.startsWith base = true := by
  rw [Path.startsWith, h, List.isPrefixOf_iff_prefix]
  exact List.prefix_append _ _

/-- The two paths that a source can be shipped to. -/
def outputsOf (packager : Packager) (source : Path) : List Path :=
  [packager.packaged source, (packager.packaged source).withExtension compiledExtension]

/-- The last components of the paths that a module can be shipped to. -/
def lastsOf (stem : List Char) : List Component :=
  [.name (stem ++ '.' :: sourceExtension.toList),
    .ofPiece (if stem = ['.'] then ['.', '.'] else stem ++ '.' :: compiledExtension.toList)]

theorem eq_of_mem_lastsOf {stem' : List Char} {last : Component} (h : last ∈ lastsOf stem)
    (h' : last ∈ lastsOf stem') : stem = stem' := by
  have hcases : ∀ {stem}, last ∈ lastsOf stem → stem = ['.'] ∧ last = .parent ∨
      ∃ extension ∈ [sourceExtension.toList, compiledExtension.toList],
        last = .name (stem ++ '.' :: extension) := by
    intro stem hlast
    rcases List.mem_cons.mp hlast with rfl | hlast
    · exact .inr ⟨_, List.mem_cons_self, rfl⟩
    · obtain rfl := List.mem_singleton.mp hlast
      split
      · exact .inl ⟨‹_›, rfl⟩
      · refine .inr ⟨compiledExtension.toList, by simp, ?_⟩
        rw [Component.ofPiece, if_neg]
        intro hparent
        have hlength := congrArg List.length hparent
        simp [compiledExtension] at hlength
  rcases hcases h with ⟨rfl, rfl⟩ | ⟨extension, hextension, rfl⟩
  · rcases hcases h' with ⟨rfl, -⟩ | ⟨_, _, hlast⟩
    · rfl
    · cases hlast
  · rcases hcases h' with ⟨_, hlast⟩ | ⟨extension', hextension', hlast⟩
    · cases hlast
    · exact eq_of_name_eq hextension hextension' (Component.name.inj hlast)

theorem exists_last_of_mem_outputsOf (h : IsModule packager.project source folders stem)
    (hpath : path ∈ outputsOf packager source) :
    ∃ last ∈ lastsOf stem,
      path.components = packager.output.components ++ folders.map Component.name ++ [last] := by
  obtain ⟨-, -, -, -, hpackaged⟩ := exists_packaged h.below.components
  rw [List.map_append, ← List.append_assoc] at hpackaged
  rcases List.mem_cons.mp hpath with rfl | hpath
  · exact ⟨_, List.mem_cons_self, hpackaged⟩
  · obtain rfl := List.mem_singleton.mp hpath
    obtain ⟨front, hends, hcompiled⟩ := ends_compiled h
    have hidle :
      isIdle (if stem = ['.'] then ['.', '.'] else stem ++ '.' :: compiledExtension.toList) =
        false := by
      split
      · decide
      · obtain ⟨c, rest, rfl⟩ := List.exists_cons_of_ne_nil h.filled
        simp [isIdle]
    rw [components_of_ends hends (isIdle_eq_false (isProper_name h))] at hpackaged
    refine ⟨_, List.mem_cons_of_mem _ (List.mem_singleton_self _), ?_⟩
    rw [components_of_ends hcompiled hidle, (List.append_inj' hpackaged rfl).1]

theorem length_of_mem_outputsOf
    (h : source.components = packager.project.components ++ names.map Component.name)
    (hpath : path ∈ outputsOf packager source) :
    path.components.length = packager.output.components.length + names.length := by
  obtain ⟨-, -, -, -, hpackaged⟩ := exists_packaged h
  have hlength : (packager.packaged source).components.length =
      packager.output.components.length + names.length := by
    rw [hpackaged, List.length_append, List.length_map]
  rcases List.mem_cons.mp hpath with rfl | hpath
  · exact hlength
  · obtain rfl := List.mem_singleton.mp hpath
    rw [length_components_withExtension _ (by decide) (by decide), hlength]

/-- Different modules of a project are shipped to different paths. -/
theorem not_same_of_mem_outputsOf (hsource : IsInside packager.project source)
    (hother : IsInside packager.project other) (hpython : isSource source = true)
    (hpython' : isSource other = true) (hne : source.same other = false) {a b : Path}
    (ha : a ∈ outputsOf packager source) (hb : b ∈ outputsOf packager other) :
      a.same b = false := by
  obtain ⟨names, hnames⟩ := hsource
  obtain ⟨names', hnames'⟩ := hother
  rw [← Bool.not_eq_true] at hne ⊢
  intro hsame
  have hcomponents : a.components = b.components := eq_of_beq hsame
  have hlength : names.length = names'.length := by
    have hlengths := congrArg List.length hcomponents
    rw [length_of_mem_outputsOf hnames ha, length_of_mem_outputsOf hnames' hb] at hlengths
    exact Nat.add_left_cancel hlengths
  by_cases hempty : names = []
  · subst hempty
    obtain rfl : names' = [] := List.length_eq_zero_iff.mp hlength.symm
    refine hne ?_
    rw [Path.same, hnames, hnames']
    exact beq_self_eq_true _
  · have hempty' : names' ≠ [] := by
      rintro rfl
      exact hempty (List.length_eq_zero_iff.mp hlength)
    obtain ⟨folders, stem, hmodule⟩ := exists_isModule ⟨hnames, hempty⟩ hpython
    obtain ⟨folders', stem', hmodule'⟩ := exists_isModule ⟨hnames', hempty'⟩ hpython'
    obtain ⟨last, hlast, ha⟩ := exists_last_of_mem_outputsOf hmodule ha
    obtain ⟨last', hlast', hb⟩ := exists_last_of_mem_outputsOf hmodule' hb
    rw [ha, hb] at hcomponents
    obtain ⟨hfolders, hlasts⟩ := List.append_inj' hcomponents rfl
    obtain rfl : folders = folders' :=
      (List.map_inj_right fun _ _ => Component.name.inj).mp (List.append_cancel_left hfolders)
    obtain rfl : last = last' := by simpa using hlasts
    obtain rfl := eq_of_mem_lastsOf hlast hlast'
    exact hne (hmodule.same hmodule')

/-- Sources inside a project are packaged to the same paths inside the output directory, and
different ones to different paths. No path of a module is that of the compiled file of another one.
-/
theorem mirrors (packager : Packager) :
    (∀ source rest, packager.project.text ≠ "" → source.components =
      packager.project.components ++ rest →
      .parent ∉ rest → IsInside packager.project source) ∧
    (∀ source, IsInside packager.project source →
      (packager.packaged source).startsWith packager.output = true ∧
      ∃ relative, source.stripPrefix? packager.project = some relative ∧
        (packager.packaged source).stripPrefix? packager.output = some relative) ∧
    (∀ source other, IsInside packager.project source → IsInside packager.project other →
      (packager.packaged source).same (packager.packaged other) = true → source.same other = true) ∧
    ∀ source other, IsInside packager.project source → IsInside packager.project other →
      isSource source = true → isSource other = true → source.same other = false →
      ∀ a ∈ outputsOf packager source, ∀ b ∈ outputsOf packager other, a.same b = false := by
  refine ⟨fun source rest hproject h hparent =>
    isInside_of_components hproject h hparent, ?_, ?_, ?_⟩
  · rintro source ⟨names, hnames⟩
    obtain ⟨relative, hstrip, hpackaged, htrimmed, hcomponents⟩ := exists_packaged hnames
    refine ⟨startsWith_of_components hcomponents, relative, hstrip, ?_⟩
    rw [hpackaged]
    exact stripPrefix?_join htrimmed
  · rintro source other ⟨names, hnames⟩ ⟨names', hnames'⟩ hsame
    obtain ⟨-, -, -, -, hcomponents⟩ := exists_packaged hnames
    obtain ⟨-, -, -, -, hcomponents'⟩ := exists_packaged hnames'
    rw [Path.same, beq_iff_eq, hcomponents, hcomponents'] at hsame
    rw [Path.same, hnames, hnames', List.append_cancel_left hsame]
    exact beq_self_eq_true _
  · intro source other hsource hother hpython hpython' hne a ha b hb
    exact not_same_of_mem_outputsOf hsource hother hpython hpython' hne ha hb

/-- A project and an output directory that are not written in the shortest way. -/
def spelledOut : Packager :=
  { project := ⟨"./p/"⟩, output := ⟨"out//"⟩, settings := {} }

theorem mirrors_spelledOut :
    IsInside spelledOut.project ⟨"./p//a/./b.py"⟩ ∧ IsInside spelledOut.project ⟨"./p/a.py"⟩ ∧
    (spelledOut.packaged ⟨"./p//a/./b.py"⟩).startsWith spelledOut.output = true ∧
    ((spelledOut.packaged ⟨"./p/a.py"⟩).same (spelledOut.packaged ⟨"./p/./a.py"⟩) = true ∧
      Path.same ⟨"./p/a.py"⟩ ⟨"./p/./a.py"⟩ = true) ∧
    ∀ a ∈ outputsOf spelledOut ⟨"./p//a/./b.py"⟩, ∀ b ∈ outputsOf spelledOut ⟨"./p/a.py"⟩,
      a.same b = false := by
  have hfirst : IsInside spelledOut.project ⟨"./p//a/./b.py"⟩ :=
    (mirrors spelledOut).1 _ [.name ['a'], .name "b.py".toList] (by decide) (by decide +kernel)
      (by decide +kernel)
  have hsecond : IsInside spelledOut.project ⟨"./p/a.py"⟩ :=
    (mirrors spelledOut).1 _ [.name "a.py".toList] (by decide) (by decide +kernel)
      (by decide +kernel)
  have hagain : IsInside spelledOut.project ⟨"./p/./a.py"⟩ :=
    (mirrors spelledOut).1 _ [.name "a.py".toList] (by decide) (by decide +kernel)
      (by decide +kernel)
  have hsame :
    (spelledOut.packaged ⟨"./p/a.py"⟩).same (spelledOut.packaged ⟨"./p/./a.py"⟩) = true := by
    decide +kernel
  refine ⟨hfirst, hsecond, ((mirrors spelledOut).2.1 _ hfirst).1, ⟨hsame, ?_⟩, ?_⟩
  · exact (mirrors spelledOut).2.2.1 _ _ hsecond hagain hsame
  · exact (mirrors spelledOut).2.2.2 _ _ hfirst hsecond (by decide +kernel) (by decide +kernel)
      (by decide +kernel)

/-- From the empty path every path is seen as it is, so that an absolute source stays where it is
and a dot at the start is lost. -/
theorem empty_project_not_mirrored :
    let packager : Packager := { project := ⟨""⟩, output := ⟨"out"⟩, settings := {} }
    (Path.startsWith ⟨"/a.py"⟩ packager.project = true ∧ Path.fileName? ⟨"/a.py"⟩ = some "a.py" ∧
      .parent ∉ Path.components ⟨"/a.py"⟩ ∧
      (packager.packaged ⟨"/a.py"⟩).startsWith packager.output = false) ∧
    (Path.startsWith ⟨"./a.py"⟩ packager.project = true ∧
      Path.startsWith ⟨"a.py"⟩ packager.project = true ∧
      (packager.packaged ⟨"./a.py"⟩).same (packager.packaged ⟨"a.py"⟩) = true ∧
      Path.same ⟨"./a.py"⟩ ⟨"a.py"⟩ = false) := by
  decide +kernel

end Cythonizer.Proofs.Packaging.Mirroring
