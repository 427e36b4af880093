import Mathlib.Data.List.Forall2
import Cythonizer.Pipeline.Packaging
import Cythonizer.Proofs.Packaging.Artifacts
import Cythonizer.Proofs.Packaging.Endings
import Cythonizer.Proofs.Packaging.Outputs

/-!
What packaging says it has shipped is what is in the output directory. Every record gets a file of
its own there, and no later record and no directory that is made for one changes it
(`placesAll_ships`); only an auxiliary file can take its place. So the validation after packaging
never fails.
-/

namespace Cythonizer.Proofs.Packaging.Shipping

open Cythonizer.FileTree.Access
open Cythonizer.FileTree.Basic
open Cythonizer.Packaging.Artifact
open Cythonizer.Packaging.Basic
open Cythonizer.Path.Basic
open Cythonizer.Pipeline.Context
open Cythonizer.Pipeline.Packaging
open Cythonizer.Project.Sources
open Cythonizer.Settings.Basic
open Cythonizer.Workspace.Basic
open Cythonizer.Proofs.FileTree.Destinations
open Cythonizer.Proofs.FileTree.Finding
open Cythonizer.Proofs.FileTree.Frames
open Cythonizer.Proofs.FileTree.Growth
open Cythonizer.Proofs.FileTree.Persistence
open Cythonizer.Proofs.Packaging.Artifacts
open Cythonizer.Proofs.Packaging.Endings
open Cythonizer.Proofs.Packaging.Outputs
open Cythonizer.Proofs.Packaging.Turns
open Cythonizer.Proofs.Path.Names
open Cythonizer.Proofs.Workspace.Runs

variable {packager : Packager} {here : Location} {w : Workspace}
    {tree ready before after : FileTree}
  {source : Path} {emitted : String} {file : PackagedFile} {files : List PackagedFile}
  {records turns : List (Path × String)} {folders : List (List Char)} {stem : List Char}

/-- Whether a location is below another one. -/
def isInside (base : Location) : Location → Bool
  | [] => false
  | _ :: directory => base.isSuffixOf directory

theorem isInside_cons {base directory : Location} {name : String} :
    isInside base (name :: directory) = true ↔ base <:+ directory :=
  List.isSuffixOf_iff_suffix

/-- Whether a location is where one of some paths leads to. -/
def leadsTo (here : Location) (paths : List Path) (location : Location) : Bool :=
  (paths.map (destination here)).contains location

theorem leadsTo_iff {paths : List Path} {location : Location} :
    leadsTo here paths location = true ↔ ∃ path ∈ paths, destination here path = location := by
  simp [leadsTo]

/-- What is shipped for a record: the emitted text if no compiled file is found or if it cannot be
copied, and what is in the compiled file otherwise. -/
inductive Holds (packager : Packager) (here : Location) (source : Path) (emitted : String)
    (tree : FileTree) : PackagedFile → ByteArray → Prop
  | emitted (hnone : artifact? tree here source = none) :
      Holds packager here source emitted tree
        { source, output := packager.packaged source, kind := .emitted } emitted.toUTF8
  | compiled {artifact : Path} {content : ByteArray}
    (hartifact : artifact? tree here source = some artifact)
      (hread : readBytes tree here artifact = .ok content) :
      Holds packager here source emitted tree
        { source, output := compiledPath packager source, kind := .compiled } content
  | fallback {artifact : Path} (hartifact : artifact? tree here source = some artifact) :
      Holds packager here source emitted tree
        { source, output := packager.packaged source, kind := .copyFallback } emitted.toUTF8

theorem grows_of_prepares {changing : Location → Bool} (h : IsPlain tree here)
    (hready : Prepares packager here source tree ready) : Grows changing here tree ready := by
  cases hready with
  | made hparent hmade => exact grows_of_made h hmade
  | kept hparent => exact .refl _ h

theorem grows_of_places (h : IsPlain ready here)
    (hplaces : Places packager here source emitted ready file after) :
    Grows (leadsTo here [file.output]) here ready after := by
  have hchanging : leadsTo here [file.output] (destination here file.output) = true :=
    leadsTo_iff.mpr ⟨_, List.mem_singleton_self _, rfl⟩
  cases hplaces with
  | emitted hnone hwrite => exact grows_of_write h hchanging hwrite
  | compiled hartifact hcopy =>
      dsimp only at hchanging ⊢
      exact grows_of_copy h hchanging hcopy
  | fallback hartifact hcopy hwrite => exact grows_of_write h hchanging hwrite

theorem suffix_of_isPlaceOf {name : String} {directory : Location}
    (h : IsPlaceOf here packager folders stem (name :: directory)) :
    destination here packager.output <:+ directory := by
  rcases h with h | h
  all_goals
    rw [(List.cons.inj h).2]
    exact suffix_folderAt here packager folders

theorem isInside_of_isPlaceOf {location : Location}
    (h : IsPlaceOf here packager folders stem location) :
    isInside (destination here packager.output) location = true := by
  cases location with
  | nil => rcases h with h | h <;> cases h
  | cons name directory => exact isInside_cons.mpr (suffix_of_isPlaceOf h)

section

variable (hmodule : IsModule packager.project source folders stem)
include hmodule

theorem node?_folderAt (h : IsPlain tree here) (hready : Prepares packager here source tree ready) :
    ready.node? (folderAt here packager folders) = some .directory := by
  obtain ⟨front, hends⟩ := ends_packaged hmodule
  obtain ⟨parent, hparent, hdestination⟩ := exists_parent (hends.fileName (isProper_name hmodule))
  have hfolder := hdestination here
  rw [destination_packaged hmodule, packagedAt, List.cons.injEq] at hfolder
  have hgrows : Grows (fun _ => false) here tree ready := grows_of_prepares h hready
  rw [hfolder.2]
  cases hready with
  | kept hnone =>
      rw [hparent] at hnone
      cases hnone
  | made hmake hmade =>
      rw [hparent] at hmake
      cases hmake
      by_cases htext : parent.text = ""
      · rw [show parent = ⟨""⟩ by cases parent; exact congrArg _ htext]
        exact hgrows.plain.here
      · exact hgrows.plain.node?_of_find (find_of_makeDirectories h htext hmade)

theorem isPlaceOf_of_places (h : IsPlain ready here)
    (hfolder : ready.node? (folderAt here packager folders) = some .directory)
    (hplaces : Places packager here source emitted ready file after) :
    IsPlaceOf here packager folders stem (destination here file.output) := by
  cases hplaces with
  | emitted hnone hwrite => exact .inl (destination_packaged hmodule)
  | fallback hartifact hcopy hwrite => exact .inl (destination_packaged hmodule)
  | compiled hartifact hcopy =>
      obtain ⟨origin, content, mode, name, directory, hfind, hopens, -⟩ := exists_of_copy h hcopy
      have hdestination : destination here (compiledPath packager source) =
          if stem = ['.'] then (folderAt here packager folders).tail
          else compiledAt here packager folders stem := destination_compiled hmodule
      have hstem : stem ≠ ['.'] := by
        rintro rfl
        rw [if_pos rfl, hopens.destination] at hdestination
        exact hopens.free (hdestination ▸ h.node?_tail hfolder)
      rw [if_neg hstem] at hdestination
      dsimp only
      exact .inr hdestination

/-- What is placed for a record is what is to be shipped for it. -/
theorem holds_of_places (h : IsPlain ready here)
    (hplace : IsPlaceOf here packager folders stem (destination here file.output))
    (hapart : ¬ destination here packager.output <:+ destination here source)
    (hplaces : Places packager here source emitted ready file after) :
    ∃ content mode, Holds packager here source emitted ready file content ∧
      find after here file.output = .ok (destination here file.output, .file content mode) := by
  cases hplaces with
  | emitted hnone hwrite =>
      obtain ⟨mode, hfind⟩ := find_of_write h hwrite
      exact ⟨_, mode, .emitted hnone, hfind⟩
  | fallback hartifact hcopy hwrite =>
      obtain ⟨mode, hfind⟩ := find_of_write h hwrite
      exact ⟨_, mode, .fallback hartifact, hfind⟩
  | @compiled artifact _ hartifact hcopy =>
      dsimp only at hplace ⊢
      obtain ⟨origin, content, mode, name, directory, hfind, -⟩ := exists_of_copy h hcopy
      have hread : readBytes ready here artifact = .ok content := by rw [readBytes, hfind]
      have hne : destination here artifact ≠ destination here (compiledPath packager source) := by
        obtain ⟨found, _, _, hfound, -⟩ := exists_of_artifact h hartifact
        rw [shownDirectory_textual] at hfound
        intro hsame
        rw [← hsame, ← destination_of_find h.noLinks hfound] at hplace
        rw [destination_directoryOf hmodule.fileName] at hapart
        exact hapart ((suffix_of_isPlaceOf hplace).trans (List.suffix_cons _ _))
      obtain ⟨mode, hfind⟩ := find_of_copy h hcopy hread hne
      exact ⟨content, mode, .compiled hartifact hread, hfind⟩

end

/-- Sources below the project, each a path of its own. -/
structure AreModules (packager : Packager) (records : List (Path × String)) : Prop where
  areSources : ∀ record ∈ records, isSource record.1 = true
  below : ∀ record ∈ records, ∃ names, IsBelow packager.project record.1 names
  distinct : records.Pairwise fun a b => a.1.same b.1 = false

theorem AreModules.tail {record : Path × String} (h : AreModules packager (record :: records)) :
    AreModules packager records where
  areSources := fun other hother => h.areSources other (List.mem_cons_of_mem record hother)
  below := fun other hother => h.below other (List.mem_cons_of_mem record hother)
  distinct := (List.pairwise_cons.mp h.distinct).2

theorem AreModules.exists_isModule {record : Path × String} (h : AreModules packager records)
    (hrecord : record ∈ records) :
      ∃ folders stem, IsModule packager.project record.1 folders stem := by
  obtain ⟨names, hnames⟩ := h.below record hrecord
  exact Outputs.exists_isModule hnames (h.areSources record hrecord)

/-- A tree at a record's turn: all records before have got their files, and the directory for this
one is made. -/
inductive IsTurn (packager : Packager) (here : Location) (start : FileTree)
    (records : List (Path × String))
    (record : Path × String) (turn : FileTree) : Prop
  | intro {front back : List (Path × String)} {files : List PackagedFile} {tree : FileTree}
      (hrecords : records = front ++ record :: back)
      (hfront : PlacesAll packager here start front files tree)
      (hready : Prepares packager here record.1 tree turn)

/-- A file for a record, placed at the record's turn at a place of its own, where it stays. -/
structure Ships (packager : Packager) (here : Location) (start after : FileTree)
    (records : List (Path × String)) (record : Path × String) (file : PackagedFile) : Prop where
  isPlace : ∃ folders stem, IsModule packager.project record.1 folders stem ∧
    IsPlaceOf here packager folders stem (destination here file.output)
  placed : ∃ turn between, IsTurn packager here start records record turn ∧
    Grows (isInside (destination here packager.output)) here start turn ∧
    Places packager here record.1 record.2 turn file between ∧
    Grows (fun location => isInside (destination here packager.output) location &&
      location != destination here file.output) here between after

theorem Ships.cons {record : Path × String} {between : FileTree} {other : PackagedFile}
    (hready : Prepares packager here source tree ready)
    (hplaces : Places packager here source emitted ready other between)
    (hgrows : Grows (isInside (destination here packager.output)) here tree between)
    (h : Ships packager here between after records record file) :
    Ships packager here tree after ((source, emitted) :: records) record file where
  isPlace := h.isPlace
  placed := by
    obtain ⟨turn, placed, ⟨hrecords, hfront, hturn⟩, hbefore, hplaced, hafter⟩ := h.placed
    exact ⟨turn, placed, ⟨by rw [hrecords]; rfl, .next hready hplaces hfront, hturn⟩,
      hgrows.trans hbefore, hplaced, hafter⟩

theorem exists_of_mem_right {α β : Type} {R : α → β → Prop} {as : List α} {bs : List β} {b : β}
    (h : List.Forall₂ R as bs) (hb : b ∈ bs) : ∃ a ∈ as, R a b := by
  induction h with
  | nil => cases hb
  | @cons a first as bs hfirst hrest ih =>
      rcases List.mem_cons.mp hb with rfl | hb
      · exact ⟨a, List.mem_cons_self, hfirst⟩
      · obtain ⟨other, hother, hrelated⟩ := ih hb
        exact ⟨other, List.mem_cons_of_mem a hother, hrelated⟩

theorem isInside_of_leadsTo
    (h : List.Forall₂ (Ships packager here before after turns) records files)
    {location : Location}
    (hlocation : leadsTo here (files.map PackagedFile.output) location = true) :
    isInside (destination here packager.output) location = true := by
  obtain ⟨path, hpath, rfl⟩ := leadsTo_iff.mp hlocation
  obtain ⟨file, hfile, rfl⟩ := List.mem_map.mp hpath
  obtain ⟨record, -, hships⟩ := exists_of_mem_right h hfile
  obtain ⟨folders, stem, -, hplace⟩ := hships.isPlace
  exact isInside_of_isPlaceOf hplace

theorem leadsTo_eq_false {record : Path × String}
    (hrecords : AreModules packager (record :: records))
    (h : List.Forall₂ (Ships packager here before after turns) records files) {location : Location}
    (hmodule : IsModule packager.project record.1 folders stem)
    (hplace : IsPlaceOf here packager folders stem location) :
    leadsTo here (files.map PackagedFile.output) location = false := by
  rw [Bool.eq_false_iff]
  intro hleads
  obtain ⟨path, hpath, rfl⟩ := leadsTo_iff.mp hleads
  obtain ⟨file, hfile, rfl⟩ := List.mem_map.mp hpath
  obtain ⟨other, hother, hships⟩ := exists_of_mem_right h hfile
  obtain ⟨folders', stem', hmodule', hplace'⟩ := hships.isPlace
  obtain ⟨rfl, rfl⟩ := eq_of_isPlaceOf hplace hplace'
  have hdistinct := (List.pairwise_cons.mp hrecords.distinct).1 other hother
  rw [hmodule.same hmodule'] at hdistinct
  cases hdistinct

theorem placesAll_ships (h : PlacesAll packager here tree records files after)
    (hplain : IsPlain tree here)
    (hrecords : AreModules packager records) :
    Grows (leadsTo here (files.map PackagedFile.output)) here tree after ∧
      List.Forall₂ (Ships packager here tree after records) records files := by
  induction h with
  | done tree => exact ⟨.refl _ hplain, .nil⟩
  | @next source emitted tree ready between after records file files hready hplaces rest ih =>
      obtain ⟨folders, stem, hmodule⟩ := hrecords.exists_isModule List.mem_cons_self
      have hmade : ∀ changing, Grows changing here tree ready := fun _ =>
        grows_of_prepares hplain hready
      have hready' : IsPlain ready here := (hmade fun _ => false).plain
      have hplaced := grows_of_places hready' hplaces
      have hplace :=
        isPlaceOf_of_places hmodule hready' (node?_folderAt hmodule hplain hready) hplaces
      obtain ⟨hothers, hships⟩ := ih hplaced.plain hrecords.tail
      have hinside : Grows (isInside (destination here packager.output)) here ready between := by
        refine hplaced.mono fun location hlocation => ?_
        obtain ⟨path, hpath, rfl⟩ := leadsTo_iff.mp hlocation
        rw [List.mem_singleton.mp hpath]
        exact isInside_of_isPlaceOf hplace
      have hlater : ∀ location, leadsTo here (files.map PackagedFile.output) location = true →
          (isInside (destination here packager.output) location &&
            location != destination here file.output) = true := by
        intro location hlocation
        rw [Bool.and_eq_true, bne_iff_ne]
        refine ⟨isInside_of_leadsTo hships hlocation, ?_⟩
        rintro rfl
        rw [leadsTo_eq_false hrecords hships hmodule hplace] at hlocation
        cases hlocation
      refine ⟨?_, .cons ⟨⟨folders, stem, hmodule, hplace⟩, ready, between,
        ⟨List.nil_append _, .done tree, hready⟩, hmade _, hplaces, hothers.mono hlater⟩ ?_⟩
      · refine (hmade _).trans ((hplaced.mono ?_).trans (hothers.mono ?_))
        all_goals
          intro location hlocation
          obtain ⟨path, hpath, rfl⟩ := leadsTo_iff.mp hlocation
          refine leadsTo_iff.mpr ⟨path, ?_, rfl⟩
        · rw [List.mem_singleton.mp hpath]
          exact List.mem_cons_self
        · exact List.mem_cons_of_mem _ hpath
      · exact hships.imp fun record file hship =>
          hship.cons hready hplaces ((hmade _).trans hinside)

theorem destination_auxiliary {path : Path} {name : String} (h : path.fileName? = some name) :
    destination here (packager.output.join ⟨name⟩) = name :: destination here packager.output := by
  obtain ⟨-, -, hproper, -⟩ := exists_of_fileName h
  have hslash := noSlash_of_fileName h
  have hpieces : Text.Pieces.pieces '/' (Path.chars ⟨name⟩) = [name.toList] :=
    pieces_of_not_mem hslash
  rw [destination_join (isAbsolute_name hslash), hpieces, follow_name _ hproper,
    String.ofList_toList]
  rfl

theorem grows_of_copied? {copied : Path} (h : IsPlain tree here)
    (hcopied : copied? tree here source copied = some after) :
      Grows (leadsTo here [copied]) here tree after :=
  grows_of_copy h (leadsTo_iff.mpr ⟨_, List.mem_singleton_self _, rfl⟩)
    (isFile_of_copied? hcopied).2

/-- Copying auxiliary files changes nothing but their copies, which are in the output directory. -/
theorem grows_of_copies {auxiliaries : List Path} {summary result : Summary}
    (h : Copies packager here tree auxiliaries summary result after) (hplain : IsPlain tree here) :
    summary.auxiliaryCopied ⊆ result.auxiliaryCopied ∧
      Grows (leadsTo here result.auxiliaryCopied) here tree after ∧
      ∀ path ∈ result.auxiliaryCopied, path ∈ summary.auxiliaryCopied ∨
        isInside (destination here packager.output) (destination here path) = true := by
  induction h with
  | done tree summary => exact ⟨List.Subset.refl _, .refl _ hplain, fun path hpath => .inl hpath⟩
  | nameless hname rest ih => exact ih hplain
  | @copied tree between after path rest summary result name hname hcopied hrest ih =>
      have hfirst := grows_of_copied? hplain hcopied
      obtain ⟨hsub, hgrows, hinside⟩ := ih hfirst.plain
      refine ⟨fun other hother => hsub (List.mem_append_left _ hother),
        (hfirst.mono fun location hlocation => ?_).trans hgrows, fun other hother => ?_⟩
      · obtain ⟨other, hother, rfl⟩ := leadsTo_iff.mp hlocation
        exact leadsTo_iff.mpr ⟨other, hsub (List.mem_append_right _ hother), rfl⟩
      · rcases hinside other hother with hmem | hbelow
        · rcases List.mem_append.mp hmem with hmem | hmem
          · exact .inl hmem
          · rw [List.mem_singleton.mp hmem, destination_auxiliary hname]
            exact .inr (isInside_cons.mpr (List.suffix_refl _))
        · exact .inr hbelow
  | missing hname hmissing hallowed rest ih => exact ih hplain

theorem grows_of_packs {summary : Summary} (h : Packs packager here tree records summary after)
    (hplain : IsPlain tree here) (hrecords : AreModules packager records) :
    Grows (isInside (destination here packager.output)) here tree after := by
  obtain ⟨hmade, hplaces, hcopies⟩ := h
  rename_i made packed files
  have hmake : Grows (isInside (destination here packager.output)) here tree made :=
    grows_of_made hplain hmade
  obtain ⟨hpacked, hships⟩ := placesAll_ships hplaces hmake.plain hrecords
  obtain ⟨-, hafter, hbelow⟩ := grows_of_copies hcopies hpacked.plain
  refine hmake.trans
    ((hpacked.mono fun location hlocation => isInside_of_leadsTo hships hlocation).trans
    (hafter.mono fun location hlocation => ?_))
  obtain ⟨path, hpath, rfl⟩ := leadsTo_iff.mp hlocation
  exact (hbelow path hpath).resolve_left (by simp)

theorem Holds.emitted_iff {content : ByteArray}
    (h : Holds packager here source emitted tree file content) :
    file.kind = .emitted ↔ artifact? tree here source = none := by
  cases h with
  | emitted hnone => simp [hnone]
  | compiled hartifact hread => simp [hartifact]
  | fallback hartifact => simp [hartifact]

/-- What was to be shipped at a record's turn was to be shipped at the start already, if the
directory of the source was there. -/
theorem Holds.at_start {turn : FileTree} {content : ByteArray}
    (h : Holds packager here source emitted turn file content)
    (hgrows : Grows (isInside (destination here packager.output)) here before turn)
    (hbefore : IsPlain before here)
    (hapart : ¬ destination here packager.output <:+ destination here (directoryOf source))
    (hdirectory : isDirectory before here (directoryOf source) = true) :
    Holds packager here source emitted before file content := by
  obtain ⟨base, hfind⟩ := exists_of_isDirectory hdirectory
  have hbase := destination_of_find hbefore.noLinks hfind
  have hfixed : ∀ name,
      isInside (destination here packager.output)
        (name :: destination here (directoryOf source)) = false :=
    fun name => Bool.eq_false_iff.mpr fun hinside => hapart (isInside_cons.mp hinside)
  have hartifact : artifact? turn here source = artifact? before here source := by
    rw [← shownDirectory_textual] at hfind
    refine artifact_of_grows hgrows hbefore hfind fun stem name hinside => ?_
    rw [hbase, hfixed name] at hinside
    cases hinside
  cases h with
  | emitted hnone => exact .emitted (hartifact ▸ hnone)
  | fallback hfound => exact .fallback (hartifact ▸ hfound)
  | @compiled artifact _ hfound hread =>
      obtain ⟨name, found, mode, hthere, -⟩ := exists_of_artifact hbefore (hartifact ▸ hfound)
      rw [shownDirectory_textual] at hthere
      have hthen := hgrows.find_kept hbefore.noLinks (fun _ => hfixed name) hthere
      refine .compiled (hartifact ▸ hfound) ?_
      rw [readBytes, hthen] at hread
      rw [readBytes, hthere]
      exact hread

/-- Separate sources: none of them is in the output directory. -/
structure AreSeparate (packager : Packager) (here : Location) (records : List (Path × String)) :
    Prop
    extends AreModules packager records where
  apart : ∀ record ∈ records, ¬ destination here packager.output <:+ destination here record.1

/-- What a file of a summary is: the file of its record, with what was to be shipped for the record
unless an auxiliary file has taken its place. -/
structure IsShipped (packager : Packager) (here : Location) (before after : FileTree)
    (copied : List Path)
    (records : List (Path × String)) (record : Path × String) (file : PackagedFile) : Prop where
  below : isInside (destination here packager.output) (destination here file.output) = true
  shipped : ∃ turn content,
    IsTurn packager here
      (FileTree.Access.makeDirectories before here packager.output).2 records record
      turn ∧
    Holds packager here record.1 record.2 turn file content ∧
    (file.kind = .emitted ↔ artifact? turn here record.1 = none) ∧
    (isDirectory before here (directoryOf record.1) = true →
      Holds packager here record.1 record.2 before file content) ∧
    ∃ found mode,
      find after here file.output = .ok (destination here file.output, .file found mode) ∧
      (leadsTo here copied (destination here file.output) = false → found = content)

theorem package_ships (hplain : IsPlain w.files w.here)
    (hrecords : AreSeparate packager w.here records)
    {summary : Summary} {left : Workspace}
    (h : attempted (packager.package records) w = (.ok summary, left)) :
    List.Forall₂
      (IsShipped packager w.here w.files left.files summary.auxiliaryCopied records) records
      summary.files := by
  obtain ⟨after, log, rfl, hmade, hplaces, hcopies⟩ := exists_of_package h
  rename_i made packed files
  have hmake : ∀ changing, Grows changing w.here w.files made := fun _ => grows_of_made hplain hmade
  obtain ⟨hpacked, hships⟩ :=
    placesAll_ships hplaces (hmake fun _ => false).plain hrecords.toAreModules
  have hfiles := files_of_copies hcopies
  obtain ⟨-, hcopied, -⟩ := grows_of_copies hcopies hpacked.plain
  rw [hfiles]
  refine (List.forall₂_and_left (p := fun record => record ∈ records) records files).mpr
    ⟨fun record => id, hships⟩ |>.imp fun record file => ?_
  rintro ⟨hrecord, ⟨folders, stem, hmodule, hplace⟩, turn, between, hturn, hbefore, hplaced, hlater⟩
  obtain ⟨content, mode, hholds, hfind⟩ :=
    holds_of_places hmodule hbefore.plain hplace (hrecords.apart record hrecord) hplaced
  have hapart : ¬ destination w.here packager.output <:+ destination w.here
    (directoryOf record.1) := by
    intro hsuffix
    refine hrecords.apart record hrecord ?_
    rw [destination_directoryOf hmodule.fileName]
    exact hsuffix.trans (List.suffix_cons _ _)
  have hkept :=
    hlater.find_kept (grows_of_places hbefore.plain hplaced).plain.noLinks (by simp) hfind
  refine ⟨isInside_of_isPlaceOf hplace, turn, content, by rwa [hmade], hholds, hholds.emitted_iff,
    hholds.at_start ((hmake _).trans hbefore) hplain hapart, ?_⟩
  obtain ⟨found, mode, hfound, -⟩ := find_file_of_grows hcopied hpacked.plain hkept
  refine ⟨found, mode, hfound, fun hfree => ?_⟩
  rw [hcopied.find_kept hpacked.plain.noLinks (fun _ => hfree) hkept] at hfound
  cases hfound
  rfl

theorem find_of_packs {summary : Summary} (h : Packs packager here tree records summary after)
    (hplain : IsPlain tree here) (houtput : packager.output.text ≠ "") :
    find after here packager.output = .ok (destination here packager.output, .directory) := by
  obtain ⟨hmade, hplaces, hcopies⟩ := h
  have hpacked := (isFile_of_placesAll hplaces).1.trans (extends_of_copies hcopies).1
  obtain ⟨later, hlater, halike⟩ := hpacked.find (find_of_makeDirectories hplain houtput hmade)
  cases halike
  exact hlater

/-- The notes on a run with those on what has been packaged. -/
def notesOn (summary : Summary) (metadata : List (String × Json.Value.Value)) :
    List (String × Json.Value.Value) :=
  putMetadata "source_fallbacks"
    (Json.Value.ofNat (summary.count .emitted + summary.count .copyFallback))
    (putMetadata "compiled_artifacts" (Json.Value.ofNat (summary.count .compiled)) metadata)

theorem exists_of_execute [Encoding] {settings : PackagingSettings} {context result : Context}
    {left : Workspace}
    (h : attempted ((packaging settings).execute context) w = (.ok result, left)) :
    ∃ summary,
      attempted (Packager.package { project := context.input, output := context.output, settings }
      context.records) w = (.ok summary, left) ∧
      result = { context with metadata := notesOn summary context.metadata, package := some summary
        } := by
  change attempted (package settings context) w = _ at h
  rw [package, attempted_bind, attempted_adapt] at h
  rcases hpackage :
    attempted (Packager.package { project := context.input, output := context.output, settings }
    context.records) w with ⟨problem | summary, after⟩
  · rw [hpackage] at h
    cases h
  · rw [hpackage] at h
    cases h
    exact ⟨summary, rfl, rfl⟩

theorem attempted_execute [Encoding] {settings : PackagingSettings} {context : Context}
    {left : Workspace}
    {summary : Summary}
    (h : attempted
      (Packager.package { project := context.input, output := context.output, settings }
      context.records) w = (.ok summary, left)) :
    attempted ((packaging settings).execute context) w =
      (.ok { context with metadata := notesOn summary context.metadata, package := some summary },
        left) := by
  change attempted (package settings context) w = _
  rw [package, attempted_bind, attempted_adapt, h]
  rfl

theorem verdict_passed [Encoding] {settings : PackagingSettings}
    {context result : Context} {left : Workspace}
    (houtput : context.output.text ≠ "")
    (h : attempted ((packaging settings).execute context) w = (.ok result, left)) :
    (verdict left result).passed = true := by
  obtain ⟨summary, hpackage, rfl⟩ := exists_of_execute h
  obtain ⟨after, log, rfl, hpacks⟩ := exists_of_package hpackage
  obtain ⟨hdirectory, hfiles⟩ := isDirectory_of_packs hpacks houtput
  obtain ⟨-, hplaces, hcopies⟩ := hpacks
  have hall : ∀ file ∈ summary.files, holds after w.here file.output = true :=
    fun file hfile => holds_of_isFile (hfiles file hfile)
  have hlength : summary.files.length = context.records.length := by
    rw [files_of_copies hcopies, length_of_placesAll hplaces]
  rw [verdict]
  dsimp only [Option.map_some, Option.getD_some]
  rw [List.countP_eq_length.mpr hall, hlength, hdirectory]
  simp [Context.records]

/-- A project with a compiled module and one that is not compiled. -/
def halfCompiled : Workspace :=
  { files :=
      { entries :=
          [(["p"], .directory), (["a.py", "p"], .file .empty false),
            (["a.so", "p"], .file "so".toUTF8 true),
            (["b.py", "p"], .file .empty false)] } }

def intoOut : Packager :=
  { project := ⟨"p"⟩, output := ⟨"out"⟩, settings := { auxiliaryFiles := [] } }

def twoRecords : List (Path × String) :=
  [(⟨"p/a.py"⟩, "a"), (⟨"p/b.py"⟩, "b")]

/-- A project away from the current directory. -/
def elsewhere : Workspace :=
  { files :=
      { entries := [(["q"], .directory), (["a.py", "q"], .file .empty false), (["w"], .directory)] }
    here := ["w"] }

def intoNothing : Packager :=
  { project := ⟨"/q"⟩, output := ⟨""⟩, settings := { auxiliaryFiles := [] } }

def oneOptimized : Context :=
  { input := intoNothing.project
    output := intoNothing.output
    outcomes := [.optimized ⟨"/q/a.py"⟩ "a" false {}] }

end Cythonizer.Proofs.Packaging.Shipping
