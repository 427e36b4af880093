import Cythonizer.Proofs.Packaging.Rewriting

namespace Cythonizer.Proofs.Packaging.Repetition

open Cythonizer.FileTree.Access
open Cythonizer.FileTree.Basic
open Cythonizer.Packaging.Artifact
open Cythonizer.Packaging.Basic
open Cythonizer.Proofs.FileTree.Agreement
open Cythonizer.Proofs.FileTree.Destinations
open Cythonizer.Proofs.FileTree.Finding
open Cythonizer.Proofs.FileTree.Growth
open Cythonizer.Proofs.Packaging.Artifacts
open Cythonizer.Proofs.Packaging.Outputs
open Cythonizer.Proofs.Packaging.Rewriting
open Cythonizer.Proofs.Packaging.Shipping
open Cythonizer.Proofs.Packaging.Turns
open Cythonizer.Proofs.Project.Walk

variable {packager : Packager} {here : Location}
    {start tree ready placed packed other after : FileTree}
  {source artifact : Path} {emitted : String} {file : PackagedFile} {files : List PackagedFile}
  {records : List (Path × String)} {folders : List (List Char)} {stem : List Char}
    {copied : Location → Bool}
  {output : Location} {auxiliaries paths pending : List Path} {summary result : Summary}

/-- Whether a run may write a file at a location: one that a compiler reads, or one in the output
directory. -/
def isTouched (output : Location) : Location → Bool
  | [] => false
  | name :: directory => isIntermediate name || output.isSuffixOf directory

theorem isTouched_of_isInside {location : Location} (h : isInside output location = true) :
    isTouched output location = true := by
  cases location with
  | nil => cases h
  | cons name directory => exact Bool.or_eq_true_iff.mpr (.inr h)

/-- A source whose directory is there, and not in the output directory. -/
structure IsApart (output here : Location) (start : FileTree) (source : Path) : Prop where
  directory : find start here (directoryOf source) =
    .ok (destination here (directoryOf source), .directory)
  apart : ¬ output <:+ destination here (directoryOf source)

theorem IsApart.isTouched {name : String} (h : IsApart output here start source)
    {stem : String} (hnamed : isNamedFor stem name = true) :
    isTouched output (name :: destination here (directoryOf source)) = false := by
  rw [isNamedFor, Bool.and_eq_true, beq_iff_eq] at hnamed
  have hintermediate : isIntermediate name = false := by
    rw [isIntermediate, hnamed.2]
    simp [compiledExtension]
  rw [Repetition.isTouched, hintermediate, Bool.false_or, Bool.eq_false_iff]
  exact fun hsuffix => h.apart (List.isSuffixOf_iff_suffix.mp hsuffix)

section

variable (hstart : IsPlain start here) (hsource : IsApart output here start source)
  (hgrows : Grows (isTouched output) here start tree)
include hstart hsource hgrows

theorem artifact_again : artifact? tree here source = artifact? start here source := by
  have hdirectory := hsource.directory
  rw [← shownDirectory_textual] at hdirectory
  refine artifact_of_grows hgrows hstart hdirectory fun stem name htouched => ?_
  rw [Bool.eq_false_iff]
  intro hnamed
  rw [shownDirectory_textual, hsource.isTouched hnamed] at htouched
  cases htouched

theorem find_artifact (hartifact : artifact? start here source = some artifact) :
    ∃ origin content mode, isTouched output origin = false ∧
      find start here artifact = .ok (origin, .file content mode) ∧
      find tree here artifact = .ok (origin, .file content mode) := by
  obtain ⟨name, content, mode, hfind, stem, hnamed⟩ := exists_of_artifact hstart hartifact
  rw [shownDirectory_textual] at hfind
  have hfixed := hsource.isTouched hnamed
  exact ⟨_, content, mode, hfixed, hfind, hgrows.find_kept hstart.noLinks (fun _ => hfixed) hfind⟩

end

/-- What has been written at a path when a tree was packed can be written there again. -/
theorem write_again {path : Path} {content : ByteArray} {later : Location → Bool}
    (hplain : IsPlain tree here)
    (hwrite : write tree here path content = .ok placed) (hlater : Grows later here placed packed)
    (hfixed : later (destination here path) = false) (hagrees : Agrees copied packed other)
    (hgrows : Grows (fun _ => true) here packed other) (hpath : Rewritable here other [path])
    (hwritable : Rewritable here other paths) :
    ∃ after, write other here path content = .ok after ∧ Agrees copied packed after ∧
      Rewritable here after paths := by
  have hplaced : Grows (fun _ => true) here tree placed := grows_of_write hplain rfl hwrite
  obtain ⟨mode, hfind⟩ := find_of_write hplain hwrite
  have hpacked := hlater.find_kept hplaced.plain.noLinks (fun _ => hfixed) hfind
  have hnode := hlater.plain.node?_of_find hpacked
  obtain ⟨old, mode', hfound, hnow⟩ := find_file_of_grows hgrows hlater.plain hpacked
  have hmode : mode'.writable = true := hpath path (List.mem_singleton_self path) old mode' hnow
  have hroot : destination here path ≠ [] := by
    intro hroot
    rw [hroot] at hnode
    cases hnode
  refine ⟨_, write_of_find hfound hmode, hagrees.put_file hroot hnode fun hfree => ⟨rfl, ?_⟩,
    hwritable.put hroot fun _ _ _ => hmode⟩
  · have hsame := hagrees.nodes _ hfree
    rw [hnode, hnow] at hsame
    cases hsame
    rfl

/-- A compiled file that was copied from outside the output directory can be copied again. -/
theorem copy_again {path : Path} {later : Location → Bool} {origin : Location} {content : ByteArray}
    {mode : FileMode} (hplain : IsPlain tree here)
    (hcopy : FileTree.Access.copy tree here artifact path = .ok placed)
    (hlater : Grows later here placed packed)
    (hfixed : later (destination here path) = false) (hagrees : Agrees copied packed other)
    (hgrows : Grows (fun _ => true) here packed other)
    (hthere : find tree here artifact = .ok (origin, .file content mode))
    (hagain : find other here artifact = .ok (origin, .file content mode))
    (hpath : Rewritable here other [path]) (hwritable : Rewritable here other paths)
    (hkept : ∀ next ∈ paths, next ∈ pending ∨ destination here next ≠ destination here path)
    (hpending : Rewritable here packed pending) :
    ∃ after, FileTree.Access.copy other here artifact path = .ok after ∧
      Agrees copied packed after ∧
      Rewritable here after paths := by
  have hplaced : Grows (fun _ => true) here tree placed := grows_of_copy hplain rfl hcopy
  obtain ⟨origin, content, mode, name, directory, hartifact, hopens, rfl⟩ :=
    exists_of_copy hplain hcopy
  rw [hartifact] at hthere
  cases hthere
  have hfind := find_of_opens hopens hplaced hplain.noLinks (node?_put _ (by simp))
  have hpacked :=
    hlater.find_kept hplaced.plain.noLinks (fun _ => hopens.destination ▸ hfixed) hfind
  obtain ⟨old, mode', hfound, hnow⟩ := find_file_of_grows hgrows hlater.plain hpacked
  have hnode := hlater.plain.node?_of_find hpacked
  refine ⟨_, copy_of_open hagain (readable_of_copy hcopy hartifact) (open_of_find hfound
      (hpath path (List.mem_singleton_self path) old mode' (hopens.destination ▸ hnow))),
    hagrees.put_file (by simp) hnode fun _ => ⟨rfl, rfl⟩,
    hwritable.put (by simp) fun next hnext hnew => ?_⟩
  rcases hkept next hnext with hmem | hne
  · exact hpending next hmem _ _ (hnew ▸ hnode)
  · exact absurd (hnew.trans hopens.destination.symm) hne

/-- A compiled file that could not be copied cannot be copied later on. -/
theorem exists_error_of_copy {error : FileError} {origin : Location} {content : ByteArray}
    {mode : FileMode}
    (hmodule : IsModule packager.project source folders stem) (hplain : IsPlain ready here)
    (hgrows : Grows (fun _ => true) here ready other) (hlocks : Locks ready other)
    (hthere : find ready here artifact = .ok (origin, .file content mode))
    (hthen : find other here artifact = .ok (origin, .file content mode))
    (hcopy : FileTree.Access.copy ready here artifact (compiledPath packager source) = .error error)
    (hopen : CanOpen ready here (packager.packaged source)) :
    ∃ error, FileTree.Access.copy other here artifact (compiledPath packager source) =
      .error error := by
  cases hagain : FileTree.Access.copy other here artifact (compiledPath packager source) with
  | error error => exact ⟨error, rfl⟩
  | ok after =>
      obtain ⟨front, hends, hcompiled⟩ := ends_compiled hmodule
      obtain ⟨-, -, place, hdescend, hopening⟩ := (canOpen_iff_descend hplain.noLinks).mp hopen
      rw [hends.pieces] at hdescend
      obtain ⟨directory, hdirectory⟩ := exists_directory hdescend hopening
      have hbefore :=
        canOpen_beside hgrows hlocks hplain.noLinks hends hcompiled hdirectory
          (canOpen_of_copy hagain)
      obtain ⟨copied, hcopied⟩ := exists_copy hthere (readable_of_copy hagain hthen) hbefore
      rw [compiledPath] at hcopy
      rw [hcopied] at hcopy
      cases hcopy

section

variable {later : Location → Bool} (hstart : IsPlain start here)
    (hsource : IsApart output here start source)
  (hmodule : IsModule packager.project source folders stem)
  (hready : Grows (isTouched output) here start ready)
  (hplaces : Places packager here source emitted ready file placed)
  (hlater : Grows later here placed packed) (hfixed : later (destination here file.output) = false)
  (hkept : Locks placed packed) (hagrees : Agrees copied packed other)
  (hother : Grows (isTouched output) here start other)
    (hgrows : Grows (fun _ => true) here packed other)
  (hlocks : Locks packed other) (hpath : Rewritable here other [file.output])
  (hwritable : Rewritable here other paths)
  (hapart : ∀ next ∈ paths, next ∈ pending ∨ destination here next ≠ destination here file.output)
  (hpending : Rewritable here packed pending)
include hstart hsource hmodule hready hplaces hlater hfixed hkept hagrees hother hgrows
    hlocks hpath hwritable
  hapart hpending

theorem places_again :
    ∃ after, Places packager here source emitted other file after ∧ Agrees copied packed after ∧
      Rewritable here after paths := by
  have hsame : artifact? other here source = artifact? ready here source := by
    rw [artifact_again hstart hsource hother, artifact_again hstart hsource hready]
  have hfound : ∀ artifact, artifact? ready here source = some artifact →
      ∃ origin content mode, find ready here artifact = .ok (origin, .file content mode) ∧
        find other here artifact = .ok (origin, .file content mode) := by
    intro artifact hartifact
    rw [artifact_again hstart hsource hready] at hartifact
    obtain ⟨origin, content, mode, -, hfirst, hthere⟩ :=
      find_artifact hstart hsource hready hartifact
    obtain ⟨origin', content', mode', -, hfirst', hagain⟩ :=
      find_artifact hstart hsource hother hartifact
    rw [hfirst] at hfirst'
    cases hfirst'
    exact ⟨origin, content, mode, hthere, hagain⟩
  cases hplaces with
  | emitted hnone hwrite =>
      dsimp only at hfixed hpath
      obtain ⟨after, hagain, hafter⟩ :=
        write_again hready.plain hwrite hlater hfixed hagrees hgrows hpath hwritable
      exact ⟨after, .emitted (hsame.trans hnone) hagain, hafter⟩
  | compiled hartifact hcopy =>
      obtain ⟨origin, content, mode, hthere, hthen⟩ := hfound _ hartifact
      dsimp only at hfixed hpath hapart
      obtain ⟨after, hagain, hafter⟩ :=
        copy_again hready.plain hcopy hlater hfixed hagrees hgrows hthere hthen
        hpath hwritable hapart hpending
      exact ⟨after, .compiled (hsame.trans hartifact) hagain, hafter⟩
  | fallback hartifact hcopy hwrite =>
      obtain ⟨origin, content, mode, hthere, hthen⟩ := hfound _ hartifact
      dsimp only at hfixed hpath
      obtain ⟨after, hagain, hafter⟩ :=
        write_again hready.plain hwrite hlater hfixed hagrees hgrows hpath hwritable
      have hplaced : Grows (fun _ => true) here ready placed :=
        grows_of_write hready.plain rfl hwrite
      obtain ⟨error, herror⟩ := exists_error_of_copy hmodule hready.plain
        ((hplaced.trans (hlater.mono fun _ _ => rfl)).trans hgrows)
        (((locks_of_write hready.plain hwrite).trans hkept).trans hlocks) hthere hthen hcopy
        (canOpen_of_write hwrite)
      exact ⟨after, .fallback (hsame.trans hartifact) herror hagain, hafter⟩

end

theorem prepares_again {changing : Location → Bool} (hplain : IsPlain tree here)
    (hready : Prepares packager here source tree ready) (hgrows : Grows changing here ready other) :
    Prepares packager here source other other := by
  cases hready with
  | made hparent hmade => exact .made hparent (makeDirectories_again hplain hmade hgrows)
  | kept hparent => exact .kept hparent

/-- Where everything is packed all records get their files again. -/
theorem placesAll_again (h : PlacesAll packager here tree records files packed)
    (hstart : IsPlain start here)
    (htree : Grows (isTouched (destination here packager.output)) here start tree)
    (hrecords : AreModules packager records)
    (hsources : ∀ record ∈ records, IsApart (destination here packager.output) here start record.1)
    (hother : Grows (isTouched (destination here packager.output)) here start other)
    (hgrows : Grows (fun _ => true) here packed other) (hlocks : Locks packed other)
    (hagrees : Agrees copied packed other)
    (hwritable : Rewritable here other (files.map PackagedFile.output ++ pending))
    (hpending : Rewritable here packed pending) :
    ∃ after, PlacesAll packager here other records files after ∧ Agrees copied packed after ∧
      Grows (isTouched (destination here packager.output)) here other after ∧
      Rewritable here after pending := by
  induction h generalizing other with
  | done tree => exact ⟨other, .done other, hagrees, .refl _ hgrows.plain, hwritable⟩
  | @next source emitted tree ready between packed records file files hready hplaces rest ih =>
      obtain ⟨folders, stem, hmodule⟩ := hrecords.exists_isModule List.mem_cons_self
      have hmade : ∀ changing, Grows changing here tree ready := fun _ =>
        grows_of_prepares htree.plain hready
      have hready' : IsPlain ready here := (hmade fun _ => false).plain
      have hplaced := grows_of_places hready' hplaces
      have hplace :=
        isPlaceOf_of_places hmodule hready' (node?_folderAt hmodule htree.plain hready) hplaces
      obtain ⟨hlater, hships⟩ := placesAll_ships rest hplaced.plain hrecords.tail
      have hfixed := leadsTo_eq_false hrecords hships hmodule hplace
      have htouched : ∀ location, leadsTo here [file.output] location = true →
          isTouched (destination here packager.output) location = true := by
        intro location hlocation
        obtain ⟨path, hpath, rfl⟩ := leadsTo_iff.mp hlocation
        rw [List.mem_singleton.mp hpath]
        exact isTouched_of_isInside (isInside_of_isPlaceOf hplace)
      have hagain : Prepares packager here source other other :=
        prepares_again htree.plain hready
          (((hplaced.mono fun _ _ => rfl).trans (hlater.mono fun _ _ => rfl)).trans hgrows)
      have hapart : ∀ next ∈ files.map PackagedFile.output ++ pending,
          next ∈ pending ∨ destination here next ≠ destination here file.output := by
        intro next hnext
        rcases List.mem_append.mp hnext with hmem | hmem
        · refine .inr fun hsame => ?_
          rw [← hsame, leadsTo_iff.mpr ⟨next, hmem, rfl⟩] at hfixed
          cases hfixed
        · exact .inl hmem
      obtain ⟨after, hplaces', hafter, hstill⟩ :=
        places_again hstart (hsources _ List.mem_cons_self) hmodule
        (htree.trans (hmade _)) hplaces hlater hfixed
          (locks_of_placesAll rest hplaced.plain).1 hagrees hother
        hgrows hlocks (hwritable.mono (by simp))
          (hwritable.mono (List.subset_cons_self _ _)) hapart hpending
      have hwritten := (grows_of_places hgrows.plain hplaces').mono htouched
      obtain ⟨last, hlast, hsame, hrest, hlater⟩ := ih
        ((htree.trans (hmade _)).trans (hplaced.mono htouched)) hrecords.tail
        (fun record hrecord => hsources record (List.mem_cons_of_mem _ hrecord))
          (hother.trans hwritten)
        (hgrows.trans (hwritten.mono fun _ _ => rfl))
          (hlocks.trans (locks_of_places hgrows.plain hplaces').1)
        hafter hstill hpending
      exact ⟨last, .next hagain hplaces' hlast, hsame, hwritten.trans hrest, hlater⟩

theorem exists_of_isFile (h : isFile tree here source = true) :
    ∃ location content mode, find tree here source = .ok (location, .file content mode) := by
  unfold isFile at h
  split at h
  · rename_i location content mode hfind
    exact ⟨location, content, mode, hfind⟩
  · cases h

/-- Copying auxiliary files changes the places of the copies only. -/
theorem copies_agrees (h : Copies packager here tree auxiliaries summary result after)
    (hplain : IsPlain tree here) :
    ∃ pending, result.auxiliaryCopied = summary.auxiliaryCopied ++ pending ∧
      Agrees (leadsTo here pending) tree after ∧
      ∀ path ∈ pending, isInside (destination here packager.output)
        (destination here path) = true := by
  induction h with
  | done tree summary => exact ⟨[], (List.append_nil _).symm, .refl _ tree, by simp⟩
  | nameless hname rest ih => exact ih hplain
  | @copied tree between after path rest summary result name hname hcopied hrest ih =>
      obtain ⟨pending, hresult, hagrees, hinside⟩ := ih (grows_of_copied? hplain hcopied).plain
      obtain ⟨origin, content, mode, last, directory, -, hopens, rfl⟩ :=
        exists_of_copy hplain (isFile_of_copied? hcopied).2
      refine ⟨packager.output.join ⟨name⟩ :: pending, by simp [hresult],
        ⟨fun location hfree => ?_, ?_⟩, ?_⟩
      · have hpending : leadsTo here pending location = false := by
          rw [Bool.eq_false_iff] at hfree ⊢
          intro hleads
          obtain ⟨other, hother, hdestination⟩ := leadsTo_iff.mp hleads
          exact hfree (leadsTo_iff.mpr ⟨other, List.mem_cons_of_mem _ hother, hdestination⟩)
        have hne : location ≠ last :: directory := by
          rintro rfl
          rw [← hopens.destination] at hfree
          rw [leadsTo_iff.mpr ⟨_, List.mem_cons_self, rfl⟩] at hfree
          cases hfree
        rw [hagrees.nodes location hpending, node?_put_of_ne _ hne]
      · intro location
        rw [hagrees.directories]
        by_cases hlocation : location = last :: directory
        · subst hlocation
          rw [node?_put _ (by simp)]
          simp [hopens.free]
        · rw [node?_put_of_ne _ hlocation]
      · intro other hother
        rcases List.mem_cons.mp hother with rfl | hother
        · rw [destination_auxiliary hname]
          exact isInside_cons.mpr (List.suffix_refl _)
        · exact hinside other hother
  | missing hname hmissing hallowed rest ih => exact ih hplain

theorem isFile_of_find {location : Location} {content : ByteArray} {mode : FileMode}
    (h : find tree here source = .ok (location, .file content mode)) :
    isFile tree here source = true := by
  rw [isFile, h]

section

variable {path : Path} (htree : IsPlain tree here) (hother : IsPlain other here)
  (hagrees : Agrees copied tree other) (hfixed : copied (destination here source) = false)
include htree hother hagrees hfixed

/-- An auxiliary file from a place that does not differ is copied to where one has been copied
before. -/
theorem copied?_again {apart : Location → Bool}
    (happart : ∀ l, l ≠ destination here path → copied l = true → apart l = true)
    (hcopied : copied? tree here source path = some placed)
    (hlater : Grows (fun _ => true) here placed other)
    (hpath : Rewritable here other [path]) (hwritable : Rewritable here other paths)
    (hplaced : Rewritable here placed paths) :
    ∃ after, copied? other here source path = some after ∧ Agrees apart placed after ∧
      Rewritable here after paths := by
  obtain ⟨hfile, hcopy⟩ := isFile_of_copied? hcopied
  have hgrown : Grows (fun _ => true) here tree placed := grows_of_copy htree rfl hcopy
  obtain ⟨origin, content, mode, name, directory, hfind, hopens, rfl⟩ := exists_of_copy htree hcopy
  have horigin := destination_of_find htree.noLinks hfind
  have hagain := hagrees.find htree.noLinks hother.noLinks (fun _ => horigin ▸ hfixed) hfind
  have hthere := find_of_opens hopens hgrown htree.noLinks (node?_put _ (by simp))
  obtain ⟨old, mode', hfound, hnow⟩ := find_file_of_grows hlater hgrown.plain hthere
  have hnew : ∀ next ∈ paths, destination here next = name :: directory → mode.writable = true := by
    intro next hnext hleads
    have hnode := hplaced next hnext (if name :: directory = origin then .empty else content) mode
    rw [hleads] at hnode
    exact hnode (node?_put _ (by simp))
  refine ⟨other.put (name :: directory)
    (.file (if name :: directory = origin then .empty else content)
    mode), ?_, hagrees.put (by simp) (fun l hl => happart l (hopens.destination ▸ hl)) _,
    hwritable.put (by simp) hnew⟩
  rw [copied?, if_pos (isFile_of_find hagain), copy_of_open hagain (readable_of_copy hcopy hfind)
    (open_of_find hfound
      (hpath path (List.mem_singleton_self path) old mode' (hopens.destination ▸ hnow)))]
  rfl

theorem copied?_none_again (hlocks : Locks tree other)
    (hcopied : copied? tree here source path = none) :
    copied? other here source path = none := by
  cases hagain : copied? other here source path with
  | none => rfl
  | some after =>
      obtain ⟨hfile, hcopy⟩ := isFile_of_copied? hagain
      obtain ⟨location, content, mode, hfind⟩ := exists_of_isFile hfile
      have hlocation := destination_of_find hother.noLinks hfind
      have hthere := hagrees.symm.find hother.noLinks htree.noLinks
        (fun _ => hlocation ▸ hfixed) hfind
      obtain ⟨made, hmade⟩ := exists_copy hthere (readable_of_copy hcopy hfind)
        (hagrees.symm.canOpen hother.noLinks htree.noLinks hlocks (canOpen_of_copy hcopy))
      rw [copied?, if_pos (isFile_of_find hthere), hmade] at hcopied
      cases hcopied

end

theorem leadsTo_of_outside {pending : List Path}
    (hinside : ∀ path ∈ pending, isInside output (destination here path) = true)
    {location : Location}
    (h : isInside output location = false) : leadsTo here pending location = false := by
  rw [Bool.eq_false_iff]
  intro hleads
  obtain ⟨path, hpath, rfl⟩ := leadsTo_iff.mp hleads
  rw [hinside path hpath] at h
  cases h

/-- Where auxiliary files have been copied they are copied again, and then nothing has changed. -/
theorem copies_again (h : Copies packager here tree auxiliaries summary result after)
    (hplain : IsPlain tree here)
    (hauxiliaries : ∀ path ∈ auxiliaries,
      isInside (destination here packager.output)
        (destination here (packager.project.join path)) = false)
    {pending : List Path} (hpending : result.auxiliaryCopied = summary.auxiliaryCopied ++ pending)
    (hinside : ∀ path ∈ pending, isInside (destination here packager.output)
      (destination here path) = true)
    (hagrees : Agrees (leadsTo here pending) tree other)
    (hgrows : Grows (fun _ => true) here after other)
    (hwritable : Rewritable here other pending) :
    ∃ last, Copies packager here other auxiliaries summary result last ∧
      Agrees (fun _ => false) after last := by
  induction h generalizing other pending with
  | done tree summary =>
      have hnil : pending = [] := by simpa using hpending
      subst hnil
      exact ⟨other, .done other summary, fun location _ =>
        hagrees.nodes location rfl, hagrees.directories⟩
  | nameless hname rest ih =>
      obtain ⟨-, hrest⟩ := List.forall_mem_cons.mp hauxiliaries
      obtain ⟨last, hlast, hsame⟩ := ih hplain hrest hpending hinside hagrees hgrows hwritable
      exact ⟨last, .nameless hname hlast, hsame⟩
  | @copied tree between after path rest summary result name hname hcopied hrest ih =>
      obtain ⟨hfirst, hothers⟩ := List.forall_mem_cons.mp hauxiliaries
      have hbetween := grows_of_copied? hplain hcopied
      obtain ⟨more, hmore, -, hinside'⟩ := copies_agrees hrest hbetween.plain
      obtain rfl : pending = packager.output.join ⟨name⟩ :: more := by
        rw [hpending, List.append_assoc] at hmore
        exact List.append_cancel_left hmore
      obtain ⟨-, hafter, -⟩ := grows_of_copies hrest hbetween.plain
      have hmonotone : ∀ l, l ≠ destination here (packager.output.join ⟨name⟩) →
          leadsTo here (packager.output.join ⟨name⟩ :: more) l = true →
            leadsTo here more l = true := by
        intro l hne hleads
        obtain ⟨path, hpath, rfl⟩ := leadsTo_iff.mp hleads
        rcases List.mem_cons.mp hpath with rfl | hpath
        · exact absurd rfl hne
        · exact leadsTo_iff.mpr ⟨path, hpath, rfl⟩
      obtain ⟨made, hmade, hsame, hstill⟩ := copied?_again hplain hgrows.plain hagrees
        (leadsTo_of_outside hinside hfirst) hmonotone hcopied
          ((hafter.mono fun _ _ => rfl).trans hgrows)
        (hwritable.mono (by simp)) (hwritable.mono (List.subset_cons_self _ _))
        ((locks_of_copies hrest hbetween.plain).2 more hmore)
      have hgrown := grows_of_copied? hgrows.plain hmade
      obtain ⟨last, hlast, hlast'⟩ := ih hbetween.plain hothers hmore hinside' hsame
        (hgrows.trans (hgrown.mono fun _ _ => rfl)) hstill
      exact ⟨last, .copied hname hmade hlast, hlast'⟩
  | missing hname hmissing hallowed rest ih =>
      obtain ⟨hfirst, hothers⟩ := List.forall_mem_cons.mp hauxiliaries
      have hlocks := locks_of_agrees hagrees ((locks_of_copies rest hplain).2 pending hpending)
      have hagain :=
        copied?_none_again hplain hgrows.plain hagrees
          (leadsTo_of_outside hinside hfirst) hlocks hmissing
      obtain ⟨last, hlast, hsame⟩ := ih hplain hothers hpending hinside hagrees hgrows hwritable
      exact ⟨last, .missing hname hagain hallowed hlast, hsame⟩

/-- Packaging again what has been packaged gives the same summary and changes nothing, if every file
of the summary may be written. -/
theorem packs_again (h : Packs packager here tree records summary after)
    (hstart : IsPlain start here)
    (htree : Grows (isTouched (destination here packager.output)) here start tree)
    (hrecords : AreModules packager records)
    (hsources : ∀ record ∈ records, IsApart (destination here packager.output) here start record.1)
    (hauxiliaries : ∀ path ∈ packager.settings.auxiliaryFiles,
      isInside (destination here packager.output)
        (destination here (packager.project.join path)) = false)
    (hother : Grows (isTouched (destination here packager.output)) here after other)
    (hagrees : Agrees (fun _ => false) after other)
    (hwritable : Rewritable here other
      (summary.files.map PackagedFile.output ++ summary.auxiliaryCopied)) :
    ∃ last, Packs packager here other records summary last ∧
      Agrees (fun _ => false) after last := by
  have hgrown := grows_of_packs h htree.plain hrecords
  obtain ⟨hmade, hplaces, hcopies⟩ := h
  rename_i made packed files
  have hmake : ∀ changing, Grows changing here tree made := fun _ => grows_of_made htree.plain hmade
  obtain ⟨hpacked, -⟩ := placesAll_ships hplaces (hmake fun _ => false).plain hrecords
  obtain ⟨-, hafter, -⟩ := grows_of_copies hcopies hpacked.plain
  obtain ⟨pending, hpending, hsame, hpaths⟩ := copies_agrees hcopies hpacked.plain
  have hlater : Grows (fun _ => true) here packed other :=
    (hafter.mono fun _ _ => rfl).trans (hother.mono fun _ _ => rfl)
  have hready : Grows (isTouched (destination here packager.output)) here start other :=
    (htree.trans (hgrown.mono fun _ => isTouched_of_isInside)).trans hother
  have hagain :=
    makeDirectories_again htree.plain hmade ((hpacked.mono fun _ _ => rfl).trans hlater)
  obtain rfl : pending = summary.auxiliaryCopied := hpending.symm
  have hlocks : Locks packed other :=
    (locks_of_copies hcopies hpacked.plain).1.trans (locks_of_same hagrees)
  rw [files_of_copies hcopies] at hwritable
  obtain ⟨packed', hplaces', hagrees', hgrows', hstill⟩ := placesAll_again hplaces hstart
    (htree.trans (hmake _)) hrecords hsources hready hlater hlocks (hsame.trans hagrees) hwritable
    ((locks_of_copies hcopies hpacked.plain).2 _ rfl)
  obtain ⟨last, hlast, hdone⟩ :=
    copies_again hcopies hpacked.plain hauxiliaries hpending hpaths hagrees'
    ((hother.mono fun _ _ => rfl).trans (hgrows'.mono fun _ _ => rfl)) hstill
  exact ⟨last, ⟨hagain, hplaces', hlast⟩, hdone⟩

end Cythonizer.Proofs.Packaging.Repetition
