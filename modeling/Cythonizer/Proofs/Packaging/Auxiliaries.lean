import Cythonizer.Proofs.Packaging.Shipping

/-!
What becomes of the auxiliary files. Each of them has its turn, in the order of the settings
(`AreTurns`). All copies go directly into the output directory, so that only a later file of the
same name takes the place of a copy, and no copy takes the place of a file that is elsewhere
(`auxiliaries_arrive`).
-/

namespace Cythonizer.Proofs.Packaging.Auxiliaries

open Cythonizer.FileTree.Access
open Cythonizer.FileTree.Basic
open Cythonizer.Packaging.Basic
open Cythonizer.Proofs.FileTree.Destinations
open Cythonizer.Proofs.FileTree.Finding
open Cythonizer.Proofs.FileTree.Frames
open Cythonizer.Proofs.FileTree.Growth
open Cythonizer.Proofs.Packaging.Shipping
open Cythonizer.Proofs.Packaging.Turns
open Cythonizer.Proofs.Path.Joining
open Cythonizer.Proofs.Workspace.Runs

variable {packager : Packager} {here : Location} {w left : Workspace}
    {tree between after : FileTree}
  {file : Path} {name : String} {auxiliaries : List Path} {records : List (Path × String)}
  {summary result : Summary}

/-- The turn of an auxiliary file that has a file name, and whether it has been copied. -/
structure Turn where
  file : Path
  name : String
  copied : Bool
  deriving DecidableEq

def Turn.source (packager : Packager) (turn : Turn) : Path :=
  packager.project.join turn.file

def Turn.target (packager : Packager) (turn : Turn) : Path :=
  packager.output.join ⟨turn.name⟩

def Turn.named (turn : Turn) : Path × String :=
  (turn.file, turn.name)

/-- An auxiliary file with its file name. Without one it is passed over. -/
def named? (file : Path) : Option (Path × String) :=
  file.fileName?.map fun name => (file, name)

/-- The copies of some turns. -/
def copiesOf (packager : Packager) (turns : List Turn) : List Path :=
  (turns.filter Turn.copied).map (Turn.target packager)

/-- The sources of the turns that have left no copy. -/
def missedOf (packager : Packager) (turns : List Turn) : List Path :=
  (turns.filter fun turn => !turn.copied).map (Turn.source packager)

theorem copiesOf_cons (turn : Turn) (turns : List Turn) :
    copiesOf packager (turn :: turns) = copiesOf packager [turn] ++ copiesOf packager turns := by
  rw [← List.singleton_append, copiesOf, List.filter_append, List.map_append]
  rfl

theorem missedOf_cons (turn : Turn) (turns : List Turn) :
    missedOf packager (turn :: turns) = missedOf packager [turn] ++ missedOf packager turns := by
  rw [← List.singleton_append, missedOf, List.filter_append, List.map_append]
  rfl

/-- What happens at a turn: from the tree that the turns before leave behind, to the one after all
turns. -/
inductive Happens (packager : Packager) (here : Location) (tree : FileTree)
    (auxiliaries : List Path)
    (summary : Summary) (after : FileTree) (before : List Turn) (turn : Turn) (later : List Turn) :
      Prop
  | intro {front back : List Path} {partial' : Summary} {reached : FileTree}
      (hfiles : auxiliaries = front ++ turn.file :: back)
      (hnamed : front.filterMap named? = before.map Turn.named)
      (hreached : Copies packager here tree front summary partial' reached)
      (hplain : IsPlain reached here)
      (hname : turn.file.fileName? = some turn.name)
      (hcopied : turn.copied = true → ∃ between,
        copied? reached here (turn.source packager) (turn.target packager) = some between ∧
        Grows (leadsTo here (copiesOf packager later)) here between after)
      (hmissed : turn.copied = false → packager.settings.requireAuxiliaryFiles = false ∧
        copied? reached here (turn.source packager) (turn.target packager) = none)

/-- The turns of a run. -/
structure Takes (packager : Packager) (here : Location) (tree : FileTree) (auxiliaries : List Path)
    (summary result : Summary) (after : FileTree) (turns : List Turn) : Prop where
  named : turns.map Turn.named = auxiliaries.filterMap named?
  copied : result.auxiliaryCopied = summary.auxiliaryCopied ++ copiesOf packager turns
  missing : result.auxiliaryMissing = summary.auxiliaryMissing ++ missedOf packager turns
  grows : Grows (leadsTo here (copiesOf packager turns)) here tree after
  happens : ∀ before turn later, turns = before ++ turn :: later →
    Happens packager here tree auxiliaries summary after before turn later

theorem leadsTo_append {paths others : List Path} {location : Location} :
    leadsTo here (paths ++ others) location = true ↔
      leadsTo here paths location = true ∨ leadsTo here others location = true := by
  simp [leadsTo]

section Steps

variable {start : FileTree} {changed : Summary} {before later turns : List Turn} {turn first : Turn}

/-- A turn that one more file comes before. The file has a turn itself, or is passed over. -/
theorem Happens.cons (firsts : List Turn)
    (h : Happens packager here start auxiliaries changed after before turn later)
    (hfirsts : [file].filterMap named? = firsts.map Turn.named)
    (hstep : ∀ {front partial' reached}, Copies packager here start front changed partial' reached →
      Copies packager here tree (file :: front) summary partial' reached) :
    Happens packager here tree (file :: auxiliaries) summary after
      (firsts ++ before) turn later := by
  obtain ⟨hfiles, hnamed, hreached, hplain, hname, hcopied, hmissed⟩ := h
  rename_i front back partial' reached
  refine ⟨by rw [hfiles, List.cons_append], ?_, hstep hreached, hplain, hname, hcopied, hmissed⟩
  rw [List.map_append, ← hfirsts, ← hnamed, ← List.filterMap_append, List.singleton_append]

theorem filterMap_named? (h : first.file.fileName? = some first.name) :
    [first.file].filterMap named? = [first].map Turn.named := by
  rw [List.filterMap_cons_some (by rw [named?, h]; rfl)]
  rfl

/-- The turns of a run with one more turn before. -/
theorem Takes.cons (first : Turn)
    (hturns : Takes packager here start auxiliaries changed result after turns)
    (hfirst : Happens packager here tree (first.file :: auxiliaries) summary after [] first turns)
    (hname : first.file.fileName? = some first.name)
    (hcopied : changed.auxiliaryCopied = summary.auxiliaryCopied ++ copiesOf packager [first])
    (hmissing : changed.auxiliaryMissing = summary.auxiliaryMissing ++ missedOf packager [first])
    (hgrows : Grows (leadsTo here (copiesOf packager [first])) here tree start)
    (hstep : ∀ {front partial' reached}, Copies packager here start front changed partial' reached →
      Copies packager here tree (first.file :: front) summary partial' reached) :
    Takes packager here tree (first.file :: auxiliaries) summary result after (first :: turns) where
  named := by
    rw [← List.singleton_append, List.map_append, hturns.named, ← filterMap_named? hname,
      ← List.filterMap_append, List.singleton_append]
  copied := by rw [hturns.copied, hcopied, copiesOf_cons first turns, List.append_assoc]
  missing := by rw [hturns.missing, hmissing, missedOf_cons first turns, List.append_assoc]
  grows := by
    rw [copiesOf_cons first turns]
    exact (hgrows.mono fun location hlocation => leadsTo_append.mpr (.inl hlocation)).trans
      (hturns.grows.mono fun location hlocation => leadsTo_append.mpr (.inr hlocation))
  happens := by
    intro before turn later hsplit
    cases before with
    | nil =>
        cases hsplit
        exact hfirst
    | cons other before =>
        rw [List.cons_append, List.cons.injEq] at hsplit
        obtain ⟨rfl, hsplit⟩ := hsplit
        exact (hturns.happens before turn later hsplit).cons [first] (filterMap_named? hname) hstep

theorem exists_takes (h : Copies packager here tree auxiliaries summary result after)
    (hplain : IsPlain tree here) :
    ∃ turns, Takes packager here tree auxiliaries summary result after turns := by
  induction h with
  | done tree summary =>
      refine ⟨[], rfl, (List.append_nil _).symm, (List.append_nil _).symm, .refl _ hplain, ?_⟩
      intro before turn later hsplit
      exact absurd hsplit.symm (by simp)
  | @nameless tree after file rest summary result hname hrest ih =>
      obtain ⟨turns, hturns⟩ := ih hplain
      have hnone : named? file = none := by rw [named?, hname, Option.map_none]
      refine ⟨turns, ?_, hturns.copied, hturns.missing, hturns.grows,
        fun before turn later hsplit => ?_⟩
      · rw [hturns.named, List.filterMap_cons_none hnone]
      · exact (hturns.happens before turn later hsplit).cons [] (List.filterMap_cons_none hnone)
          (.nameless hname)
  | @copied tree between after file rest summary result name hname hcopied hrest ih =>
      have hfirst := grows_of_copied? hplain hcopied
      obtain ⟨turns, hturns⟩ := ih hfirst.plain
      have hhappens : Happens packager here tree (file :: rest) summary after []
          { file, name, copied := true } turns :=
        .intro (List.nil_append _).symm rfl (.done tree summary) hplain hname
          (fun _ => ⟨between, hcopied, hturns.grows⟩) (fun hnone => by cases hnone)
      have hmissed : missedOf packager [{ file, name, copied := true }] = [] := rfl
      refine ⟨_, hturns.cons { file, name, copied := true } hhappens hname rfl ?_ hfirst ?_⟩
      · rw [hmissed, List.append_nil]
      · exact .copied hname hcopied
  | @missing tree after file rest summary result name hname hmissing hallowed hrest ih =>
      obtain ⟨turns, hturns⟩ := ih hplain
      have hhappens : Happens packager here tree (file :: rest) summary after []
          { file, name, copied := false } turns :=
        .intro (List.nil_append _).symm rfl (.done tree summary) hplain hname
          (fun hsome => by cases hsome) (fun _ => ⟨hallowed, hmissing⟩)
      have hcopies : copiesOf packager [{ file, name, copied := false }] = [] := rfl
      refine ⟨_, hturns.cons { file, name, copied := false } hhappens hname ?_ rfl
        (.refl _ hplain) ?_⟩
      · rw [hcopies, List.append_nil]
      · exact .missing hname hmissing hallowed

end Steps

section Contents

variable {before later turns : List Turn} {turn : Turn}

theorem leadsTo_copiesOf (hnames : ∀ turn ∈ turns, turn.file.fileName? = some turn.name)
    {location : Location}
    (h : leadsTo here (copiesOf packager turns) location = true) :
    ∃ turn ∈ turns, turn.copied = true ∧ location = turn.name ::
      destination here packager.output := by
  obtain ⟨path, hpath, rfl⟩ := leadsTo_iff.mp h
  obtain ⟨turn, hturn, rfl⟩ := List.mem_map.mp hpath
  obtain ⟨hmem, hcopied⟩ := List.mem_filter.mp hturn
  exact ⟨turn, hmem, hcopied, destination_auxiliary (hnames turn hmem)⟩

theorem Takes.fileName (h : Takes packager here tree auxiliaries summary result after turns) :
    ∀ turn ∈ turns, turn.file.fileName? = some turn.name := by
  intro turn hturn
  have hmem : turn.named ∈ auxiliaries.filterMap named? := h.named ▸ List.mem_map_of_mem hturn
  obtain ⟨file, -, hnamed⟩ := List.mem_filterMap.mp hmem
  obtain ⟨name, hname, heq⟩ := Option.map_eq_some_iff.mp hnamed
  cases heq
  exact hname

/-- A copy that no later one takes the place of holds what is in its source, unless that is in its
place. -/
theorem Takes.holds (h : Takes packager here tree auxiliaries summary result after turns)
    (hsplit : turns = before ++ turn :: later) (hcopied : turn.copied = true)
    (hlast : ∀ other ∈ later, other.copied = true → other.name ≠ turn.name)
    (hapart : destination here (turn.source packager) ≠ destination here (turn.target packager)) :
    ∃ content, readBytes after here (turn.source packager) = .ok content ∧
      readBytes after here (turn.target packager) = .ok content := by
  have hnames := h.fileName
  subst hsplit
  have hturn : turn.file.fileName? = some turn.name := hnames turn (by simp)
  obtain ⟨hfiles, hnamed, hreached, hplain, -, hhappens, -⟩ := h.happens before turn later rfl
  rename_i front back partial' reached
  obtain ⟨between, hbetween, hgrows⟩ := hhappens hcopied
  have hcopy := (isFile_of_copied? hbetween).2
  have hfirst := grows_of_copied? hplain hbetween
  have hlater : ∀ other ∈ later, other.file.fileName? = some other.name := fun other hother =>
    hnames other (by simp [hother])
  obtain ⟨origin, content, mode, name, directory, hfind, -⟩ := exists_of_copy hplain hcopy
  have hread : readBytes reached here (turn.source packager) = .ok content :=
    by rw [readBytes, hfind]
  have hdestination : destination here (turn.target packager) =
      turn.name :: destination here packager.output := destination_auxiliary hturn
  refine ⟨content, ?_, ?_⟩
  · -- copies go directly into the output directory, and the source, having their name, is not there
    have horigin := destination_of_find hplain.noLinks hfind
    obtain ⟨parent, -, hparent⟩ := exists_parent (fileName?_join packager.project hturn)
    have hsource : origin = turn.name :: destination here parent := horigin.trans (hparent here)
    have helsewhere : destination here parent ≠ destination here packager.output := by
      intro hsame
      rw [hdestination, ← horigin, hsource, hsame] at hapart
      exact hapart rfl
    have hfree : leadsTo here [turn.target packager] origin = false := by
      rw [Bool.eq_false_iff]
      intro hleads
      obtain ⟨path, hpath, hlocation⟩ := leadsTo_iff.mp hleads
      rw [List.mem_singleton.mp hpath, hdestination, hsource, List.cons.injEq] at hlocation
      exact helsewhere hlocation.2.symm
    have hfree' : leadsTo here (copiesOf packager later) origin = false := by
      rw [Bool.eq_false_iff]
      intro hleads
      obtain ⟨other, -, -, hlocation⟩ := leadsTo_copiesOf hlater hleads
      rw [hsource, List.cons.injEq] at hlocation
      exact helsewhere hlocation.2
    have hthen := hfirst.find_kept hplain.noLinks (fun _ => hfree) hfind
    rw [readBytes, hgrows.find_kept hfirst.plain.noLinks (fun _ => hfree') hthen]
  · obtain ⟨mode, hthere⟩ := find_of_copy hplain hcopy hread hapart
    have hfree : leadsTo here (copiesOf packager later) (destination here (turn.target packager)) =
        false := by
      rw [Bool.eq_false_iff]
      intro hleads
      obtain ⟨other, hother, hothers, hlocation⟩ := leadsTo_copiesOf hlater hleads
      rw [hdestination, List.cons.injEq] at hlocation
      exact hlast other hother hothers hlocation.1.symm
    rw [readBytes, hgrows.find_kept hfirst.plain.noLinks (fun _ => hfree) hthere]

end Contents

/-- The packager with other auxiliary files. -/
def withAuxiliaries (packager : Packager) (files : List Path) : Packager :=
  { packager with settings := { packager.settings with auxiliaryFiles := files } }

section Prefixes

variable {front : List Path} {files : List PackagedFile}

theorem prepares_withAuxiliaries {source : Path} (h : Prepares packager here source tree after) :
    Prepares (withAuxiliaries packager front) here source tree after := by
  cases h with
  | made hparent hmade => exact .made hparent hmade
  | kept hparent => exact .kept hparent

theorem places_withAuxiliaries {source : Path} {emitted : String} {packaged : PackagedFile}
    (h : Places packager here source emitted tree packaged after) :
    Places (withAuxiliaries packager front) here source emitted tree packaged after := by
  cases h with
  | emitted hnone hwrite => exact .emitted hnone hwrite
  | compiled hartifact hcopy => exact .compiled hartifact hcopy
  | fallback hartifact hcopy hwrite => exact .fallback hartifact hcopy hwrite

theorem placesAll_withAuxiliaries (h : PlacesAll packager here tree records files after) :
    PlacesAll (withAuxiliaries packager front) here tree records files after := by
  induction h with
  | done tree => exact .done tree
  | next hready hplaces rest ih =>
      exact .next (prepares_withAuxiliaries hready) (places_withAuxiliaries hplaces) ih

theorem copies_withAuxiliaries (h : Copies packager here tree auxiliaries summary result after) :
    Copies (withAuxiliaries packager front) here tree auxiliaries summary result after := by
  induction h with
  | done tree summary => exact .done tree summary
  | nameless hname rest ih => exact .nameless hname ih
  | copied hname hcopied rest ih => exact .copied hname hcopied ih
  | missing hname hmissing hallowed rest ih => exact .missing hname hmissing hallowed ih

theorem isPlain_of_placesAll (h : PlacesAll packager here tree records files after)
    (hplain : IsPlain tree here) :
    IsPlain after here := by
  induction h with
  | done tree => exact hplain
  | next hready hplaces rest ih =>
      have hmade : Grows (fun _ => false) here _ _ := grows_of_prepares hplain hready
      exact ih (grows_of_places hmade.plain hplaces).plain

end Prefixes

/-- The accounts of the auxiliary files in a summary: each has one turn, in the order of the
settings, and is either copied or missing. -/
structure AreTurns (packager : Packager) (summary : Summary) (turns : List Turn) : Prop where
  named : turns.map Turn.named = packager.settings.auxiliaryFiles.filterMap named?
  copied : summary.auxiliaryCopied = copiesOf packager turns
  missing : summary.auxiliaryMissing = missedOf packager turns

/-- Why an auxiliary file is missing: when its turn comes, after the records and the auxiliary files
before it, it is not a regular file or cannot be copied. -/
inductive IsMissing (packager : Packager) (w : Workspace) (records : List (Path × String))
    (before : List Turn) (turn : Turn) : Prop
  | intro {front back : List Path} {told : Summary} {reached : Workspace}
      (hfiles : packager.settings.auxiliaryFiles = front ++ turn.file :: back)
      (hnamed : front.filterMap named? = before.map Turn.named)
      (hreached : attempted ((withAuxiliaries packager front).package records) w =
        (.ok told, reached))
      (hmissing : isFile reached.files reached.here (turn.source packager) = false ∨
        ∃ error, FileTree.Access.copy reached.files reached.here (turn.source packager)
          (turn.target packager) = .error error)

theorem copied?_eq_none {source destination : Path}
    (h : copied? tree here source destination = none) :
    isFile tree here source = false ∨ ∃ error, FileTree.Access.copy tree here source destination =
      .error error := by
  unfold copied? at h
  split at h
  · cases hcopy : FileTree.Access.copy tree here source destination with
    | error error => exact .inr ⟨error, rfl⟩
    | ok copied =>
        rw [hcopy] at h
        cases h
  · rename_i hfile
    exact .inl (by simpa using hfile)

/-- Auxiliary files arrive. In a tree without links each of them that has a file name has one turn
in a successful packaging. It is copied, and then the file at its destination has in the end what
the auxiliary file has, unless a later one of the same name has been copied there or the auxiliary
file itself is there; or it is missing, which is allowed by the settings only. -/
theorem auxiliaries_arrive (hplain : IsPlain w.files w.here)
    (h : attempted (packager.package records) w = (.ok summary, left)) :
    ∃ turns, AreTurns packager summary turns ∧
      ∀ before turn later, turns = before ++ turn :: later →
        (turn.copied = true → (∀ other ∈ later, other.copied = true → other.name ≠ turn.name) →
          destination w.here (turn.source packager) ≠
            destination w.here (turn.target packager) →
          ∃ content, readBytes left.files left.here (turn.source packager) = .ok content ∧
            readBytes left.files left.here (turn.target packager) = .ok content) ∧
        (turn.copied = false → packager.settings.requireAuxiliaryFiles = false ∧
          IsMissing packager w records before turn) := by
  obtain ⟨after, log, rfl, hmade, hplaces, hcopies⟩ := exists_of_package h
  rename_i made packed files
  have hmake : Grows (fun _ => false) w.here w.files made := grows_of_made hplain hmade
  obtain ⟨turns, hturns⟩ := exists_takes hcopies (isPlain_of_placesAll hplaces hmake.plain)
  refine ⟨turns, ⟨hturns.named, hturns.copied, hturns.missing⟩, fun before turn later hsplit =>
    ⟨?_, ?_⟩⟩
  · intro hcopied hlast hapart
    exact hturns.holds hsplit hcopied hlast hapart
  · intro hmissed
    obtain ⟨hfiles, hnamed, hreached, -, -, -, hnone⟩ := hturns.happens before turn later hsplit
    rename_i front back told reached
    obtain ⟨hallowed, hmissing⟩ := hnone hmissed
    have hpacks : Packs (withAuxiliaries packager front) w.here w.files records told reached :=
      ⟨hmade, placesAll_withAuxiliaries hplaces, copies_withAuxiliaries hreached⟩
    obtain ⟨log', hleaves⟩ := leaves_of_packs hpacks
    exact ⟨hallowed, .intro hfiles hnamed hleaves (copied?_eq_none hmissing)⟩

/-- A project with two texts of one name in different directories. -/
def sameNames : Workspace :=
  { files :=
      { entries :=
          [(["p"], .directory), (["a", "p"], .directory), (["b", "p"], .directory),
            (["x.txt", "a", "p"], .file "1".toUTF8 false),
              (["x.txt", "b", "p"], .file "2".toUTF8 false)] } }

def shipping (required : Bool) (files : List Path) : Packager :=
  { project := ⟨"p"⟩, output := ⟨"out"⟩,
    settings := { auxiliaryFiles := files, requireAuxiliaryFiles := required } }

theorem isPlain_sameNames : IsPlain sameNames.files sameNames.here where
  wellFormed :=
    { names := by decide +kernel
      parents := by decide +kernel
      unique := by decide }
  noLinks := hasNoLinks_of_entries (by simp [sameNames])
  here := rfl

/-- One auxiliary file that is there and one that is not. -/
def oneMissing : Packager :=
  shipping false [⟨"a/x.txt"⟩, ⟨"none.txt"⟩]

theorem arrives_oneMissing :
    IsPlain sameNames.files sameNames.here ∧
      ∃ summary left, attempted (oneMissing.package []) sameNames = (.ok summary, left) ∧
        summary.auxiliaryCopied = [⟨"out/x.txt"⟩] ∧ summary.auxiliaryMissing = [⟨"p/none.txt"⟩] ∧
        AreTurns oneMissing summary
          [⟨⟨"a/x.txt"⟩, "x.txt", true⟩, ⟨⟨"none.txt"⟩, "none.txt", false⟩] ∧
        (∃ content, readBytes left.files left.here ⟨"p/a/x.txt"⟩ = .ok content ∧
          readBytes left.files left.here ⟨"out/x.txt"⟩ = .ok content) ∧
        IsMissing oneMissing sameNames [] [⟨⟨"a/x.txt"⟩, "x.txt", true⟩]
          ⟨⟨"none.txt"⟩, "none.txt", false⟩ := by
  have htold : (attempted (oneMissing.package []) sameNames).1.toOption.map
      (fun summary => (summary.auxiliaryCopied, summary.auxiliaryMissing)) =
        some ([⟨"out/x.txt"⟩], [⟨"p/none.txt"⟩]) := by decide +kernel
  refine ⟨isPlain_sameNames, ?_⟩
  rcases hrun : attempted (oneMissing.package []) sameNames with ⟨problem | summary, left⟩
  · rw [hrun] at htold
    cases htold
  · rw [hrun] at htold
    obtain ⟨hcopied, hmissing⟩ := Prod.mk.inj (Option.some.inj htold)
    obtain ⟨turns, haccounts, hall⟩ := auxiliaries_arrive isPlain_sameNames hrun
    have hnamed : oneMissing.settings.auxiliaryFiles.filterMap named? =
        [(⟨"a/x.txt"⟩, "x.txt"), (⟨"none.txt"⟩, "none.txt")] := by decide +kernel
    have hturns : turns = [⟨⟨"a/x.txt"⟩, "x.txt", true⟩, ⟨⟨"none.txt"⟩, "none.txt", false⟩] := by
      have hmap := haccounts.named.trans hnamed
      have hcopies := haccounts.copied.symm.trans hcopied
      rcases turns with _ | ⟨⟨file, name, copied⟩, _ | ⟨⟨file', name', copied'⟩, _ | ⟨_, _⟩⟩⟩
      · cases hmap
      · cases hmap
      · cases hmap
        revert hcopies
        cases copied <;> cases copied' <;> decide +kernel
      · cases hmap
    subst hturns
    refine ⟨summary, left, rfl, hcopied, hmissing, haccounts, ?_, ?_⟩
    · exact (hall [] _ _ rfl).1 rfl (by decide) (by decide +kernel)
    · exact ((hall [_] _ [] rfl).2 rfl).2

/-- Of two files of one name the second one takes the place of the first one, and both are told to
have been copied. -/
theorem same_name_overwritten :
    let ended := attempted ((shipping true [⟨"a/x.txt"⟩, ⟨"b/x.txt"⟩]).package []) sameNames
    Path.same ⟨"a/x.txt"⟩ ⟨"b/x.txt"⟩ = false ∧
      ended.1.toOption.map Summary.auxiliaryCopied = some [⟨"out/x.txt"⟩, ⟨"out/x.txt"⟩] ∧
      (readBytes ended.2.files ended.2.here ⟨"p/a/x.txt"⟩).toOption = some "1".toUTF8 ∧
      (readBytes ended.2.files ended.2.here ⟨"out/x.txt"⟩).toOption = some "2".toUTF8 := by
  decide +kernel

end Cythonizer.Proofs.Packaging.Auxiliaries
