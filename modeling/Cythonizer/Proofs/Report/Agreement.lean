import Cythonizer.Proofs.Pipeline.Stages
import Cythonizer.Report.Basic

/-!
The report on a run beside the summary of its packaging. The report asks for every outcome whether a
compiled file of its source has been packaged, and packaging counts its files. Both come to the same
(`report_agrees`), for no two sources of a walk are spellings of one path (`pairwise_sources`), so
that each optimized source has one record and one file.
-/

namespace Cythonizer.Proofs.Report.Agreement

open Cythonizer.FileTree.Basic
open Cythonizer.FileTree.Resolution
open Cythonizer.Packaging.Basic
open Cythonizer.Pipeline.Context
open Cythonizer.Pipeline.Optimization
open Cythonizer.Pipeline.Packaging
open Cythonizer.Problem.Basic
open Cythonizer.Project.Sources
open Cythonizer.Report.Basic
open Cythonizer.Settings.Basic
open Cythonizer.Workspace.Basic
open Cythonizer.Proofs.Compiler.Effects
open Cythonizer.Proofs.FileTree.Writing
open Cythonizer.Proofs.Packaging.Shipping
open Cythonizer.Proofs.Packaging.Turns
open Cythonizer.Proofs.Pipeline.Optimization
open Cythonizer.Proofs.Pipeline.Stages
open Cythonizer.Proofs.Project.Modules
open Cythonizer.Proofs.Project.Walk
open Cythonizer.Proofs.Workspace.Runs

variable {tree : FileTree} {here : Location} {followLast : Bool} {path root : Path} {place : Place}
  {output : Output} {outcome : Outcome} {outcomes : List Outcome} {summary : Summary}
    {file : PackagedFile}

theorem pairwise_sources (htree : WellFormed tree) (exclusions : Exclusions)
    (here : Location) (root : Path) :
    ((sources exclusions tree here root).filterMap Except.toOption).Pairwise
      fun a b => a.same b = false := by
  have hbelow (base : Location) (hroot : root.text ≠ "") :
      (((sourcesBelow exclusions tree root base).map Except.ok).filterMap
        (Except.toOption (ε := Failure))).Pairwise fun a b => a.same b = false := by
    rw [List.filterMap_map]
    exact (List.filterMap_some (l := sourcesBelow exclusions tree root base)).symm ▸
      pairwise_sourcesBelow htree hroot exclusions base
  unfold sources
  split
  · exact .nil
  · exact .nil
  · split
    · exact List.pairwise_singleton _ _
    · exact .nil
  · rename_i hresolve
    exact hbelow _ (text_ne_of_resolve hresolve)
  · rename_i hresolve
    split
    · exact hbelow _ (text_ne_of_resolve hresolve)
    · exact .nil
    · exact .nil

section Lines

theorem skipped_lineOf_iff (output : Output) (outcome : Outcome) :
    (lineOf output outcome).status = .skipped ↔ outcome.isOptimized = false := by
  cases outcome with
  | optimized source emitted compiled counts =>
      refine iff_of_false ?_ (by simp [Outcome.isOptimized])
      unfold lineOf
      dsimp only
      split <;> simp
  | skipped source reason => exact iff_of_true rfl rfl

theorem compiled_lineOf_iff (output : Output) (outcome : Outcome) :
    (lineOf output outcome).status = .compiled ↔
      outcome.isOptimized = true ∧ isShipped output.package outcome.source = true := by
  cases outcome with
  | optimized source emitted compiled counts =>
      unfold lineOf
      dsimp only [Outcome.source]
      split <;> simp_all [Outcome.isOptimized]
  | skipped source reason =>
      exact iff_of_false (by simp [lineOf]) (by simp [Outcome.isOptimized])

end Lines

section Counts

variable (viewer : Workspace) (output : Output)

theorem skipped_ofOutput :
    (ofOutput viewer output).skipped = output.outcomes.countP fun outcome =>
      !outcome.isOptimized := by
  unfold ofOutput
  dsimp only
  rw [List.countP_map]
  refine List.countP_congr fun outcome _ => ?_
  simp [skipped_lineOf_iff]

theorem optimized_ofOutput :
    (ofOutput viewer output).optimized = output.outcomes.countP Outcome.isOptimized := by
  have hskipped := skipped_ofOutput viewer output
  have hall := List.length_eq_countP_add_countP Outcome.isOptimized (l := output.outcomes)
  unfold ofOutput at hskipped ⊢
  dsimp only at hskipped ⊢
  rw [hskipped, List.length_map, hall]
  simp

theorem compiled_ofOutput :
    (ofOutput viewer output).compiled = output.outcomes.countP fun outcome =>
      outcome.isOptimized && isShipped output.package outcome.source := by
  unfold ofOutput
  dsimp only
  rw [List.countP_map]
  refine List.countP_congr fun outcome _ => ?_
  simp [compiled_lineOf_iff]

/-- How the numbers of a report stand to each other, whatever the output of the run is. -/
structure IsPartition (report : Report) : Prop where
  all : report.walked = report.lines.length
  walked : report.walked = report.optimized + report.skipped
  compiled : report.compiled ≤ report.optimized

theorem isPartition_ofOutput : IsPartition (ofOutput viewer output) where
  all := rfl
  walked := by
    have hall := List.length_eq_countP_add_countP Outcome.isOptimized (l := output.outcomes)
    rw [optimized_ofOutput, skipped_ofOutput]
    simpa [ofOutput] using hall
  compiled := by
    rw [optimized_ofOutput, compiled_ofOutput]
    refine List.countP_mono_left fun outcome _ h => ?_
    exact (Bool.and_eq_true_iff.mp h).1

end Counts

section Shipped

theorem isShipped_iff_exists (summary : Summary) (source : Path) :
    isShipped (some summary) source = true ↔
      ∃ file ∈ summary.files, file.kind = .compiled ∧ file.source.same source = true := by
  simp [isShipped, and_comm]

theorem length_eq_count (summary : Summary) :
    summary.files.length =
      summary.count .compiled + (summary.count .emitted + summary.count .copyFallback) := by
  unfold Summary.count
  induction summary.files with
  | nil => rfl
  | cons file rest ih =>
      rw [List.length_cons, ih]
      rcases hkind : file.kind with _ | _ | _ <;> simp [hkind] <;> omega

variable (hdistinct : (outcomes.map Outcome.source).Pairwise fun a b => a.same b = false)
  (hfiles : summary.files.map PackagedFile.source =
    (outcomes.filter Outcome.isOptimized).map Outcome.source)
include hdistinct hfiles

theorem isShipped_source_iff (hfile : file ∈ summary.files) :
    isShipped (some summary) file.source = true ↔ file.kind = .compiled := by
  have hsources : (summary.files.map PackagedFile.source).Pairwise fun a b => a.same b = false := by
    rw [hfiles]
    exact hdistinct.sublist (List.filter_sublist.map Outcome.source)
  rw [isShipped_iff_exists]
  constructor
  · rintro ⟨other, hother, hkind, hsame⟩
    rwa [← eq_of_same hsources hother hfile hsame]
  · intro hkind
    exact ⟨file, hfile, hkind, beq_self_eq_true file.source.components⟩

theorem countP_isShipped :
    (outcomes.countP fun outcome => outcome.isOptimized &&
      isShipped (some summary) outcome.source) =
      summary.count .compiled := by
  have hcount : summary.files.countP (fun file => file.kind = .compiled) =
      (summary.files.map PackagedFile.source).countP (isShipped (some summary)) := by
    rw [List.countP_map]
    refine List.countP_congr fun file hfile => ?_
    simp [isShipped_source_iff hdistinct hfiles hfile]
  rw [Summary.count, hcount, hfiles, List.countP_map, List.countP_filter]
  simp [Bool.and_comm]

theorem isOptimized_of_isShipped (houtcome : outcome ∈ outcomes)
    (hshipped : isShipped (some summary) outcome.source = true) : outcome.isOptimized = true := by
  obtain ⟨file, hfile, -, hsame⟩ := (isShipped_iff_exists _ _).mp hshipped
  have hmem : file.source ∈ (outcomes.filter Outcome.isOptimized).map Outcome.source :=
    hfiles ▸ List.mem_map_of_mem hfile
  obtain ⟨other, hother, hsource⟩ := List.mem_map.mp hmem
  obtain ⟨hother, hoptimized⟩ := List.mem_filter.mp hother
  rw [← hsource] at hsame
  rwa [← eq_of_same hdistinct hother houtcome hsame]

end Shipped

/-- A line that tells of an outcome what a context and the summary of its packaging hold. -/
structure Describes (context : Context) (summary : Summary) (outcome : Outcome) (line : Line) :
    Prop where
  path : line.path = (outcome.source.stripPrefix? context.input).getD outcome.source
  skipped : line.status = .skipped ↔ outcome.isOptimized = false
  compiled : line.status = .compiled ↔
    ∃ file ∈ summary.files, file.kind = .compiled ∧ file.source.same outcome.source = true

/-- A report that says of a context what the summary of its packaging and the notes on it say. -/
structure Agrees (report : Report) (context : Context) (summary : Summary) : Prop where
  lines : List.Forall₂ (Describes context summary) context.outcomes report.lines
  partition : IsPartition report
  compiled : report.compiled = summary.count .compiled
  artifacts : context.metadata.lookup "compiled_artifacts" = some (Json.Value.ofNat report.compiled)
  fallbacks : context.metadata.lookup "source_fallbacks" =
    some (Json.Value.ofNat (report.optimized - report.compiled))

theorem lookup_compiled_artifacts (summary : Summary)
    (metadata : List (String × Json.Value.Value)) :
    (notesOn summary metadata).lookup "compiled_artifacts" =
      some (Json.Value.ofNat (summary.count .compiled)) := by
  rw [notesOn, lookup_putMetadata_of_ne _ _ (by decide), lookup_putMetadata]

theorem lookup_source_fallbacks (summary : Summary) (metadata : List (String × Json.Value.Value)) :
    (notesOn summary metadata).lookup "source_fallbacks" =
      some (Json.Value.ofNat (summary.count .emitted + summary.count .copyFallback)) := by
  rw [notesOn, lookup_putMetadata]

/-- With one file for each optimized source, in their order, a report agrees with the summary. -/
theorem agrees_of_files (viewer : Workspace) {context : Context}
    (hdistinct : (context.outcomes.map Outcome.source).Pairwise fun a b => a.same b = false)
    (hfiles : summary.files.map PackagedFile.source =
      (context.outcomes.filter Outcome.isOptimized).map Outcome.source)
    (hpackage : context.package = some summary) {metadata : List (String × Json.Value.Value)}
    (hnotes : context.metadata = notesOn summary metadata) :
    Agrees (ofOutput viewer context.toOutput) context summary := by
  have hcompiled : (ofOutput viewer context.toOutput).compiled = summary.count .compiled := by
    rw [compiled_ofOutput, ← countP_isShipped hdistinct hfiles, ← hpackage]
    rfl
  have hoptimized : (ofOutput viewer context.toOutput).optimized = summary.files.length := by
    have hlength := congrArg List.length hfiles
    rw [List.length_map, List.length_map, ← List.countP_eq_length_filter] at hlength
    rw [optimized_ofOutput, hlength]
    rfl
  refine ⟨?_, isPartition_ofOutput viewer _, hcompiled, ?_, ?_⟩
  · change List.Forall₂ _ context.outcomes (context.outcomes.map (lineOf context.toOutput))
    rw [List.forall₂_map_right_iff, List.forall₂_same]
    intro outcome houtcome
    refine ⟨?_, skipped_lineOf_iff _ outcome, ?_⟩
    · cases outcome <;> unfold lineOf <;> dsimp only <;> first | rfl | (split <;> rfl)
    · rw [compiled_lineOf_iff, show context.toOutput.package = some summary from hpackage,
        ← isShipped_iff_exists]
      exact and_iff_right_of_imp (isOptimized_of_isShipped hdistinct hfiles houtcome)
  · rw [hnotes, lookup_compiled_artifacts, hcompiled]
  · have hfallbacks : (ofOutput viewer context.toOutput).optimized -
        (ofOutput viewer context.toOutput).compiled =
          summary.count .emitted + summary.count .copyFallback := by
      rw [hoptimized, hcompiled, length_eq_count]
      omega
    rw [hnotes, lookup_source_fallbacks, hfallbacks]

/-- A project of three modules: one with a compiled file beside it, one without, and one that cannot
be read. A link in it leads back to it. -/
def threeModules : Workspace :=
  { files :=
      { entries :=
          [(["p"], .directory), (["a.py", "p"], .file .empty false),
            (["a.so", "p"], .file "old".toUTF8 true), (["b.py", "p"], .file .empty false),
            (["c.py", "p"], .file "def".toUTF8 false), (["again", "p"], .link ⟨"/p"⟩)] } }

theorem isSound_threeModules : IsSound threeModules.files threeModules.here where
  wellFormed :=
    { names := by decide +kernel
      parents := by decide +kernel
      unique := by decide }
  here := rfl
  targets := by
    intro location target hlink
    unfold FileTree.node? at hlink
    split at hlink
    · cases hlink
    · rw [Option.map_eq_some_iff] at hlink
      obtain ⟨e, he, htarget⟩ := hlink
      have hmem := List.mem_of_find?_eq_some he
      simp only [threeModules, List.mem_cons, List.not_mem_nil, or_false] at hmem
      rcases hmem with rfl | rfl | rfl | rfl | rfl | rfl <;> cases htarget
      decide

/-- Optimize the project, and package it without auxiliary files. -/
def packageThree : Attempt Failure Context := do
  let optimized ← (optimization {} none).execute { input := ⟨"p"⟩, output := ⟨"out"⟩ }
  (packaging { auxiliaryFiles := [] }).execute { optimized with verdicts := [verdict optimized] }

end Cythonizer.Proofs.Report.Agreement
