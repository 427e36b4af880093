import Cythonizer.Proofs.Compiler.Effects
import Cythonizer.Proofs.Packaging.Shipping
import Cythonizer.Proofs.Pipeline.Optimization
import Cythonizer.Proofs.Project.Modules

namespace Cythonizer.Proofs.Pipeline.Stages

open Cythonizer.Compiler.Basic
open Cythonizer.Compiler.Program (Tools)
open Cythonizer.FileTree.Access
open Cythonizer.FileTree.Basic
open Cythonizer.Path.Basic
open Cythonizer.Pipeline.Context
open Cythonizer.Pipeline.Optimization
open Cythonizer.Project.Sources
open Cythonizer.Settings.Basic
open Cythonizer.Source.Fault (Locator)
open Cythonizer.Workspace.Basic
open Cythonizer.Proofs.Compiler.Effects
open Cythonizer.Proofs.FileTree.Growth
open Cythonizer.Proofs.Packaging.Shipping
open Cythonizer.Proofs.Pipeline.Optimization
open Cythonizer.Proofs.Project.Modules
open Cythonizer.Proofs.Project.Walk
open Cythonizer.Proofs.Workspace.Runs

variable {settings : Settings} {compiler : Option Compiler} {w between : Workspace}
  {context optimized : Context} {tree : FileTree} {here base : Location}

theorem recordsOf_eq {texts : List (Path × String)} (h : texts.Pairwise fun a b =>
    a.1.same b.1 = false) :
    recordsOf texts = texts := by
  have hadd : ∀ (source : Path) (emitted : String) (records : List (Path × String)),
      (∀ record ∈ records, record.1.same source = false) →
      addRecord source emitted records = records ++ [(source, emitted)] := by
    intro source emitted records hnone
    induction records with
    | nil => rfl
    | cons record rest ih =>
        obtain ⟨hrecord, hrest⟩ := List.forall_mem_cons.mp hnone
        rw [addRecord, if_neg (by simp [hrecord]), ih hrest]
        rfl
  have hfold : ∀ front : List (Path × String),
      (front ++ texts).Pairwise (fun a b => a.1.same b.1 = false) →
      texts.foldl (fun records entry => addRecord entry.1 entry.2 records) front =
        front ++ texts := by
    induction texts with
    | nil => simp
    | cons text rest ih =>
        intro front hfront
        have hnone : ∀ record ∈ front, record.1.same text.1 = false := fun record hrecord =>
          (List.pairwise_append.mp hfront).2.2 record hrecord text List.mem_cons_self
        rw [List.foldl_cons, hadd _ _ _ hnone, ih (List.pairwise_cons.mp h).2 _
          (by simpa using hfront)]
        simp
  exact hfold [] (by simpa using h)

theorem exists_of_mem_record? {record : Path × String} {outcomes : List Outcome}
    (h : record ∈ outcomes.filterMap Outcome.record?) :
    ∃ outcome ∈ outcomes, outcome.source = record.1 := by
  obtain ⟨outcome, houtcome, hsome⟩ := List.mem_filterMap.mp h
  refine ⟨outcome, houtcome, ?_⟩
  cases outcome with
  | optimized source emitted compiled counts =>
      cases hsome
      rfl
  | skipped source reason => cases hsome

theorem map_source_record? (outcomes : List Outcome) :
    (outcomes.filterMap Outcome.record?).map Prod.fst =
      (outcomes.filter Outcome.isOptimized).map Outcome.source := by
  induction outcomes with
  | nil => rfl
  | cons outcome rest ih =>
      cases outcome with
      | optimized source emitted compiled counts =>
          have hrecord : (Outcome.optimized source emitted compiled counts).record? =
            some (source, emitted) :=
            rfl
          rw [List.filterMap_cons_some hrecord, List.filter_cons_of_pos rfl, List.map_cons,
            List.map_cons, ih]
          rfl
      | skipped source reason =>
          rw [List.filterMap_cons_none rfl, List.filter_cons_of_neg (by simp [Outcome.isOptimized]),
            ih]

theorem pairwise_record? {outcomes : List Outcome}
    (h : (outcomes.map Outcome.source).Pairwise fun a b => a.same b = false) :
    (outcomes.filterMap Outcome.record?).Pairwise fun a b => a.1.same b.1 = false := by
  rw [List.pairwise_map] at h
  refine List.Pairwise.filterMap _ ?_ h
  rintro (⟨source, emitted, compiled, counts⟩ | _)
    (⟨source', emitted', compiled', counts'⟩ | _) hne a ha b hb
  · cases ha
    cases hb
    exact hne
  · cases hb
  · cases ha
  · cases ha

section

variable (htree : IsPlain tree here) {root : Path} {exclusions : Exclusions}
  (hroot : find tree here root = .ok (base, .directory)) {outcomes : List Outcome}
  (hsources : outcomes.map Outcome.source = sourcesBelow exclusions tree root base)
include htree hroot hsources

theorem pairwise_records :
    (outcomes.filterMap Outcome.record?).Pairwise fun a b => a.1.same b.1 = false :=
  pairwise_record?
    (hsources ▸ pairwise_sourcesBelow htree.wellFormed (text_ne_of_find hroot) exclusions base)

theorem areModules_records {output : Path} {packaging : PackagingSettings} :
    AreModules { project := root, output, settings := packaging }
      (recordsOf (outcomes.filterMap Outcome.record?)) := by
  rw [recordsOf_eq (pairwise_records htree hroot hsources)]
  have hmem : ∀ record ∈ outcomes.filterMap Outcome.record?,
      record.1 ∈ sourcesBelow exclusions tree root base := by
    intro record hrecord
    obtain ⟨outcome, houtcome, hsource⟩ := exists_of_mem_record? hrecord
    rw [← hsources, ← hsource]
    exact List.mem_map_of_mem houtcome
  refine ⟨fun record hrecord => ?_, fun record hrecord => ?_, pairwise_records htree hroot hsources⟩
  · obtain ⟨below, hfound⟩ := exists_isFound (hmem record hrecord)
    exact hfound.isSource
  · exact isBelow_of_mem htree.wellFormed (text_ne_of_find hroot) (hmem record hrecord)

end

variable [Encoding]

theorem walk_of_directory (settings : Settings)
    (hroot : find w.files w.here context.input = .ok (base, .directory)) :
    (walk settings context w).filterMap Except.toOption = sourcesBelow
      (({ names := settings.source.exclude } : Exclusions).excludeDirectory w.files
        w.here context.output)
      w.files context.input base := by
  rw [walk, sources_of_directory hroot, List.filterMap_map]
  exact List.filterMap_some

theorem leadsToSource_of_walk {outcomes : List Outcome} {outcome : Outcome}
    (hplain : IsPlain w.files w.here)
    (hsources : outcomes.map Outcome.source = (walk settings context w).filterMap Except.toOption)
    (houtcome : outcome ∈ outcomes) : LeadsToSource w.files w.here outcome.source := by
  have hmem := List.mem_map_of_mem (f := Outcome.source) houtcome
  rw [hsources] at hmem
  obtain ⟨_ | source, hwalk, hsource⟩ := List.mem_filterMap.mp hmem
  · cases hsource
  · cases hsource
    exact leadsToSource_of_mem hplain.wellFormed hwalk

section

variable [Locator]

/-- What is front with a compiler that has been chosen. -/
def optimizeWith (settings : Settings) (compiler : Compiler) (context : Context) :
    Action Context := do
  let walked := walk settings context (← get)
  let (after, errors) ← optimizeAll settings compiler walked context 0
  let optimized := after.outcomes.countP Outcome.isOptimized
  let compiled := after.outcomes.countP Outcome.isCompiled
  let all := after.outcomes.length
  info s!"Optimized {optimized} of {all} files ({compiled} compiled with {compiler.name})"
  return (((after.note "files_walked" (Json.Value.ofNat all)).note
    "walk_errors" (Json.Value.ofNat errors)).note
    "compiler" (.string compiler.name)).note
    "rewrite_stats" (Pipeline.Coding.encodeCounts after.counts)

theorem acted_optimizeWith {c : Compiler} {after : Context} {errors : Nat} {changed : Workspace}
    (h : acted (optimizeAll settings c (walk settings context w) context 0) w =
      ((after, errors), changed)) :
    ∃ metadata entry, acted (optimizeWith settings c context) w =
      ({ after with metadata }, noted entry changed) := by
  unfold optimizeWith
  rw [acted_bind, acted_get]
  dsimp only
  rw [acted_bind, h]
  exact ⟨_, _, rfl⟩

end

variable [Tools]

/-- The compiler that is used: the given one, or the one of the settings. -/
def chosen (settings : Settings) : Option Compiler → Action Compiler
  | some compiler => pure compiler
  | none => do
    let detected ← detect settings.compiler
    pure detected.toCompiler

theorem chosen_works (texts : Path → Prop) (settings : Settings) (compiler : Option Compiler) :
    Works texts (chosen settings compiler) := by
  cases compiler with
  | some c => exact .pure c
  | none => exact .bind (detect_works _) fun detected => .pure _

theorem onlyAdds_of_chosen (settings : Settings) (hcompiler : ∀ c ∈ compiler, OnlyAdds c)
    (w : Workspace) :
    OnlyAdds (acted (chosen settings compiler) w).1 := by
  cases compiler with
  | some c => exact hcompiler c rfl
  | none =>
      rw [chosen, acted_bind]
      exact onlyAdds_toCompiler _

/-- The compiler that is used for a project, and the workspace in which its sources are looked for.
-/
def prepared (settings : Settings) (compiler : Option Compiler) (context : Context)
    (w : Workspace) :
    Compiler × Workspace :=
  acted (chosen settings compiler)
    (noted { level := .info, message := "Optimizing Python sources in " ++ context.input.shown } w)

theorem exists_prepared (texts : Path → Prop) (settings : Settings) (compiler : Option Compiler)
    (context : Context) (w : Workspace) :
    ∃ calls, Proceeds texts w calls (prepared settings compiler context w).2 := by
  obtain ⟨calls, hproceeds⟩ := chosen_works texts settings compiler
    (noted { level := .info, message := "Optimizing Python sources in " ++ context.input.shown } w)
  exact ⟨calls, .log _ hproceeds⟩

theorem prepared_fills (settings : Settings) (compiler : Option Compiler) (context : Context)
    (w : Workspace) :
    Fills w (prepared settings compiler context w).2 := by
  obtain ⟨calls, hproceeds⟩ := exists_prepared (fun _ => False) settings compiler context w
  exact hproceeds.fills

variable [Locator]

theorem optimize_eq (settings : Settings) (compiler : Option Compiler) (context : Context) :
    optimize settings compiler context = (do
      info ("Optimizing Python sources in " ++ context.input.shown)
      let compiler ← chosen settings compiler
      optimizeWith settings compiler context) := by
  cases compiler <;> rfl

/-- The optimization of a project ends with one outcome for each source of the walk. What log
entries and calls of the compiler keep holds whenever it is told what becomes of a source, and at
the end. -/
theorem exists_of_prepared (settings : Settings) (compiler : Option Compiler) (context : Context)
    (w : Workspace) {I : Workspace → Prop} (hnoted : ∀ entry u, I u → I (noted entry u))
    (hcalled : ∀ source emitted u,
      .ok source ∈ walk settings context (prepared settings compiler context w).2 → I u →
        I (called (prepared settings compiler context w).1 u source emitted).2)
    (hstart : I (prepared settings compiler context w).2) :
    ∃ outcomes metadata after,
      attempted ((optimization settings compiler).execute context) w =
        (.ok { context with
          outcomes := context.outcomes ++ outcomes
          counts := context.counts + total outcomes
          metadata }, after) ∧
      outcomes.map Outcome.source =
        (walk settings context (prepared settings compiler context w).2).filterMap Except.toOption ∧
      (∀ outcome ∈ outcomes, ∃ u, I u ∧ Tells settings u outcome) ∧
      Calls (prepared settings compiler context w).1 (prepared settings compiler context w).2
        (outcomes.filterMap call?) after ∧ I after := by
  obtain ⟨outcomes, changed, hrun, hsources, htells, hcalls, hchanged⟩ :=
    @acted_optimizeAll_of_kept settings _ _ _ _ I hnoted
      (walk settings context (prepared settings compiler context w).2) hcalled context 0 hstart
  obtain ⟨metadata, last, hwith⟩ := acted_optimizeWith hrun
  have hended := hcalls.append (.note last (.done _))
  rw [List.append_nil] at hended
  refine ⟨outcomes, metadata, noted last changed, ?_, hsources, htells, hended,
    hnoted last changed hchanged⟩
  change attempted (ExceptT.lift (optimize settings compiler context)) w = _
  rw [attempted_lift, optimize_eq, acted_bind, acted_info, acted_bind]
  dsimp only
  change (Except.ok (acted (optimizeWith settings (prepared settings compiler context w).1 context)
      (prepared settings compiler context w).2).1,
    (acted (optimizeWith settings (prepared settings compiler context w).1 context)
      (prepared settings compiler context w).2).2) = _
  rw [hwith, foldl_record]

/-- The optimization goes through the sources of a walk, and removes nothing. -/
theorem exists_of_optimize (hcompiler : ∀ c ∈ compiler, OnlyAdds c)
    (hplain : IsPlain w.files w.here)
    (h : attempted ((optimization settings compiler).execute context) w =
      (.ok optimized, between)) :
    ∃ start outcomes counts metadata, Advances w start ∧ Advances start between ∧
      optimized =
        { context with
          outcomes := context.outcomes ++ outcomes
          counts
          metadata } ∧
      outcomes.map Outcome.source = (walk settings context start).filterMap Except.toOption := by
  have hstart := (prepared_fills settings compiler context w).advances hplain
  have honly : OnlyAdds (prepared settings compiler context w).1 :=
    onlyAdds_of_chosen settings hcompiler _
  obtain ⟨outcomes, metadata, after, hrun, hsources, -, -, hafter⟩ :=
    exists_of_prepared settings compiler context w
      (fun entry u (hu : Advances (prepared settings compiler context w).2 u) =>
        hu.trans ⟨rfl, .refl _ hu.plain⟩)
      (fun source emitted u _ hu => hu.trans (honly source emitted u hu.plain)) (.refl hstart.plain)
  rw [hrun] at h
  cases h
  exact ⟨_, outcomes, _, metadata, hstart, hafter, rfl, hsources⟩

end Cythonizer.Proofs.Pipeline.Stages
