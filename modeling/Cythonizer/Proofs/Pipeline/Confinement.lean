import Cythonizer.Proofs.Pipeline.Stages
import Cythonizer.Proofs.Project.Texts

namespace Cythonizer.Proofs.Pipeline.Confinement

open Cythonizer.Compiler.Basic
open Cythonizer.Compiler.Command
open Cythonizer.Compiler.Program (Tools)
open Cythonizer.FileTree.Access
open Cythonizer.FileTree.Basic
open Cythonizer.FileTree.Resolution
open Cythonizer.Path.Basic
open Cythonizer.Pipeline.Context
open Cythonizer.Pipeline.Optimization
open Cythonizer.Problem.Basic
open Cythonizer.Project.Sources
open Cythonizer.Source.Fault (Locator)
open Cythonizer.Proofs.Compiler.Effects
open Cythonizer.Proofs.FileTree.Persistence
open Cythonizer.Proofs.FileTree.Writing
open Cythonizer.Proofs.Packaging.Shipping
open Cythonizer.Proofs.Pipeline.Optimization
open Cythonizer.Proofs.Pipeline.Stages
open Cythonizer.Proofs.Project.Modules
open Cythonizer.Proofs.Project.Texts
open Cythonizer.Proofs.Workspace.Runs

variable {settings : Settings} {context : Context} {w between after : Workspace}
    {texts : Path → Prop}
  {calls more : List (Workspace × Workspace)} {location base place : Location}

/-- What is at a location stays, unless one of some calls changes it. -/
def KeptOrCalled (w after : Workspace) (calls : List (Workspace × Workspace))
    (location : Location) : Prop :=
  after.files.node? location = w.files.node? location ∨
    ∃ call ∈ calls, call.2.files.node? location ≠ call.1.files.node? location

theorem KeptOrCalled.trans (h : KeptOrCalled w between calls location)
    (hrest : KeptOrCalled between after more location) :
      KeptOrCalled w after (calls ++ more) location := by
  rcases h with hkept | ⟨call, hcall, hchanges⟩
  · rcases hrest with hlater | ⟨call, hcall, hchanges⟩
    · exact .inl (hlater.trans hkept)
    · exact .inr ⟨call, List.mem_append_right _ hcall, hchanges⟩
  · exact .inr ⟨call, List.mem_append_left _ hcall, hchanges⟩

/-- The paths that the texts for the sources of a walk are written at. -/
def IsText (entries : List (Except Failure Path)) (path : Path) : Prop :=
  ∃ source, .ok source ∈ entries ∧ path = intermediate source

variable [Tools]

theorem keptOrCalled_of_proceeds (h : Proceeds texts w calls after) {tree : FileTree}
    (hadds : Adds tree w.files)
    (hfixed : ∀ path later place old, texts path → Adds tree later →
      openForWriting later w.here path = .ok (place, old) → place ≠ location) :
    KeptOrCalled w after calls location := by
  induction h with
  | done w => exact .inl rfl
  | log log rest ih => exact ih hadds hfixed
  | @text w after calls path content files hpath hwrite rest ih =>
      have hnext := ih (hadds.trans (.of_write hwrite)) hfixed
      have hkept : files.node? location = w.files.node? location := by
        unfold FileTree.Access.write at hwrite
        cases hopen : openForWriting w.files w.here path with
        | error error =>
            rw [hopen] at hwrite
            cases hwrite
        | ok opened =>
            obtain ⟨place, old⟩ := opened
            rw [hopen] at hwrite
            cases hwrite
            exact node?_put_of_ne _ (hfixed _ _ _ _ hpath hadds hopen).symm
      exact hnext.imp_left fun hlater => hlater.trans hkept
  | @call w after calls program arguments environment rest ih =>
      have hfills := call_fills program arguments environment w
      by_cases hchanged :
        (attempted (Compiler.Tool.call program arguments environment) w).2.files.node? location =
          w.files.node? location
      · have hnext := ih (hadds.trans (.of_byAdding hfills.files)) (by rwa [hfills.here])
        refine hnext.imp (fun hlater => hlater.trans hchanged) ?_
        rintro ⟨call, hcall, hchanges⟩
        exact ⟨call, List.mem_cons_of_mem _ hcall, hchanges⟩
      · exact .inr ⟨_, List.mem_cons_self, hchanged⟩

theorem isDirectory_or_called (h : Proceeds texts w calls after) (path : Path) :
    isDirectory after.files after.here path = isDirectory w.files w.here path ∨
      ∃ call ∈ calls, isDirectory call.1.files call.1.here path = false ∧
        isDirectory call.2.files call.2.here path = true := by
  induction h with
  | done w => exact .inl rfl
  | log log rest ih => exact ih
  | text hpath hwrite rest ih =>
      exact ih.imp_left fun hlater => hlater.trans ((SameFolders.of_write hwrite).isDirectory _ _)
  | @call w after calls program arguments environment rest ih =>
      have hfills := call_fills program arguments environment w
      cases hbefore : isDirectory w.files w.here path with
      | true =>
          have hnow := (Adds.of_byAdding hfills.files).kept.isDirectory hbefore
          rw [← hfills.here] at hnow
          refine ih.imp (fun hlater => hlater.trans hnow) ?_
          rintro ⟨call, hcall, hmakes⟩
          exact ⟨call, List.mem_cons_of_mem _ hcall, hmakes⟩
      | false =>
          cases hnow :
            isDirectory (attempted (Compiler.Tool.call program arguments environment) w).2.files
              (attempted (Compiler.Tool.call program arguments environment) w).2.here path with
          | true => exact .inr ⟨_, List.mem_cons_self, hbefore, hnow⟩
          | false =>
              refine ih.imp (fun hlater => hlater.trans hnow) ?_
              rintro ⟨call, hcall, hmakes⟩
              exact ⟨call, List.mem_cons_of_mem _ hcall, hmakes⟩

variable [Encoding]

/-- The sources of a project when its optimization has found a compiler. -/
def walked (settings : Settings) (context : Context) (w : Workspace) : List (Except Failure Path) :=
  walk settings context (prepared settings none context w).2

section

variable [Locator]

/-- The optimization of a project calls tools to find a compiler, and then writes the texts of its
sources and calls tools. -/
theorem exists_of_optimization (settings : Settings) (context : Context) (w : Workspace) :
    ∃ outcomes metadata after calls more,
      attempted ((optimization settings none).execute context) w =
        (.ok { context with
          outcomes := context.outcomes ++ outcomes
          counts := context.counts + total outcomes
          metadata }, after) ∧
      outcomes.map Outcome.source = (walked settings context w).filterMap Except.toOption ∧
      Proceeds (fun _ => False) w calls (prepared settings none context w).2 ∧
      Proceeds (IsText (walked settings context w))
        (prepared settings none context w).2 more after := by
  obtain ⟨calls, hprepared⟩ := exists_prepared (fun _ => False) settings none context w
  have hnoted : ∀ entry u,
      (∃ more, Proceeds (IsText (walked settings context w))
        (prepared settings none context w).2 more u) →
      ∃ more, Proceeds (IsText (walked settings context w))
        (prepared settings none context w).2 more
        (noted entry u) := by
    rintro entry u ⟨more, hu⟩
    exact ⟨more ++ [], hu.append (.log _ (.done _))⟩
  have hcalled :
    ∀ source emitted u, .ok source ∈ walk settings context (prepared settings none context w).2 →
      (∃ more, Proceeds (IsText (walked settings context w))
        (prepared settings none context w).2 more u) →
        ∃ more, Proceeds (IsText (walked settings context w))
          (prepared settings none context w).2 more
          (called (prepared settings none context w).1 u source emitted).2 := by
    rintro source emitted u hsource ⟨more, hu⟩
    obtain ⟨last, hcompile⟩ := compile_tries (acted (detect settings.compiler)
      (noted { level := .info, message := "Optimizing Python sources in " ++
        context.input.shown } w)).1
      source emitted u
    exact ⟨more ++ last, hu.append (hcompile.mono fun path hpath => ⟨source, hsource, hpath⟩)⟩
  obtain ⟨outcomes, metadata, after, hrun, hsources, -, -, more, hproceeds⟩ :=
    exists_of_prepared settings none context w hnoted hcalled ⟨[], .done _⟩
  exact ⟨outcomes, metadata, after, calls, more, hrun, hsources, hprepared, hproceeds⟩

end

/-- Nothing in the output directory is changed but by tools, if the project is not in it and no link
stands where a text is written. -/
theorem keptOrCalled_of_isInside (hsound : IsSound w.files w.here)
    (hproject : find w.files w.here context.input = .ok (base, .directory))
    (houtput : find w.files w.here context.output = .ok (place, .directory))
    (hbase : ¬ place <:+ base)
    (hlink : ∀ path, IsText (walked settings context w) path → ∀ found target,
      resolve w.files w.here path false ≠ .ok (.found found (.link target)))
    (hprepared : Proceeds (fun _ => False) w calls (prepared settings none context w).2)
    (hproceeds : Proceeds (IsText (walked settings context w))
      (prepared settings none context w).2 more after)
    (hinside : isInside place location = true) : KeptOrCalled w after (calls ++ more) location := by
  have hfills := hprepared.fills
  have hadds := Adds.of_byAdding hfills.files
  have hroot := hadds.find_directory hproject
  have hexclude : ({ names := settings.source.exclude } : Exclusions).excludeDirectory
      (prepared settings none context w).2.files w.here context.output =
        { names := settings.source.exclude, locations := [place] } := by
    rw [Exclusions.excludeDirectory, hadds.find_directory houtput]
    rfl
  have hfirst : KeptOrCalled w (prepared settings none context w).2 calls location :=
    keptOrCalled_of_proceeds hprepared (.refl _) fun _ _ _ _ htext => htext.elim
  refine hfirst.trans
    (keptOrCalled_of_proceeds hproceeds (.refl _) fun path later opened old htext hlater hopen =>
      ?_)
  rintro rfl
  obtain ⟨source, hwalk, rfl⟩ := htext
  have hsource := hwalk
  rw [walked, walk, hfills.here, hexclude] at hsource
  obtain ⟨below, hfound⟩ := exists_isFound (mem_sourcesBelow hroot hsource)
  rw [hfills.here] at hopen
  obtain ⟨name, rfl⟩ :=
    tail_of_open (hfills.sound hsound).wellFormed hroot hfound hsound.wellFormed hproject
    (hlink _ ⟨source, hwalk, rfl⟩) (hadds.trans hlater) hlater hopen
  rw [isInside_beside hbase hfound] at hinside
  cases hinside

end Cythonizer.Proofs.Pipeline.Confinement
