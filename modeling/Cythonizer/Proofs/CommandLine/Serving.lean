import Cythonizer.CommandLine.Session
import Cythonizer.Proofs.Packaging.Shipping
import Cythonizer.Proofs.Pipeline.Confinement
import Cythonizer.Proofs.Pipeline.Runner
import Cythonizer.Proofs.Settings.Loading

namespace Cythonizer.Proofs.CommandLine.Serving

open Cythonizer.CommandLine.Arguments
open Cythonizer.CommandLine.Session
open Cythonizer.Compiler.Program (Tools)
open Cythonizer.Log.Basic
open Cythonizer.Packaging.Basic
open Cythonizer.Path.Basic
open Cythonizer.Pipeline.Complete
open Cythonizer.Pipeline.Context
open Cythonizer.Pipeline.Optimization
open Cythonizer.Pipeline.Packaging
open Cythonizer.Pipeline.Runner
open Cythonizer.Problem.Basic
open Cythonizer.Report.Basic
open Cythonizer.Settings.Basic
open Cythonizer.Source.Fault (Locator)
open Cythonizer.Workspace.Basic
open Cythonizer.Proofs.Compiler.Effects
open Cythonizer.Proofs.Packaging.Endings
open Cythonizer.Proofs.Packaging.Shipping
open Cythonizer.Proofs.Pipeline.Confinement
open Cythonizer.Proofs.Pipeline.Optimization
open Cythonizer.Proofs.Pipeline.Runner
open Cythonizer.Proofs.Pipeline.Stages (prepared)
open Cythonizer.Proofs.Settings.Loading
open Cythonizer.Proofs.Workspace.Runs

variable {settings : Settings} {request : Request} {w between after left : Workspace}
    {context : Context}
  {generated : Stamp} {problem : Problem} {summary : Summary} {status : Bool → Nat}

/-- The path of the output directory. -/
def target (request : Request) : Path :=
  request.project.join request.output

/-- How loading the settings of the project goes. -/
def loaded (request : Request) (w : Workspace) : Except Problem Settings :=
  (attempted (Settings.Loading.load request.project) w).1

def packagerOf (settings : Settings) (request : Request) : Packager :=
  { project := request.project, output := target request, settings := settings.packaging }

/-- A run is stopped before packaging: a file has been skipped, and that is enough to stop. -/
def IsStopped (settings : Settings) (outcomes : List Outcome) : Prop :=
  settings.pipeline.validation = .stopOnError ∧ ∃ outcome ∈ outcomes, outcome.isOptimized = false

instance (settings : Settings) (outcomes : List Outcome) :
    Decidable (IsStopped settings outcomes) :=
  inferInstanceAs (Decidable (_ ∧ _))

theorem isStopped_iff (settings : Settings) (context : Context) :
    IsStopped settings context.outcomes ↔ settings.pipeline.validation = .stopOnError ∧
      (Pipeline.Optimization.verdict context).passed = false := by
  rw [IsStopped, Bool.eq_false_iff, ne_eq, verdict_passed_iff]
  simp

variable [Encoding]

/-- The program ends at once: the stages are validated, and a file has been skipped whose path is no
text. -/
def IsPanicked (settings : Settings) (outcomes : List Outcome) : Prop :=
  settings.pipeline.validation ≠ .none ∧ ∃ outcome ∈ outcomes, isTold outcome = false

/-- Whether all paths of the report are texts, the one of the output directory and those of the
files. -/
def isReportable (request : Request) (outcomes : List Outcome) : Bool :=
  (target request).isProper && outcomes.all fun outcome =>
    ((outcome.source.stripPrefix? request.project).getD outcome.source).isProper

/-- What is logged where packaging fails. -/
def failed (request : Request) (problem : Problem) : Entry :=
  { level := .error
    message := "Optimization run failed"
    cause := some ((problem.failure.within
      ("Failed to package optimized modules into " ++ (target request).shown)).within
        "Stage 'Packaging' failed") }

theorem isPanic_failure (problem : Problem) : problem.failure.isPanic = false := by
  cases problem <;> rfl

theorem attempted_packaging_of_error {validation : Validation}
    {packagingSettings : PackagingSettings}
    (h : attempted (Packager.package
        { project := context.input, output := context.output, settings := packagingSettings }
          context.records)
      (noted (running 2 2 (packaging packagingSettings)) w) = (.error problem, left)) :
    attempted (runFrom validation 2 1 [packaging packagingSettings] context) w =
      (.error ((problem.failure.within
        ("Failed to package optimized modules into " ++ context.output.shown)).within
          "Stage 'Packaging' failed"), left) := by
  have hexecute : attempted ((packaging packagingSettings).execute context)
      (noted (running 2 2 (packaging packagingSettings)) w) =
        (.error (problem.failure.within
          ("Failed to package optimized modules into " ++ context.output.shown)), left) := by
    change attempted (Pipeline.Packaging.package packagingSettings context) _ = _
    rw [Pipeline.Packaging.package, attempted_bind, attempted_adapt, h]
    rfl
  rw [attempted_runFrom_cons, Pipeline.Runner.attempted_execute, hexecute]
  rfl

theorem attempted_packaging_of_ok {validation : Validation} {packagingSettings : PackagingSettings}
    (houtput : context.output.text ≠ "")
    (h : attempted (Packager.package
        { project := context.input, output := context.output, settings := packagingSettings }
          context.records)
      (noted (running 2 2 (packaging packagingSettings)) w) = (.ok summary, left)) :
    ∃ metadata package verdicts log,
      attempted (runFrom validation 2 1 [packaging packagingSettings] context) w =
        (.ok { context with metadata, package, verdicts }, { left with log }) := by
  have hexecute := Packaging.Shipping.attempted_execute h
  have hpassed := verdict_passed houtput hexecute
  rcases @runFrom_cases validation _ [] _ _ _ _ 2 1 _ hexecute rfl with
    ⟨-, verdicts, log, hrest⟩ | ⟨-, hrefused, -⟩
  · exact ⟨_, _, verdicts, log, hrest⟩
  · cases hpassed.symm.trans hrefused

theorem packaging_cases {validation : Validation} {packagingSettings : PackagingSettings}
    (houtput : context.output.text ≠ "") (verdicts : List Verdict) (log : Log) :
    (∃ summary left last log',
      attempted (Packager.package
        { project := context.input, output := context.output, settings := packagingSettings }
          context.records) w =
          (.ok summary, left) ∧
      attempted (runFrom validation 2 1 [packaging packagingSettings] { context with verdicts })
          { w with log } = (.ok last, { left with log := log' }) ∧
      last.input = context.input ∧ last.output = context.output ∧
        last.outcomes = context.outcomes) ∨
    ∃ problem left log',
      attempted (Packager.package
        { project := context.input, output := context.output, settings := packagingSettings }
          context.records) w =
          (.error problem, left) ∧
      attempted (runFrom validation 2 1 [packaging packagingSettings] { context with verdicts })
          { w with log } =
        (.error ((problem.failure.within
          ("Failed to package optimized modules into " ++ context.output.shown)).within
            "Stage 'Packaging' failed"), { left with log := log' }) := by
  obtain ⟨last, hpackage⟩ := package_ignoresLog
    { project := context.input, output := context.output, settings := packagingSettings }
      context.records w
    (log ++ [running 2 2 (packaging packagingSettings)])
  rcases hpackaged : attempted (Packager.package
      { project := context.input, output := context.output, settings := packagingSettings }
        context.records) w with
    ⟨problem | summary, left⟩
  · rw [hpackaged] at hpackage
    have hfails := @attempted_packaging_of_error { w with log } _
      { context with verdicts } _ _ validation _ hpackage
    exact .inr ⟨problem, left, last, rfl, hfails⟩
  · rw [hpackaged] at hpackage
    obtain ⟨metadata, package, verdicts', log', hpackages⟩ :=
      @attempted_packaging_of_ok { w with log } _ { context with verdicts } _ _ validation
        packagingSettings
        houtput hpackage
    exact .inl ⟨summary, left, _, _, rfl, hpackages, rfl, rfl, rfl⟩

theorem isWritable_eq {output : Output} {outcomes : List Outcome}
    (hinput : output.input = request.project)
    (houtput : output.output = target request) (houtcomes : output.outcomes = outcomes)
    (w : Workspace) :
    isWritable (ofOutput w output) = isReportable request outcomes := by
  have hpath : ∀ outcome, (lineOf output outcome).path =
      (outcome.source.stripPrefix? output.input).getD outcome.source := by
    intro outcome
    cases outcome with
    | skipped source reason => rfl
    | optimized source emitted compiled counts =>
        rw [lineOf]
        split <;> rfl
  rw [isWritable, ofOutput, isReportable, ← hinput, ← houtput, ← houtcomes, List.all_map]
  simp only [Function.comp_def, hpath]

/-- What the program exits with when the report has been logged. -/
def statusOf (isWritten debug : Bool) : Nat :=
  if debug && !isWritten then 1 else 0

theorem acted_logReport (generated : Stamp) (output : Output) (w : Workspace) :
    ∃ log, ∀ debug, acted (logReport generated debug output) w =
      (statusOf (isWritable (ofOutput w output)) debug, { w with log }) := by
  have hreport : ∃ shown detailed, ∀ debug, acted (logReport generated debug output) w =
      if isWritable (ofOutput w output) then (0, noted detailed (noted shown w))
      else (if debug then 1 else 0, noted shown w) := by
    refine ⟨{ level := .info, message :=
      "\n" ++ Report.Text.render generated.plain (ofOutput w output) },
      { level := .debug
        message := String.ofList
          (Json.Printer.pretty 0 (Report.Coding.encode generated.precise (ofOutput w output))) },
      fun debug => ?_⟩
    unfold logReport
    rw [acted_bind, acted_get]
    dsimp only
    rw [acted_bind, acted_info]
    dsimp only
    split <;> rfl
  obtain ⟨shown, detailed, hreport⟩ := hreport
  cases hwritable : isWritable (ofOutput w output) with
  | true =>
      refine ⟨(noted detailed (noted shown w)).log, fun debug => ?_⟩
      rw [hreport, if_pos hwritable]
      cases debug <;> rfl
  | false =>
      refine ⟨(noted shown w).log, fun debug => ?_⟩
      rw [hreport, if_neg (by simp [hwritable])]
      cases debug <;> rfl

variable [Locator] [Tools]

/-- The workspace that the first stage starts in. -/
def begun (settings : Settings) (request : Request) (w : Workspace) : Workspace :=
  noted (running 1 2 (optimization settings none))
    (noted (started 2 request.project)
      (noted { level := .info, message := name ++ " v" ++ version } w))

/-- What the first stage gives and leaves behind. -/
def optimized (settings : Settings) (request : Request) (w : Workspace) : Context × Workspace :=
  acted (optimize settings none { input := request.project, output := target request })
    (begun settings request w)

/-- The workspace in which the first stage looks for the sources. -/
def readied (settings : Settings) (request : Request) (w : Workspace) : Workspace :=
  (prepared settings none { input := request.project, output := target request }
    (begun settings request w)).2

/-- The sources that a request is about. -/
def requested (settings : Settings) (request : Request) (w : Workspace) :
    List (Except Failure Path) :=
  walked settings { input := request.project, output := target request } (begun settings request w)

/-- What the first stage gives has one outcome for each source. All that it has done to the files is
to call tools, to write the texts of the sources, and to call tools again. -/
theorem exists_optimized (settings : Settings) (request : Request) (w : Workspace) :
    ∃ calls more, (optimized settings request w).1.input = request.project ∧
      (optimized settings request w).1.output = target request ∧
      (optimized settings request w).1.outcomes.map Outcome.source =
        (requested settings request w).filterMap Except.toOption ∧
      Proceeds (fun _ => False) (begun settings request w) calls (readied settings request w) ∧
      Proceeds (IsText (requested settings request w)) (readied settings request w) more
        (optimized settings request w).2 := by
  obtain ⟨outcomes, metadata, after, calls, more, hrun, hsources, hprepared, hproceeds⟩ :=
    exists_of_optimization settings { input := request.project, output := target request }
      (begun settings request w)
  have hoptimize : attempted ((optimization settings none).execute
      { input := request.project, output := target request }) (begun settings request w) =
        (.ok (optimized settings request w).1, (optimized settings request w).2) := rfl
  rw [hoptimize, Prod.mk.injEq, Except.ok.injEq] at hrun
  obtain ⟨hcontext, hleft⟩ := hrun
  rw [hcontext, hleft]
  exact ⟨calls, more, rfl, rfl, hsources, hprepared, hproceeds⟩

theorem acted_process (generated : Stamp) (settings : Settings) (request : Request)
    (w : Workspace) :
    (∃ output between log, attempted (cythonize settings none request.project (target request)) w =
      (.ok output, between) ∧ ∀ debug, acted (process generated settings { request with debug }) w =
        (statusOf (isWritable (ofOutput between output)) debug, { between with log })) ∨
    ∃ failure between, attempted (cythonize settings none request.project (target request)) w =
      (.error failure, between) ∧
      ∀ debug, acted (process generated settings { request with debug }) w =
        if failure.isPanic then (101, between)
        else (1, noted { level := .error, message :=
          "Optimization run failed", cause := some failure } between) := by
  have hprocess : ∀ debug, acted (process generated settings { request with debug }) w =
      match attempted (cythonize settings none request.project (target request)) w with
      | (.ok output, between) => acted (logReport generated debug output) between
      | (.error failure, between) =>
        if failure.isPanic then (101, between)
        else
          (1, noted { level := .error, message := "Optimization run failed", cause := some failure }
            between) := by
    intro debug
    unfold process
    dsimp only
    rw [acted_bind, acted_run, ← target]
    rcases attempted (cythonize settings none request.project (target request)) w with
      ⟨failure | output, between⟩
    · dsimp only
      split <;> rfl
    · rfl
  rcases hrun : attempted (cythonize settings none request.project (target request)) w with
    ⟨failure | output, between⟩
  all_goals simp only [hrun] at hprocess
  · exact .inr ⟨failure, between, rfl, hprocess⟩
  · obtain ⟨log, hlog⟩ := acted_logReport generated output between
    exact .inl ⟨output, between, log, rfl, fun debug => (hprocess debug).trans (hlog debug)⟩

theorem acted_serve (generated : Stamp) (request : Request) (w : Workspace) :
    acted (serve generated request) w =
      match loaded request w with
      | .error _ => (1, noted { level := .info, message := name ++ " v" ++ version } w)
      | .ok settings =>
        acted (process generated settings request)
          (noted { level := .info, message := name ++ " v" ++ version } w) := by
  have hagain : attempted (Settings.Loading.load request.project)
      (noted { level := .info, message := name ++ " v" ++ version } w) =
        (loaded request w, noted { level := .info, message := name ++ " v" ++ version } w) := by
    rw [loaded, attempted_load, attempted_load]
    rfl
  rw [serve, acted_bind, acted_info, acted_bind, acted_run, hagain]
  cases loaded request w <;> rfl

section

variable (settings : Settings) (request : Request) (w : Workspace)

/-- Run both stages after the first log entry. -/
def cythonized : Except Failure Output × Workspace :=
  attempted (cythonize settings none request.project (target request))
    (noted { level := .info, message := name ++ " v" ++ version } w)

/-- Package what the first stage has made. -/
def packaged : Except Problem Summary × Workspace :=
  attempted ((packagerOf settings request).package (optimized settings request w).1.records)
    (optimized settings request w).2

theorem cythonized_eq : cythonized settings request w =
    match attempted (runFrom settings.pipeline.validation 2 0 (stages settings none)
        { input := request.project, output := target request })
      (noted (started 2 request.project)
        (noted { level := .info, message := name ++ " v" ++ version } w)) with
    | (.ok context, after) => (.ok context.toOutput, noted (completed context.toOutput) after)
    | (.error failure, after) => (.error failure, after) :=
  attempted_run_eq _ _ _

/-- How packaging goes decides on the run once the first stage is through. -/
theorem runFrom_packaging (hnamed : (target request).text ≠ "")
    (verdicts : List Verdict) (log : Log) :
    (∃ summary left last log',
      packaged settings request w = (.ok summary, left) ∧
      attempted (runFrom settings.pipeline.validation 2 1 [packaging settings.packaging]
          { (optimized settings request w).1 with verdicts })
            { (optimized settings request w).2 with log } =
        (.ok last, { left with log := log' }) ∧
      last.input = request.project ∧ last.output = target request ∧
      last.outcomes = (optimized settings request w).1.outcomes) ∨
    ∃ problem left log',
      packaged settings request w = (.error problem, left) ∧
      attempted (runFrom settings.pipeline.validation 2 1 [packaging settings.packaging]
          { (optimized settings request w).1 with verdicts })
            { (optimized settings request w).2 with log } =
        (.error ((problem.failure.within
          ("Failed to package optimized modules into " ++ (target request).shown)).within
            "Stage 'Packaging' failed"), { left with log := log' }) := by
  obtain ⟨calls, more, hinput, hcontext, -, -, -⟩ := exists_optimized settings request w
  rw [packaged, packagerOf]
  generalize target request = output at hnamed hcontext ⊢
  generalize request.project = project at hinput ⊢
  generalize optimized settings request w = given at hinput hcontext ⊢
  obtain ⟨context, u⟩ := given
  dsimp only at hinput hcontext ⊢
  subst hinput hcontext
  exact packaging_cases hnamed verdicts log

/-- The program ends after the first stage, or the run is stopped there, or it goes on with
packaging. -/
theorem cythonized_cases (hnamed : (target request).text ≠ "") :
    (IsPanicked settings (optimized settings request w).1.outcomes ∧
      ∃ failure log, failure.isPanic = true ∧
      cythonized settings request w =
        (.error failure, { (optimized settings request w).2 with log })) ∨
    ¬ IsPanicked settings (optimized settings request w).1.outcomes ∧
      ((IsStopped settings (optimized settings request w).1.outcomes ∧ ∃ failure log,
        failure.isPanic = false ∧
        cythonized settings request w =
          (.error failure, { (optimized settings request w).2 with log })) ∨
      ¬ IsStopped settings (optimized settings request w).1.outcomes ∧
        ((∃ summary left output log, packaged settings request w = (.ok summary, left) ∧
          cythonized settings request w = (.ok output, { left with log }) ∧
          ∀ between, isWritable (ofOutput between output) =
            isReportable request (optimized settings request w).1.outcomes) ∨
        ∃ problem left log, packaged settings request w = (.error problem, left) ∧
          cythonized settings request w = (.error ((problem.failure.within
            ("Failed to package optimized modules into " ++ (target request).shown)).within
              "Stage 'Packaging' failed"), { left with log }))) := by
  have hoptimize : attempted ((optimization settings none).execute
      { input := request.project, output := target request }) (begun settings request w) =
        (.ok (optimized settings request w).1, (optimized settings request w).2) := rfl
  have hgoes : ∀ verdicts log,
      attempted (runFrom settings.pipeline.validation 2 0 (stages settings none)
        { input := request.project, output := target request })
        (noted (started 2 request.project)
          (noted { level := .info, message := name ++ " v" ++ version } w)) =
      attempted (runFrom settings.pipeline.validation 2 1 [packaging settings.packaging]
        { (optimized settings request w).1 with verdicts })
          { (optimized settings request w).2 with log } →
      (∃ summary left output log, packaged settings request w = (.ok summary, left) ∧
        cythonized settings request w = (.ok output, { left with log }) ∧
        ∀ between, isWritable (ofOutput between output) =
          isReportable request (optimized settings request w).1.outcomes) ∨
      ∃ problem left log, packaged settings request w = (.error problem, left) ∧
        cythonized settings request w = (.error ((problem.failure.within
          ("Failed to package optimized modules into " ++ (target request).shown)).within
            "Stage 'Packaging' failed"), { left with log }) := by
    intro verdicts log hrest
    rw [cythonized_eq, hrest]
    rcases runFrom_packaging settings request w hnamed verdicts log with
      ⟨summary, left, last, log', hpackage, hends, hinput, houtput, houtcomes⟩ |
      ⟨problem, left, log', hpackage, hends⟩
    · rw [hends]
      refine .inl
        ⟨summary, left, last.toOutput,
          (noted (completed last.toOutput) { left with log := log' }).log,
        hpackage, rfl, fun between => isWritable_eq hinput houtput houtcomes between⟩
    · rw [hends]
      exact .inr ⟨problem, left, log', hpackage, rfl⟩
  by_cases htold : ∀ outcome ∈ (optimized settings request w).1.outcomes, isTold outcome = true
  · have hcalm : ¬ IsPanicked settings (optimized settings request w).1.outcomes := by
      rintro ⟨-, outcome, houtcome, huntold⟩
      cases (htold outcome houtcome).symm.trans huntold
    refine .inr ⟨hcalm, ?_⟩
    rcases @runFrom_cases settings.pipeline.validation _
      [packaging settings.packaging] _ _ _ _ 2 0 _ hoptimize
      (validated_of_told htold) with
      ⟨haccepted, verdicts, log, hrest⟩ | ⟨hstop, hrefused, failure, log, hcause, hfails⟩
    · refine .inr ⟨fun hstopped => ?_, hgoes verdicts log hrest⟩
      obtain ⟨hstop, hrefused⟩ := (isStopped_iff _ _).mp hstopped
      cases (haccepted hstop).symm.trans hrefused
    · refine .inl ⟨(isStopped_iff _ _).mpr ⟨hstop, hrefused⟩, failure, log, hcause, ?_⟩
      rw [cythonized_eq, stages, hfails]
  · have huntold : validated (optimized settings request w).1 = .error
        { message := "path contains invalid UTF-8 characters", isPanic := true } :=
      if_neg fun hall => htold (List.all_eq_true.mp hall)
    rcases @runFrom_cases_of_error settings.pipeline.validation _
      [packaging settings.packaging] _ _ _ _ _ 2 0
      hoptimize huntold with ⟨hnone, log, hrest⟩ | ⟨hsome, log, hfails⟩
    · refine .inr ⟨fun hpanicked => hpanicked.1 hnone, .inr ⟨fun hstopped => ?_, ?_⟩⟩
      · cases hnone.symm.trans hstopped.1
      · exact hgoes (optimized settings request w).1.verdicts log hrest
    · have hpanicked : IsPanicked settings (optimized settings request w).1.outcomes :=
        ⟨hsome, by simpa using htold⟩
      refine .inl
        ⟨hpanicked, { message := "path contains invalid UTF-8 characters", isPanic := true }, log,
          rfl, ?_⟩
      rw [cythonized_eq, stages, hfails]

end

/-- How a request is served after its settings have been loaded, and what the program exits with,
depending on whether the log is shown in full. -/
inductive Ends (settings : Settings) (request : Request) (w : Workspace) :
    (Bool → Nat) → Workspace → Prop
  | panicked (log : Log)
    (hpanicked : IsPanicked settings (optimized settings request w).1.outcomes) :
      Ends settings request w (fun _ => 101) { (optimized settings request w).2 with log }
  | stopped (log : Log) (hcalm : ¬ IsPanicked settings (optimized settings request w).1.outcomes)
      (hstopped : IsStopped settings (optimized settings request w).1.outcomes) :
      Ends settings request w (fun _ => 1) { (optimized settings request w).2 with log }
  | packaged (log : Log) {summary : Summary} {left : Workspace}
      (hcalm : ¬ IsPanicked settings (optimized settings request w).1.outcomes)
      (hgoes : ¬ IsStopped settings (optimized settings request w).1.outcomes)
      (hpackage : packaged settings request w = (.ok summary, left)) :
      Ends settings request w
        (statusOf (isReportable request (optimized settings request w).1.outcomes))
        { left with log }
  | failed (log : Log) {problem : Problem} {left : Workspace}
      (hcalm : ¬ IsPanicked settings (optimized settings request w).1.outcomes)
      (hgoes : ¬ IsStopped settings (optimized settings request w).1.outcomes)
      (hpackage : packaged settings request w = (.error problem, left)) :
      Ends settings request w (fun _ => 1) (noted (failed request problem) { left with log })

theorem serve_ends (hload : loaded request w = .ok settings) (hnamed : (target request).text ≠ "") :
    ∃ status after, Ends settings request w status after ∧
      ∀ debug, acted (serve generated { request with debug }) w = (status debug, after) := by
  have hserve : ∀ debug, acted (serve generated { request with debug }) w =
      acted (process generated settings { request with debug })
        (noted { level := .info, message := name ++ " v" ++ version } w) := by
    intro debug
    have hsame : loaded { request with debug } w = .ok settings := hload
    rw [acted_serve, hsame]
  rcases acted_process generated settings request
    (noted { level := .info, message := name ++ " v" ++ version } w)
    with ⟨output, between, log, hcythonize, hprocess⟩ | ⟨failure, between, hcythonize, hprocess⟩
  all_goals
    rw [← cythonized] at hcythonize
    rcases cythonized_cases settings request w hnamed with
      ⟨hpanicked, cause, last, hpanic, hends⟩ | ⟨hcalm, ⟨hstopped, cause, last, hpanic, hends⟩ |
        ⟨hgoes, ⟨summary, left, made, last, hpackage, hends, hwritable⟩ | ⟨problem, left, last,
          hpackage, hends⟩⟩⟩
    all_goals
      rw [hends] at hcythonize
      cases hcythonize
  · refine ⟨_, _, .packaged log hcalm hgoes hpackage, fun debug => ?_⟩
    rw [hserve, hprocess, hwritable]
  · refine ⟨_, _, .panicked last hpanicked, fun debug => ?_⟩
    rw [hserve, hprocess, if_pos hpanic]
  · have hlogged := @Ends.stopped _ _ _ settings request w
      (noted { level := .error, message := "Optimization run failed", cause := some failure }
        { (optimized settings request w).2 with log := last }).log hcalm hstopped
    refine ⟨_, _, hlogged, fun debug => ?_⟩
    rw [hserve, hprocess, if_neg (by simp [hpanic])]
    rfl
  · refine ⟨_, _, .failed last hcalm hgoes hpackage, fun debug => ?_⟩
    rw [hserve, hprocess, if_neg (by simp [Failure.within, isPanic_failure])]
    rfl

end Cythonizer.Proofs.CommandLine.Serving
