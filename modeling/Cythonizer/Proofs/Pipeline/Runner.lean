import Cythonizer.Pipeline.Runner
import Cythonizer.Proofs.Workspace.Runs

/-!
Runs of a pipeline. A stage either lets the run go on (`Advances`) or stops it (`Halts`); a run goes
through stages that let it go on (`Course`) up to its end or to the first stage that stops it.
-/

namespace Cythonizer.Proofs.Pipeline.Runner

open Cythonizer.Log.Basic
open Cythonizer.Path.Basic
open Cythonizer.Pipeline.Context
open Cythonizer.Pipeline.Runner
open Cythonizer.Problem.Basic
open Cythonizer.Settings.Basic
open Cythonizer.Workspace.Basic
open Cythonizer.Proofs.Workspace.Runs

variable {validation : Validation} {stage : Stage} {stages : List Stage}
    {context next last : Context}
  {w between after : Workspace} {lines : Log} {failure : Failure} {total done : Nat}

def started [Encoding] (total : Nat) (input : Path) : Entry :=
  { level := .info, message := s!"Starting pipeline with {total} stages for {input.shown}" }

def running (number total : Nat) (stage : Stage) : Entry :=
  { level := .info, message := s!"Running stage {number}/{total}: {stage.name}" }

def finished (stage : Stage) : Entry :=
  { level := .debug
    message := "Stage '" ++ stage.name ++ "' finished in " ++ toString stage.duration ++ " ms" }

def refusal (stage : Stage) : String :=
  "Validation failed for stage '" ++ stage.name ++ "'"

/-- What is logged of a verdict. -/
def judged (stage : Stage) (verdict : Verdict) : Entry :=
  if verdict.passed then
    { level := .debug
      message := "Validation passed for stage '" ++ stage.name ++ "': " ++ verdict.message }
  else { level := .error, message := refusal stage, cause := some { message := verdict.message } }

def completed (output : Output) : Entry :=
  { level := .info
    message :=
      s!"Pipeline completed: {output.outcomes.countP Outcome.isOptimized} of {output.outcomes.length} files optimized" }

/-- A stage is executed well, with entries of its own in the log. -/
structure Executes (stage : Stage) (context : Context) (w : Workspace) (own : Log) (next : Context)
    (after : Workspace) : Prop where
  run : attempted (stage.execute context) w = (.ok next, after)
  log : after.log = w.log ++ own

/-- A stage that is executed lets the run go on if its verdict is not asked for, if the verdict is
good, or if bad ones are only recorded. -/
inductive Advances (validation : Validation) (stage : Stage) (context : Context) (w : Workspace) :
    Log → Context → Workspace → Prop
  | unvalidated {own : Log} {next : Context} {after : Workspace} (strategy : validation = .none)
      (executed : Executes stage context w own next after) :
      Advances validation stage context w (own ++ [finished stage]) next
        (noted (finished stage) after)
  | validated {own : Log} {next : Context} {after : Workspace} {verdict : Verdict}
      (strategy : validation ≠ .none) (executed : Executes stage context w own next after)
      (verdict_eq : stage.validate (noted (finished stage) after) next = .ok verdict)
      (accepted : validation = .stopOnError → verdict.passed = true) :
      Advances validation stage context w (own ++ [finished stage, judged stage verdict])
        { next with verdicts := next.verdicts ++ [verdict] }
        (noted (judged stage verdict) (noted (finished stage) after))

/-- The failure that a stage stops the run with: it cannot be executed, it cannot be validated, or
its verdict is bad and that is enough to stop. -/
inductive Halts (validation : Validation) (stage : Stage) (context : Context) (w : Workspace) :
    Log → Failure → Workspace → Prop
  | execution {own : Log} {failure : Failure} {after : Workspace}
      (run : attempted (stage.execute context) w = (.error failure, after))
      (log : after.log = w.log ++ own) :
      Halts validation stage context w own
        (failure.within ("Stage '" ++ stage.name ++ "' failed")) after
  | validation {own : Log} {next : Context} {failure : Failure} {after : Workspace}
      (strategy : validation ≠ .none) (executed : Executes stage context w own next after)
      (failed : stage.validate (noted (finished stage) after) next = .error failure) :
      Halts validation stage context w (own ++ [finished stage]) failure
        (noted (finished stage) after)
  | verdict {own : Log} {next : Context} {after : Workspace} {verdict : Verdict}
      (strategy : validation = .stopOnError) (executed : Executes stage context w own next after)
      (verdict_eq : stage.validate (noted (finished stage) after) next = .ok verdict)
      (refused : verdict.passed = false) :
      Halts validation stage context w (own ++ [finished stage, judged stage verdict])
        (Failure.within { message := verdict.message } (refusal stage))
        (noted (judged stage verdict) (noted (finished stage) after))

/-- Stages that let the run go on, one after another, of which the first has the number `done + 1`.
-/
inductive Course (validation : Validation) (total : Nat) :
    Nat → List Stage → Context → Workspace → Log → Context → Workspace → Prop
  | done (number : Nat) (context : Context) (w : Workspace) :
      Course validation total number [] context w [] context w
  | stage {number : Nat} {stage : Stage} {rest : List Stage} {context next last : Context}
      {w between after : Workspace} {lines more : Log}
      (first : Advances validation stage context (noted (running (number + 1) total stage) w) lines
        next between)
      (others : Course validation total (number + 1) rest next between more last after) :
      Course validation total number (stage :: rest) context w
        (running (number + 1) total stage :: lines ++ more) last after

/-- A stage whose execution only adds to the log. -/
def KeepsLog (stage : Stage) : Prop :=
  ∀ context w, ∃ own, (attempted (stage.execute context) w).2.log = w.log ++ own

theorem Advances.log (h : Advances validation stage context w lines next after) :
    after.log = w.log ++ lines := by
  cases h with
  | unvalidated strategy executed => simp [noted, executed.log]
  | validated strategy executed verdict_eq accepted => simp [noted, executed.log]

theorem Halts.log (h : Halts validation stage context w lines failure after) :
    after.log = w.log ++ lines := by
  cases h with
  | execution run log => exact log
  | validation strategy executed failed => simp [noted, executed.log]
  | verdict strategy executed verdict_eq refused => simp [noted, executed.log]

theorem Course.log (h : Course validation total done stages context w lines last after) :
    after.log = w.log ++ lines := by
  induction h with
  | done number context w => simp
  | stage first others ih => simp [ih, first.log, noted]

theorem attempted_execute (stage : Stage) (context : Context) (w : Workspace) :
    attempted (execute stage context) w =
      match attempted (stage.execute context) w with
      | (.ok next, after) => (.ok next, noted (finished stage) after)
      | (.error failure, after) =>
        (.error (failure.within ("Stage '" ++ stage.name ++ "' failed")), after) := by
  unfold execute
  rw [attempted_bind, attempted_adapt]
  rcases attempted (stage.execute context) w with ⟨next | failure, after⟩
  · rfl
  · rfl

theorem attempted_validate (stopOnError : Bool) (stage : Stage) (context : Context)
    (w : Workspace) :
    attempted (validate stopOnError stage context) w =
      match stage.validate w context with
      | .error failure => (.error failure, w)
      | .ok verdict =>
        if stopOnError && !verdict.passed then
          (.error (Failure.within { message := verdict.message } (refusal stage)),
            noted (judged stage verdict) w)
        else
          (.ok { context with verdicts := context.verdicts ++ [verdict] },
            noted (judged stage verdict) w) := by
  unfold validate
  rw [attempted_bind, attempted_get]
  dsimp only
  cases stage.validate w context with
  | error failure => rfl
  | ok verdict =>
      unfold judged
      dsimp only
      cases verdict.passed with
      | true => cases stopOnError <;> rfl
      | false => cases stopOnError <;> rfl

/-- The validation of a stage that has been executed, as far as the strategy asks for it. -/
def checked (validation : Validation) (stage : Stage) (context : Context) :
    Attempt Failure Context :=
  match validation with
  | .none => pure context
  | .stopOnError => validate true stage context
  | .continueOnError => validate false stage context

theorem attempted_runFrom_cons (context : Context) (w : Workspace) :
    attempted (runFrom validation total done (stage :: stages) context) w =
      match attempted (execute stage context) (noted (running (done + 1) total stage) w) with
      | (.ok next, after) =>
        attempted
          (checked validation stage next >>= runFrom validation total (done + 1) stages) after
      | (.error failure, after) => (.error failure, after) := by
  rw [runFrom, attempted_bind, attempted_info]
  dsimp only
  rw [attempted_bind]
  rw [show noted { level := .info, message :=
    s!"Running stage {done + 1}/{total}: {stage.name}" } w =
    noted (running (done + 1) total stage) w from rfl]
  rcases attempted (execute stage context) (noted (running (done + 1) total stage) w) with
    ⟨failure | next, after⟩
  · rfl
  · cases validation with
    | none => rfl
    | stopOnError => rfl
    | continueOnError => rfl

theorem attempted_checked (h : validation ≠ .none) (context : Context) (w : Workspace) :
    attempted (checked validation stage context) w =
      attempted (validate (validation == .stopOnError) stage context) w := by
  cases validation with
  | none => exact absurd rfl h
  | stopOnError => rfl
  | continueOnError => rfl

theorem attempted_runFrom_of_advances
    (h : Advances validation stage context (noted (running (done + 1) total stage) w)
      lines next between) :
    attempted (runFrom validation total done (stage :: stages) context) w =
      attempted (runFrom validation total (done + 1) stages next) between := by
  rw [attempted_runFrom_cons, attempted_execute]
  cases h with
  | unvalidated strategy executed =>
      subst strategy
      rw [executed.run]
      rfl
  | validated strategy executed verdict_eq accepted =>
      rw [executed.run]
      dsimp only
      rw [attempted_bind, attempted_checked strategy, attempted_validate, verdict_eq]
      dsimp only
      rw [if_neg]
      simpa using accepted

theorem attempted_runFrom_of_halts
    (h : Halts validation stage context (noted (running (done + 1) total stage) w) lines
      failure after) :
    attempted (runFrom validation total done (stage :: stages) context) w =
      (.error failure, after) := by
  rw [attempted_runFrom_cons, attempted_execute]
  cases h with
  | execution run log => rw [run]
  | validation strategy executed failed =>
      rw [executed.run]
      dsimp only
      rw [attempted_bind, attempted_checked strategy, attempted_validate, failed]
  | verdict strategy executed verdict_eq refused =>
      rw [executed.run]
      dsimp only
      rw [attempted_bind, attempted_checked (by simp [strategy]), attempted_validate, verdict_eq]
      dsimp only
      rw [if_pos (by simp [strategy, refused])]

theorem exists_of_runFrom
    (h : attempted (runFrom validation total done (stage :: stages) context) w =
      (.ok last, after)) :
    ∃ next between, attempted (stage.execute context) (noted (running (done + 1) total stage) w) =
      (.ok next, between) := by
  rw [attempted_runFrom_cons, attempted_execute] at h
  rcases hrun : attempted (stage.execute context) (noted (running (done + 1) total stage) w) with
    ⟨failure | next, between⟩
  · rw [hrun] at h
    cases h
  · exact ⟨next, between, rfl⟩

/-- After a stage has been executed the run goes on, with more verdicts and a longer log, unless the
verdict is bad and that is enough to stop. -/
theorem runFrom_cases {verdict : Verdict}
    (hexecute : attempted (stage.execute context) (noted (running (done + 1) total stage) w) =
      (.ok next, between))
    (hverdict : stage.validate (noted (finished stage) between) next = .ok verdict) :
    ((validation = .stopOnError → verdict.passed = true) ∧ ∃ verdicts log,
      attempted (runFrom validation total done (stage :: stages) context) w =
        attempted (runFrom validation total (done + 1) stages { next with verdicts })
          { between with log }) ∨
      (validation = .stopOnError ∧ verdict.passed = false ∧ ∃ failure log, failure.isPanic = false ∧
        attempted (runFrom validation total done (stage :: stages) context) w =
          (.error failure, { between with log })) := by
  rw [attempted_runFrom_cons, attempted_execute, hexecute]
  dsimp only
  by_cases hnone : validation = .none
  · subst hnone
    exact .inl ⟨by simp, next.verdicts, _, rfl⟩
  · rw [attempted_bind, attempted_checked hnone, attempted_validate, hverdict]
    dsimp only
    by_cases haccepted : validation = .stopOnError → verdict.passed = true
    · rw [if_neg (by simpa using haccepted)]
      exact .inl ⟨haccepted, _, _, rfl⟩
    · obtain ⟨hstop, hrefused⟩ := Classical.not_imp.mp haccepted
      rw [if_pos (by simp [hstop, hrefused])]
      exact .inr ⟨hstop, by simpa using hrefused, _, _, rfl, rfl⟩

/-- After a stage has been executed that cannot be validated the run fails, unless it is not to be
validated. -/
theorem runFrom_cases_of_error
    (hexecute : attempted (stage.execute context) (noted (running (done + 1) total stage) w) =
      (.ok next, between))
    (hfailure : stage.validate (noted (finished stage) between) next = .error failure) :
    (validation = .none ∧ ∃ log,
      attempted (runFrom validation total done (stage :: stages) context) w =
        attempted (runFrom validation total (done + 1) stages next) { between with log }) ∨
      (validation ≠ .none ∧ ∃ log,
        attempted (runFrom validation total done (stage :: stages) context) w =
          (.error failure, { between with log })) := by
  rw [attempted_runFrom_cons, attempted_execute, hexecute]
  dsimp only
  by_cases hnone : validation = .none
  · subst hnone
    exact .inl ⟨rfl, _, rfl⟩
  · rw [attempted_bind, attempted_checked hnone, attempted_validate, hfailure]
    exact .inr ⟨hnone, _, rfl⟩

theorem advances_or_halts (h : KeepsLog stage) (context : Context) (w : Workspace) :
    (∃ lines next after, Advances validation stage context w lines next after) ∨
      ∃ lines failure after, Halts validation stage context w lines failure after := by
  obtain ⟨own, hown⟩ := h context w
  cases hrun : attempted (stage.execute context) w with
  | mk result after =>
  rw [hrun] at hown
  cases result with
  | error failure => exact .inr ⟨_, _, _, .execution hrun hown⟩
  | ok next =>
      have hexecuted : Executes stage context w own next after := ⟨hrun, hown⟩
      by_cases hnone : validation = .none
      · exact .inl ⟨_, _, _, .unvalidated hnone hexecuted⟩
      · cases hverdict : stage.validate (noted (finished stage) after) next with
        | error failure => exact .inr ⟨_, _, _, .validation hnone hexecuted hverdict⟩
        | ok verdict =>
            by_cases haccepted : validation = .stopOnError → verdict.passed = true
            · exact .inl ⟨_, _, _, .validated hnone hexecuted hverdict haccepted⟩
            · obtain ⟨hstop, hrefused⟩ := Classical.not_imp.mp haccepted
              exact .inr ⟨_, _, _, .verdict hstop hexecuted hverdict (by simpa using hrefused)⟩

theorem Course.attempted_runFrom
    (h : Course validation total done stages context w lines last after)
    (rest : List Stage) :
    attempted (runFrom validation total done (stages ++ rest) context) w =
      attempted (runFrom validation total (done + stages.length) rest last) after := by
  induction h with
  | done number context w => rfl
  | stage first others ih =>
      rw [List.cons_append, attempted_runFrom_of_advances first, ih, List.length_cons,
        Nat.add_right_comm,
        Nat.add_assoc]

/-- Stages let a run go on up to the end, or up to the first one that stops it. -/
theorem course_or_halts (stages : List Stage) (h : ∀ stage ∈ stages, KeepsLog stage) (done : Nat)
    (context : Context) (w : Workspace) :
    (∃ lines last after, Course validation total done stages context w lines last after) ∨
      ∃ front stage rest lines last between more failure after,
        stages = front ++ stage :: rest ∧
          Course validation total done front context w lines last between ∧
          Halts validation stage last
            (noted (running (done + front.length + 1) total stage) between) more failure after := by
  induction stages generalizing done context w with
  | nil => exact .inl ⟨[], context, w, .done done context w⟩
  | cons stage rest ih =>
      obtain ⟨hstage, hrest⟩ := List.forall_mem_cons.mp h
      rcases advances_or_halts hstage context (noted (running (done + 1) total stage) w) with
        ⟨lines, next, between, hadvances⟩ | ⟨lines, failure, after, hhalts⟩
      · rcases ih hrest (done + 1) next between with
          ⟨more, last, after, hcourse⟩ |
          ⟨front, stopping, others, more, last, left, end', failure, after, rfl, hcourse, hhalts⟩
        · exact .inl ⟨_, last, after, .stage hadvances hcourse⟩
        · refine .inr ⟨stage :: front, stopping, others, _, last, left, end', failure, after, rfl,
            .stage hadvances hcourse, ?_⟩
          rw [List.length_cons, ← Nat.add_assoc, Nat.add_right_comm done]
          exact hhalts
      · exact .inr ⟨[], stage, rest, [], context, w, lines, failure, after, rfl,
          .done done context w, hhalts⟩

theorem attempted_run_eq [Encoding] (input output : Path) (w : Workspace) :
    attempted (run validation stages input output) w =
      match attempted (runFrom validation stages.length 0 stages { input, output })
        (noted (started stages.length input) w) with
      | (.ok context, after) => (.ok context.toOutput, noted (completed context.toOutput) after)
      | (.error failure, after) => (.error failure, after) := by
  unfold run
  dsimp only
  rw [attempted_bind, attempted_info]
  dsimp only
  rw [attempted_bind]
  rw [show noted { level := .info, message :=
    s!"Starting pipeline with {stages.length} stages for {input.shown}" } w =
    noted (started stages.length input) w from rfl]
  rcases attempted (runFrom validation stages.length 0 stages { input, output })
    (noted (started stages.length input) w) with ⟨failure | context, after⟩
  · rfl
  · rfl

theorem Course.attempted_run [Encoding] {input output : Path}
    (h : Course validation stages.length 0 stages { input, output }
      (noted (started stages.length input) w)
      lines last after) :
    attempted (run validation stages input output) w =
      (.ok last.toOutput, noted (completed last.toOutput) after) := by
  have hrun := h.attempted_runFrom []
  rw [List.append_nil] at hrun
  rw [attempted_run_eq, hrun]
  rfl

theorem Halts.attempted_run [Encoding] {input output : Path} {front rest : List Stage} {more : Log}
    (hfront : Course validation total 0 front { input, output }
      (noted (started total input) w) lines last
      between)
    (htotal : total = (front ++ stage :: rest).length)
    (h : Halts validation stage last
      (noted (running (front.length + 1) total stage) between) more failure
      after) :
    attempted (run validation (front ++ stage :: rest) input output) w =
      (.error failure, after) := by
  subst htotal
  have hhalts := @attempted_runFrom_of_halts _ _ rest _ _ _ _ _ _ _ h
  rw [attempted_run_eq, hfront.attempted_runFrom, Nat.zero_add, hhalts]

/-- A run goes through the stages up to the first one that stops it. If there is none it gives the
output of the last context, which is good if all verdicts in it are. If there is one the run fails
for its reason, and what the later stages are does not matter. The log tells all of it and nothing
else. -/
theorem run_up_to_first_halt [Encoding] (validation : Validation) (stages : List Stage)
    (input output : Path)
    (w : Workspace) (hlog : ∀ stage ∈ stages, KeepsLog stage) :
    (∃ lines context after,
      Course validation stages.length 0 stages { input, output }
        (noted (started stages.length input) w)
        lines context after ∧
      attempted (run validation stages input output) w =
        (.ok context.toOutput, noted (completed context.toOutput) after) ∧
      (noted (completed context.toOutput) after).log =
        w.log ++ started stages.length input :: lines ++ [completed context.toOutput] ∧
      (context.toOutput.passed = true ↔ ∀ verdict ∈ context.verdicts, verdict.passed = true)) ∨
    ∃ front stage rest lines context between more failure after,
      stages = front ++ stage :: rest ∧
      Course validation stages.length 0 front { input, output }
        (noted (started stages.length input) w)
        lines context between ∧
      Halts validation stage context
        (noted (running (front.length + 1) stages.length stage) between) more
        failure after ∧
      after.log = w.log ++ started stages.length input :: lines ++
        running (front.length + 1) stages.length stage :: more ∧
      ∀ others : List Stage, others.length = rest.length →
        attempted (run validation (front ++ stage :: others) input output) w =
          (.error failure, after) := by
  rcases course_or_halts stages hlog 0 { input, output }
    (noted (started stages.length input) w) with
    ⟨lines, context, after, hcourse⟩ |
    ⟨front, stage, rest, lines, context, between, more, failure, after, hstages, hcourse, hhalts⟩
  · refine .inl ⟨lines, context, after, hcourse, hcourse.attempted_run, ?_, ?_⟩
    · simp [noted, hcourse.log]
    · simp [Context.toOutput]
  · rw [Nat.zero_add] at hhalts
    refine .inr ⟨front, stage, rest, lines, context, between, more, failure, after, hstages,
      hcourse, hhalts,
      ?_, ?_⟩
    · simp [hhalts.log, noted, hcourse.log]
    · intro others hothers
      exact hhalts.attempted_run hcourse (by simp [hstages, hothers])

/-- A stage that leaves the context as it is. -/
def unchanging (name : String) (passed : Bool) : Stage :=
  { name
    execute := pure
    validate := fun _ _ => .ok { stage := name, passed, message := "looked at" } }

theorem keepsLog_unchanging (name : String) (passed : Bool) : KeepsLog (unchanging name passed) :=
  fun _ _ => ⟨[], by simp [unchanging]⟩

theorem unchanging_stopped :
    (∀ stage ∈ [unchanging "first" true, unchanging "second" false, unchanging "third" true],
      KeepsLog stage) ∧
      ∃ front stage rest failure after,
        [unchanging "first" true, unchanging "second" false, unchanging "third" true] =
          front ++ stage :: rest ∧
        ∀ others : List Stage, others.length = rest.length →
          attempted (run .stopOnError (front ++ stage :: others) ⟨"p"⟩ ⟨"out"⟩)
            { files := .empty } =
            (.error failure, after) := by
  have hlog :
    ∀ stage ∈ [unchanging "first" true, unchanging "second" false, unchanging "third" true],
      KeepsLog stage := by
    simp [keepsLog_unchanging]
  refine ⟨hlog, ?_⟩
  rcases run_up_to_first_halt .stopOnError _ ⟨"p"⟩ ⟨"out"⟩ { files := .empty } hlog with
    ⟨_, context, _, _, hrun, -⟩ | ⟨front, stage, rest, _, _, _, _, failure, after,
      hstages, -, -, -, hrun⟩
  · have hfails : (attempted (run .stopOnError [unchanging "first" true, unchanging "second" false,
        unchanging "third" true] ⟨"p"⟩ ⟨"out"⟩) { files := .empty }).1.isOk = false := rfl
    rw [hrun] at hfails
    cases hfails
  · exact ⟨front, stage, rest, failure, after, hstages, hrun⟩

end Cythonizer.Proofs.Pipeline.Runner
