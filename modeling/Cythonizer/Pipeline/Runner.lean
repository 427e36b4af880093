import Cythonizer.Pipeline.Context

/-! Running stages one after another. -/

namespace Cythonizer.Pipeline.Runner

open Cythonizer.Path.Basic
open Cythonizer.Pipeline.Context
open Cythonizer.Problem.Basic
open Cythonizer.Settings.Basic
open Cythonizer.Workspace.Basic

structure Stage where
  name : String
  execute : Context → Attempt Failure Context
  validate : Workspace → Context → Except Failure Verdict
  /-- How many milliseconds it takes to execute it. -/
  duration : Nat := 0

def unvalidated (name : String) : Verdict :=
  { stage := name, passed := true, message := "No validation configured" }

def execute (stage : Stage) (context : Context) : Attempt Failure Context := do
  let failed (failure : Failure) : Failure := failure.within ("Stage '" ++ stage.name ++ "' failed")
  let after ← (stage.execute context).adapt failed
  debug ("Stage '" ++ stage.name ++ "' finished in " ++ toString stage.duration ++ " ms")
  return after

def validate (stopOnError : Bool) (stage : Stage) (context : Context) :
    Attempt Failure Context := do
  match stage.validate (← get) context with
  | .error failure => throw failure
  | .ok verdict =>
    if verdict.passed then
      debug ("Validation passed for stage '" ++ stage.name ++ "': " ++ verdict.message)
    else
      let failed := "Validation failed for stage '" ++ stage.name ++ "'"
      let cause : Failure := { message := verdict.message }
      report failed cause
      if stopOnError then throw (cause.within failed)
    return { context with verdicts := context.verdicts ++ [verdict] }

/-- Run stages, of which `done` have been run before, out of `total`. -/
def runFrom (validation : Validation) (total : Nat) :
    Nat → List Stage → Context → Attempt Failure Context
  | _, [], context => return context
  | done, stage :: rest, context => do
    info s!"Running stage {done + 1}/{total}: {stage.name}"
    let after ← execute stage context
    let next ←
      match validation with
      | .none => pure after
      | .stopOnError => validate true stage after
      | .continueOnError => validate false stage after
    runFrom validation total (done + 1) rest next

def run [Encoding] (validation : Validation) (stages : List Stage) (input output : Path) :
    Attempt Failure Output := do
  let total := stages.length
  info s!"Starting pipeline with {total} stages for {input.shown}"
  let context ← runFrom validation total 0 stages { input, output }
  let result := context.toOutput
  let optimized := result.outcomes.countP Outcome.isOptimized
  let all := result.outcomes.length
  info s!"Pipeline completed: {optimized} of {all} files optimized"
  return result

end Cythonizer.Pipeline.Runner
