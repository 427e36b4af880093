import Cythonizer.Pipeline.Runner

namespace Cythonizer.Pipeline.Packaging

open Cythonizer.Packaging.Basic
open Cythonizer.Path.Basic
open Cythonizer.Pipeline.Context
open Cythonizer.Pipeline.Runner
open Cythonizer.Problem.Basic
open Cythonizer.Settings.Basic
open Cythonizer.Workspace.Basic

def package [Encoding] (settings : PackagingSettings) (context : Context) :
    Attempt Failure Context := do
  let packager : Packager := { project := context.input, output := context.output, settings }
  let failed (problem : Problem) : Failure :=
    problem.failure.within ("Failed to package optimized modules into " ++ context.output.shown)
  let summary ← (packager.package context.records).adapt failed
  let noted := (context.note
    "compiled_artifacts" (Json.Value.ofNat (summary.count .compiled))).note
    "source_fallbacks" (Json.Value.ofNat (summary.count .emitted + summary.count .copyFallback))
  return { noted with package := some summary }

/-- Good if every record has a file in the output directory. -/
def verdict (w : Workspace) (context : Context) : Verdict :=
  let expected := context.records.length
  let files := (context.package.map Summary.files).getD []
  let written := files.countP fun f => FileTree.Access.holds w.files w.here f.output
  let passed := FileTree.Access.isDirectory w.files w.here context.output && written == expected
  { stage := "Packaging"
    passed
    message :=
      if passed then s!"{written} modules packaged"
      else s!"Only {written} of {expected} modules found in output" }

def packaging [Encoding] (settings : PackagingSettings) : Stage :=
  { name := "Packaging"
    execute := package settings
    validate := fun w context => .ok (verdict w context) }

end Cythonizer.Pipeline.Packaging
