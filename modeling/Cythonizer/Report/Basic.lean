import Cythonizer.Pipeline.Context

namespace Cythonizer.Report.Basic

open Cythonizer.Packaging.Basic
open Cythonizer.Path.Basic
open Cythonizer.Pipeline.Context

inductive Status
  | compiled
  | source
  | skipped
  deriving DecidableEq, Repr

structure Line where
  path : Path
  status : Status
  detail : Option String
  deriving DecidableEq, Repr

def isShipped (package : Option Summary) (source : Path) : Bool :=
  match package with
  | some summary => summary.files.any fun f => f.source.same source && f.kind == .compiled
  | none => false

def lineOf (output : Output) (outcome : Outcome) : Line :=
  let path := (outcome.source.stripPrefix? output.input).getD outcome.source
  match outcome with
  | .optimized source _ compiled _ =>
    if isShipped output.package source then { path, status := .compiled, detail := none }
    else
      { path, status := .source, detail := if compiled then none else some "compilation failed" }
  | .skipped _ reason => { path, status := .skipped, detail := some reason }

end Cythonizer.Report.Basic

namespace Cythonizer

open Cythonizer.Outline.Conversion
open Cythonizer.Pipeline.Context
open Cythonizer.Report.Basic

structure Report where
  project : String
  output : Path
  walked : Nat
  optimized : Nat
  compiled : Nat
  skipped : Nat
  counts : Counts
  lines : List Line
  verdicts : List Verdict

end Cythonizer

namespace Cythonizer.Report.Basic

open Cythonizer.Path.Basic
open Cythonizer.Pipeline.Context

/-- The name of the project: the last name of its canonical path. -/
def projectName [Encoding] (w : Workspace) (input : Path) : String :=
  let path :=
    match FileTree.Access.canonical w.files w.here input with
    | .ok path => path
    | .error _ => input
  (path.fileName?.map shown).getD "project"

def ofOutput [Encoding] (w : Workspace) (output : Output) : Report :=
  let lines := output.outcomes.map (lineOf output)
  let skipped := lines.countP fun line => line.status = .skipped
  { project := projectName w output.input
    output := output.output
    walked := lines.length
    optimized := lines.length - skipped
    compiled := lines.countP fun line => line.status = .compiled
    skipped
    counts := output.counts
    lines
    verdicts := output.verdicts }

end Cythonizer.Report.Basic
