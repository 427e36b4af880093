import Cythonizer.Compiler.Basic
import Cythonizer.Outline.Reading
import Cythonizer.Outline.Rendering
import Cythonizer.Pipeline.Coding
import Cythonizer.Pipeline.Runner
import Cythonizer.Project.Sources

namespace Cythonizer.Pipeline.Optimization

open Cythonizer.Compiler.Basic
open Cythonizer.Compiler.Program
open Cythonizer.Outline.Reading
open Cythonizer.Outline.Rendering
open Cythonizer.Outline.Conversion
open Cythonizer.Path.Basic
open Cythonizer.Pipeline.Context
open Cythonizer.Pipeline.Runner
open Cythonizer.Problem.Basic
open Cythonizer.Project.Sources
open Cythonizer.Settings.Basic
open Cythonizer.Source.Fault
open Cythonizer.Workspace.Basic

def problemOf (source : Path) : Fault → Problem
  | .syntaxError position => .syntaxError source position
  | .incomplete defect => .conversion source defect.message

def transform [Locator] (conversion : ConversionSettings)
    (compiler : CompilerSettings) (source : Path)
    (text : String) : Except Problem (String × Counts) :=
  match read text.toList with
  | .ok outline => .ok (emit compiler (convert conversion outline), counts conversion outline)
  | .error fault => .error (problemOf source fault)

def transformFile [Locator] (settings : Settings) (source : Path) :
    Attempt Problem (String × Counts) := do
  let text ← onPath source (readText source)
  match transform settings.conversion settings.compiler source text with
  | .ok result => return result
  | .error problem => throw problem

/-- Convert and compile a file. Whatever fails becomes a part of the outcome. -/
def optimizeFile [Encoding] [Locator] (settings : Settings) (compiler : Compiler) (source : Path) :
    Action Outcome := do
  info ("Processing file: " ++ source.shown)
  match ← (transformFile settings source).run with
  | .error problem =>
    report ("Error processing file " ++ source.shown) problem.failure
    return .skipped source problem.message
  | .ok (emitted, counts) =>
    debug ("Generated Cython code for " ++ source.shown ++ ":\n" ++ emitted)
    match ← (compiler.compile source emitted).run with
    | .ok file =>
      info ("Successfully compiled " ++ file.shown)
      return .optimized source emitted true counts
    | .error problem =>
      report ("Compilation failed for " ++ source.shown) problem.failure
      return .optimized source emitted false counts

/-- The sources of the project without those in its output directory. -/
def walk [Encoding] (settings : Settings) (context : Context) (w : Workspace) :
    List (Except Failure Path) :=
  let exclusions : Exclusions := { names := settings.source.exclude }
  sources (exclusions.excludeDirectory w.files w.here context.output) w.files w.here context.input

/-- Optimize files one after another. What cannot be read is counted. -/
def optimizeAll [Encoding] [Locator] (settings : Settings) (compiler : Compiler) :
    List (Except Failure Path) → Context → Nat → Action (Context × Nat)
  | [], context, errors => return (context, errors)
  | .error failure :: rest, context, errors => do
    report "Skipping unreadable directory entry" failure
    optimizeAll settings compiler rest context (errors + 1)
  | .ok source :: rest, context, errors => do
    let outcome ← optimizeFile settings compiler source
    optimizeAll settings compiler rest (context.record outcome) errors

/-- Optimize the project. Without a compiler the one of the settings is looked for. -/
def optimize [Encoding] [Locator] [Tools] (settings : Settings) (compiler : Option Compiler)
    (context : Context) :
    Action Context := do
  info ("Optimizing Python sources in " ++ context.input.shown)
  let compiler ←
    match compiler with
    | some compiler => pure compiler
    | none => do
      let detected ← detect settings.compiler
      pure detected.toCompiler
  let walked := walk settings context (← get)
  let (after, errors) ← optimizeAll settings compiler walked context 0
  let optimized := after.outcomes.countP Outcome.isOptimized
  let compiled := after.outcomes.countP Outcome.isCompiled
  let all := after.outcomes.length
  info s!"Optimized {optimized} of {all} files ({compiled} compiled with {compiler.name})"
  return (((after.note "files_walked" (Json.Value.ofNat all)).note
    "walk_errors" (Json.Value.ofNat errors)).note
    "compiler" (.string compiler.name)).note
    "rewrite_stats" (Coding.encodeCounts after.counts)

def skippedValue? : Outcome → Option Json.Value.Value
  | .skipped source reason =>
    some (Json.Value.object [("reason", .string reason), ("source", .string source.text)])
  | .optimized _ _ _ _ => none

/-- Good if no file was skipped. -/
def verdict (context : Context) : Verdict :=
  let skipped := context.outcomes.filterMap skippedValue?
  let all := context.outcomes.length
  let optimized := all - skipped.length
  { stage := "Optimization"
    passed := skipped.isEmpty
    message := s!"{optimized} of {all} files optimized"
    details :=
      if skipped.isEmpty then none else some (Json.Value.object [("skipped", .array skipped)]) }

def isTold [Encoding] : Outcome → Bool
  | .skipped source _ => source.isProper
  | .optimized _ _ _ _ => true

/-- The verdict, unless a file was skipped whose path is no text. The paths of these files are
written as JSON, and a failure to do so is not caught. -/
def validated [Encoding] (context : Context) : Except Failure Verdict :=
  if context.outcomes.all isTold then .ok (verdict context)
  else .error { message := "path contains invalid UTF-8 characters", isPanic := true }

def optimization [Encoding] [Locator] [Tools] (settings : Settings) (compiler : Option Compiler) :
    Stage :=
  { name := "Optimization"
    execute := fun context => ExceptT.lift (optimize settings compiler context)
    validate := fun _ context => validated context }

end Cythonizer.Pipeline.Optimization
