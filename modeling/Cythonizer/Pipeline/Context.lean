import Cythonizer.Json.Value
import Cythonizer.Outline.Conversion
import Cythonizer.Packaging.Basic

namespace Cythonizer.Pipeline.Context

open Cythonizer.Outline.Conversion
open Cythonizer.Packaging.Basic

inductive Outcome
  | optimized (source : Path) (emitted : String) (compiled : Bool) (counts : Counts)
  | skipped (source : Path) (reason : String)
  deriving DecidableEq, Repr

def Outcome.source : Outcome → Path
  | .optimized source _ _ _ => source
  | .skipped source _ => source

def Outcome.isOptimized : Outcome → Bool
  | .optimized _ _ _ _ => true
  | .skipped _ _ => false

def Outcome.isCompiled : Outcome → Bool
  | .optimized _ _ compiled _ => compiled
  | .skipped _ _ => false

def Outcome.counts : Outcome → Counts
  | .optimized _ _ _ counts => counts
  | .skipped _ _ => {}

def Outcome.record? : Outcome → Option (Path × String)
  | .optimized source emitted _ _ => some (source, emitted)
  | .skipped _ _ => none

structure Verdict where
  stage : String
  passed : Bool
  message : String
  details : Option Json.Value.Value := none

structure Output where
  input : Path
  output : Path
  outcomes : List Outcome
  counts : Counts
  package : Option Summary
  verdicts : List Verdict
  passed : Bool

/-- The emitted text of a source in the place of an earlier one, or at the end. The first spelling
of the path stays. -/
def addRecord (source : Path) (emitted : String) : List (Path × String) → List (Path × String)
  | [] => [(source, emitted)]
  | (s, e) :: rest =>
    if s.same source then (s, emitted) :: rest else (s, e) :: addRecord source emitted rest

/-- Every path once, with the last of its texts, in the order of the first ones. -/
def recordsOf (texts : List (Path × String)) : List (Path × String) :=
  texts.foldl (fun records entry => addRecord entry.1 entry.2 records) []

/-- Put a value in the place of an earlier one of its name, or at the end. -/
def putMetadata (name : String) (value : Json.Value.Value) :
    List (String × Json.Value.Value) → List (String × Json.Value.Value)
  | [] => [(name, value)]
  | (n, v) :: rest => if n = name then (name, value) :: rest else (n, v) ::
    putMetadata name value rest

end Cythonizer.Pipeline.Context

namespace Cythonizer

open Cythonizer.Outline.Conversion
open Cythonizer.Packaging.Basic
open Cythonizer.Pipeline.Context

structure Context where
  input : Path
  output : Path
  outcomes : List Outcome := []
  counts : Counts := {}
  package : Option Summary := none
  verdicts : List Verdict := []
  metadata : List (String × Json.Value.Value) := []

def Context.record (context : Context) (outcome : Outcome) : Context :=
  { context with
    outcomes := context.outcomes ++ [outcome]
    counts := context.counts + outcome.counts }

def Context.records (context : Context) : List (Path × String) :=
  recordsOf (context.outcomes.filterMap Outcome.record?)

def Context.note (context : Context) (name : String) (value : Json.Value.Value) : Context :=
  { context with metadata := putMetadata name value context.metadata }

def Context.toOutput (context : Context) : Output :=
  { input := context.input
    output := context.output
    outcomes := context.outcomes
    counts := context.counts
    package := context.package
    verdicts := context.verdicts
    passed := context.verdicts.all Verdict.passed }

end Cythonizer
