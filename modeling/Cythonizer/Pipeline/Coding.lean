import Cythonizer.Json.Value
import Cythonizer.Pipeline.Context

namespace Cythonizer.Pipeline.Coding

open Cythonizer.Json.Value
open Cythonizer.Outline.Conversion
open Cythonizer.Packaging.Basic
open Cythonizer.Pipeline.Context

def encodePath (path : Path) : Value := .string path.text

def decodePath (v : Value) : Option Path := do
  return { text := ← v.string? }

def encodeCounts (counts : Counts) : Value :=
  object [("functions", ofNat counts.functions.toNat),
    ("strict_functions", ofNat counts.strictFunctions.toNat),
    ("renamed_params", ofNat counts.renamedParameters.toNat),
    ("parallel_loops", ofNat counts.parallelLoops.toNat)]

/-- A natural number that fits into a counter. -/
def decodeCounter (v : Value) : Option UInt64 := do
  let n ← v.nat?
  if n < UInt64.size then return .ofNat n else none

def decodeCounts (v : Value) : Option Counts := do
  return {
    functions := ← decodeCounter (← v.get? "functions")
    strictFunctions := ← decodeCounter (← v.get? "strict_functions")
    renamedParameters := ← decodeCounter (← v.get? "renamed_params")
    parallelLoops := ← decodeCounter (← v.get? "parallel_loops") }

def encodeOutcome : Outcome → Value
  | .optimized source emitted compiled counts =>
    object [("Optimized", object [("source", encodePath source), ("emitted", .string emitted),
      ("compiled", .boolean compiled), ("stats", encodeCounts counts)])]
  | .skipped source reason =>
    object [("Skipped", object [("source", encodePath source), ("reason", .string reason)])]

def decodeOutcome (v : Value) : Option Outcome :=
  match v with
  | .object [.field "Optimized" fields] => do
    return .optimized (← decodePath (← fields.get? "source")) (← (← fields.get? "emitted").string?)
      (← (← fields.get? "compiled").boolean?) (← decodeCounts (← fields.get? "stats"))
  | .object [.field "Skipped" fields] => do
    return .skipped (← decodePath (← fields.get? "source")) (← (← fields.get? "reason").string?)
  | _ => none

def kindName : Kind → String
  | .compiled => "Compiled"
  | .emitted => "Emitted"
  | .copyFallback => "CopyFallback"

def decodeKind : Value → Option Kind
  | .string "Compiled" => some .compiled
  | .string "Emitted" => some .emitted
  | .string "CopyFallback" => some .copyFallback
  | _ => none

def encodeFile (file : PackagedFile) : Value :=
  object [("source", encodePath file.source), ("output", encodePath file.output),
    ("kind", .string (kindName file.kind))]

def decodeFile (v : Value) : Option PackagedFile := do
  return {
    source := ← decodePath (← v.get? "source")
    output := ← decodePath (← v.get? "output")
    kind := ← decodeKind (← v.get? "kind") }

def decodeList {α : Type} (decode : Value → Option α) (v : Value) : Option (List α) := do
  (← v.elements?).mapM decode

def encodeSummary (summary : Summary) : Value :=
  object [("files", .array (summary.files.map encodeFile)),
    ("auxiliary_copied", .array (summary.auxiliaryCopied.map encodePath)),
    ("auxiliary_missing", .array (summary.auxiliaryMissing.map encodePath))]

def decodeSummary (v : Value) : Option Summary := do
  return {
    files := ← decodeList decodeFile (← v.get? "files")
    auxiliaryCopied := ← decodeList decodePath (← v.get? "auxiliary_copied")
    auxiliaryMissing := ← decodeList decodePath (← v.get? "auxiliary_missing") }

def encodeVerdict (verdict : Verdict) : Value :=
  object [("stage", .string verdict.stage), ("passed", .boolean verdict.passed),
    ("message", .string verdict.message), ("details", verdict.details.getD .null)]

def decodeOption {α : Type} (decode : Value → Option α) : Option Value → Option (Option α)
  | none => some none
  | some .null => some none
  | some v => (decode v).map some

def decodeVerdict (v : Value) : Option Verdict := do
  return {
    stage := ← (← v.get? "stage").string?
    passed := ← (← v.get? "passed").boolean?
    message := ← (← v.get? "message").string?
    details := ← decodeOption some (v.get? "details") }

def encodeContext (context : Context) : Value :=
  object [("input_path", encodePath context.input),
    ("output_path", encodePath context.output),
    ("outcomes", .array (context.outcomes.map encodeOutcome)),
    ("rewrite_stats", encodeCounts context.counts),
    ("package", ofOption encodeSummary context.package),
    ("validation_results", .array (context.verdicts.map encodeVerdict)),
    ("metadata", object context.metadata)]

def decodeContext (v : Value) : Option Context := do
  return {
    input := ← decodePath (← v.get? "input_path")
    output := ← decodePath (← v.get? "output_path")
    outcomes := ← decodeList decodeOutcome (← v.get? "outcomes")
    counts := ← decodeCounts (← v.get? "rewrite_stats")
    package := ← decodeOption decodeSummary (v.get? "package")
    verdicts := ← decodeList decodeVerdict (← v.get? "validation_results")
    metadata := (← (← v.get? "metadata").fields?).map fun f => (f.name, f.value) }

def encodeOutput (output : Output) : Value :=
  object [("input_path", encodePath output.input),
    ("output_path", encodePath output.output),
    ("outcomes", .array (output.outcomes.map encodeOutcome)),
    ("rewrite_stats", encodeCounts output.counts),
    ("package", ofOption encodeSummary output.package),
    ("validation_results", .array (output.verdicts.map encodeVerdict)),
    ("validation_passed", .boolean output.passed)]

def decodeOutput (v : Value) : Option Output := do
  return {
    input := ← decodePath (← v.get? "input_path")
    output := ← decodePath (← v.get? "output_path")
    outcomes := ← decodeList decodeOutcome (← v.get? "outcomes")
    counts := ← decodeCounts (← v.get? "rewrite_stats")
    package := ← decodeOption decodeSummary (v.get? "package")
    verdicts := ← decodeList decodeVerdict (← v.get? "validation_results")
    passed := ← (← v.get? "validation_passed").boolean? }

end Cythonizer.Pipeline.Coding
