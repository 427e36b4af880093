import Cythonizer.Settings.Basic
import Cythonizer.Toml.Printer
import Cythonizer.Toml.Reader

namespace Cythonizer.Settings.Coding

open Cythonizer.Settings.Basic
open Cythonizer.Toml.Values

/--
The fields of a part of the settings. A table names them, an array has the first of them in order,
and a date has none.
-/
def part? (names : List String) : Value → Option (List Field)
  | .table fields => some fields
  | .array values =>
    if values.length ≤ names.length then some (List.zipWith .field names values) else none
  | .dateTime _ => some []
  | _ => none

def fieldOr {α : Type} (fields : List Field) (name : String) (decode : Value → Option α)
    (default : α) : Option α :=
  match get? fields name with
  | some v => decode v
  | none => some default

def decodeText : Value → Option String
  | .string text => some text
  | _ => none

def decodeFlag : Value → Option Bool
  | .boolean b => some b
  | _ => none

def decodePath (v : Value) : Option Path := do
  return { text := ← decodeText v }

def decodeList {α : Type} (decode : Value → Option α) : Value → Option (List α)
  | .array values => values.mapM decode
  | _ => none

def decodeLevel : Value → Option UInt8
  | .integer n => if 0 ≤ n ∧ n < 256 then some (.ofNat n.toNat) else none
  | _ => none

def Validation.name : Validation → String
  | .stopOnError => "stop_on_error"
  | .continueOnError => "continue_on_error"
  | .none => "none"

def validation? (name : String) : Option Validation :=
  [Validation.stopOnError, .continueOnError, .none].find? fun v => Validation.name v = name

/-- A validation is written as its name, or as a table that has only this name, with nothing in it.
-/
def decodeValidation : Value → Option Validation
  | .string name => validation? name
  | .table [.field name (.array [])] => validation? name
  | .table [.field name (.table [])] => validation? name
  | _ => none

def sourceNames : List String := ["exclude"]

def decodeSource (v : Value) : Option SourceSettings := do
  let fields ← part? sourceNames v
  let d : SourceSettings := {}
  return { exclude := ← fieldOr fields "exclude" (decodeList decodeText) d.exclude }

def conversionNames : List String := ["strict_marker", "parallel_range"]

def decodeConversion (v : Value) : Option ConversionSettings := do
  let fields ← part? conversionNames v
  let d : ConversionSettings := {}
  return {
    strictMarker := ← fieldOr fields "strict_marker" decodeText d.strictMarker
    parallelRange := ← fieldOr fields "parallel_range" decodeText d.parallelRange }

def compilerNames : List String :=
  ["program", "language_level", "boundscheck", "wraparound", "nonecheck", "annotate", "python",
    "numpy_include"]

def decodeCompiler (v : Value) : Option CompilerSettings := do
  let fields ← part? compilerNames v
  let d : CompilerSettings := {}
  return {
    program := ← fieldOr fields "program" decodeText d.program
    languageLevel := ← fieldOr fields "language_level" decodeLevel d.languageLevel
    boundscheck := ← fieldOr fields "boundscheck" decodeFlag d.boundscheck
    wraparound := ← fieldOr fields "wraparound" decodeFlag d.wraparound
    nonecheck := ← fieldOr fields "nonecheck" decodeFlag d.nonecheck
    annotate := ← fieldOr fields "annotate" decodeFlag d.annotate
    python := ← fieldOr fields "python" decodeText d.python
    numpyInclude :=
      ← fieldOr fields "numpy_include" (fun v => (decodePath v).map some) d.numpyInclude }

def packagingNames : List String := ["auxiliary_files", "require_auxiliary_files"]

def decodePackaging (v : Value) : Option PackagingSettings := do
  let fields ← part? packagingNames v
  let d : PackagingSettings := {}
  return {
    auxiliaryFiles := ← fieldOr fields "auxiliary_files" (decodeList decodePath) d.auxiliaryFiles
    requireAuxiliaryFiles :=
      ← fieldOr fields "require_auxiliary_files" decodeFlag d.requireAuxiliaryFiles }

def pipelineNames : List String := ["validation"]

def decodePipeline (v : Value) : Option PipelineSettings := do
  let fields ← part? pipelineNames v
  let d : PipelineSettings := {}
  return { validation := ← fieldOr fields "validation" decodeValidation d.validation }

def decode (fields : List Field) : Option Settings := do
  let d : Settings := {}
  return {
    version := ← fieldOr fields "version" decodeText d.version
    source := ← fieldOr fields "source" decodeSource d.source
    conversion := ← fieldOr fields "rewrite" decodeConversion d.conversion
    compiler := ← fieldOr fields "compiler" decodeCompiler d.compiler
    packaging := ← fieldOr fields "packaging" decodePackaging d.packaging
    pipeline := ← fieldOr fields "pipeline" decodePipeline d.pipeline }

def encodePath (path : Path) : Value :=
  .string path.text

/-- All fields of settings but one without a value. -/
def encode (s : Settings) : List Field :=
  [.field "version" (.string s.version),
    .field "source" (.table [.field "exclude" (.array (s.source.exclude.map .string))]),
    .field "rewrite" (.table
      [.field "strict_marker" (.string s.conversion.strictMarker),
        .field "parallel_range" (.string s.conversion.parallelRange)]),
    .field "compiler" (.table
      ([.field "program" (.string s.compiler.program),
        .field "language_level" (.integer s.compiler.languageLevel.toNat),
        .field "boundscheck" (.boolean s.compiler.boundscheck),
        .field "wraparound" (.boolean s.compiler.wraparound),
        .field "nonecheck" (.boolean s.compiler.nonecheck),
        .field "annotate" (.boolean s.compiler.annotate),
        .field "python" (.string s.compiler.python)] ++
        (s.compiler.numpyInclude.map fun p => .field "numpy_include" (encodePath p)).toList)),
    .field "packaging" (.table
      [.field "auxiliary_files" (.array (s.packaging.auxiliaryFiles.map encodePath)),
        .field "require_auxiliary_files" (.boolean s.packaging.requireAuxiliaryFiles)]),
    .field "pipeline" (.table
      [.field "validation" (.string (Validation.name s.pipeline.validation))])]

inductive Fault
  | malformed
  | unexpectedValue
  deriving DecidableEq, Repr

def Fault.message : Fault → String
  | .malformed => "the text is no TOML document"
  | .unexpectedValue => "a setting has a value of another kind"

def read (text : String) : Except Fault Settings :=
  match Toml.Reader.read text.toList with
  | none => .error .malformed
  | some fields =>
    match decode fields with
    | none => .error .unexpectedValue
    | some settings => .ok settings

def print (s : Settings) : String :=
  String.ofList (Toml.Printer.document (encode s))

end Cythonizer.Settings.Coding
