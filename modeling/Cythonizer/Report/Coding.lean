import Cythonizer.Pipeline.Coding
import Cythonizer.Report.Basic

namespace Cythonizer.Report.Coding

open Cythonizer.Json.Value
open Cythonizer.Pipeline.Coding
open Cythonizer.Report.Basic

def statusName : Status → String
  | .compiled => "Compiled"
  | .source => "Source"
  | .skipped => "Skipped"

def encodeLine (line : Line) : Value :=
  object [("path", encodePath line.path), ("status", .string (statusName line.status)),
    ("detail", ofOption .string line.detail)]

def fields (report : Report) : List (String × Value) :=
  [("project_name", .string report.project),
    ("output_path", encodePath report.output),
    ("files_walked", ofNat report.walked),
    ("files_optimized", ofNat report.optimized),
    ("files_compiled", ofNat report.compiled),
    ("files_skipped", ofNat report.skipped),
    ("rewrite_stats", encodeCounts report.counts),
    ("files", .array (report.lines.map encodeLine)),
    ("validation", .array (report.verdicts.map encodeVerdict))]

def encode (generated : String) (report : Report) : Value :=
  object (fields report ++ [("timestamp", .string generated)])

end Cythonizer.Report.Coding
