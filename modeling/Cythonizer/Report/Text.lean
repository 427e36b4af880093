import Cythonizer.Report.Basic

namespace Cythonizer.Report.Text

open Cythonizer.Path.Basic
open Cythonizer.Pipeline.Context
open Cythonizer.Report.Basic

def Status.word : Status → String
  | .compiled => "compiled"
  | .source => "source"
  | .skipped => "skipped"

def pad (width : Nat) (text : String) : String :=
  text ++ String.ofList (List.replicate (width - text.length) ' ')

def rule (c : Char) : String :=
  String.ofList (List.replicate 60 c)

def heading (title : String) : String :=
  title ++ "\n" ++ rule '-' ++ "\n"

def summary [Encoding] (report : Report) : String :=
  heading "SUMMARY" ++
    s!"Files walked:    {report.walked}\n" ++
    s!"Files optimized: {report.optimized}\n" ++
    s!"Files compiled:  {report.compiled}\n" ++
    s!"Files skipped:   {report.skipped}\n" ++
    s!"Functions rewritten: {report.counts.functions} ({report.counts.strictFunctions} cdef)\n" ++
    s!"Parameters renamed:  {report.counts.renamedParameters}\n" ++
    s!"Parallel loops:      {report.counts.parallelLoops}\n" ++
    s!"Output: {report.output.shown}\n\n"

def fileLine [Encoding] (line : Line) : String :=
  let detail :=
    match line.detail with
    | some text => "  (" ++ text ++ ")"
    | none => ""
  pad 9 (Status.word line.status) ++ " " ++ line.path.shown ++ detail ++ "\n"

def verdictLine (verdict : Verdict) : String :=
  pad 13 verdict.stage ++ " " ++ pad 4 (if verdict.passed then "ok" else "FAIL") ++ "  " ++
    verdict.message ++ "\n"

/-- The report with the time of its making. A part without lines is left out. -/
def render [Encoding] (generated : String) (report : Report) : String :=
  let files :=
    if report.lines.isEmpty then ""
    else heading "FILES" ++ String.join (report.lines.map fileLine) ++ "\n"
  let validation :=
    if report.verdicts.isEmpty then ""
    else heading "VALIDATION" ++ String.join (report.verdicts.map verdictLine)
  "OPTIMIZATION REPORT: " ++ report.project ++ "\nGenerated: " ++ generated ++ "\n" ++ rule '=' ++
    "\n\n" ++ summary report ++ files ++ validation

end Cythonizer.Report.Text
