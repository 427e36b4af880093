import Cythonizer.CommandLine.Arguments
import Cythonizer.Json.Printer
import Cythonizer.Pipeline.Complete
import Cythonizer.Report.Coding
import Cythonizer.Report.Text
import Cythonizer.Settings.Loading
import Cythonizer.Text.Calendar

namespace Cythonizer.CommandLine.Session

open Cythonizer.CommandLine.Arguments
open Cythonizer.Compiler.Program
open Cythonizer.Log.Basic
open Cythonizer.Pipeline.Complete
open Cythonizer.Pipeline.Context
open Cythonizer.Path.Basic
open Cythonizer.Report.Basic
open Cythonizer.Source.Fault
open Cythonizer.Text.Calendar
open Cythonizer.Workspace.Basic

def name : String := "cyopt"

def version : String := "0.1.0"

/-- A time as the report tells it. -/
structure Stamp where
  plain : String
  precise : String
  deriving DecidableEq, Repr

/-- The stamp of a time since the start of 1970. -/
def Stamp.ofTime (seconds nanoseconds : Nat) : Stamp :=
  let date := dateText seconds
  let time := timeText seconds
  { plain := date ++ " " ++ time ++ " UTC"
    precise := date ++ "T" ++ time ++ "." ++ padded 9 nanoseconds ++ "Z" }

structure Ending where
  code : Nat
  /-- What it writes, apart from the log. -/
  lines : List String := []
  /-- Log entries are told in full. -/
  debug : Bool := false
  deriving DecidableEq, Repr

section

variable [Encoding] [Locator] [Tools]

/-- Whether all paths of a report are texts, as they have to be in JSON. -/
def isWritable (report : Report) : Bool :=
  report.output.isProper && report.lines.all fun line => line.path.isProper

/-- Log the report. The result is the status that the program exits with. The report is written as
JSON for debugging only, and a failure to do so ends the program. -/
def logReport (generated : Stamp) (debugging : Bool) (output : Output) : Action Nat := do
  let report := ofOutput (← get) output
  info ("\n" ++ Report.Text.render generated.plain report)
  if isWritable report then
    debug (String.ofList (Json.Printer.pretty 0 (Report.Coding.encode generated.precise report)))
    return 0
  else return if debugging then 1 else 0

def process (generated : Stamp) (settings : Settings) (request : Request) : Action Nat := do
  let target := request.project.join request.output
  match ← (cythonize settings none request.project target).run with
  | .ok output => logReport generated request.debug output
  | .error failure =>
    if failure.isPanic then return 101
    else
      report "Optimization run failed" failure
      return 1

/-- Serve a request. Bad settings end the program before it does anything. -/
def serve (generated : Stamp) (request : Request) : Action Nat := do
  info (name ++ " v" ++ version)
  match ← (Settings.Loading.load request.project).run with
  | .error _ => return 1
  | .ok settings => process generated settings request

end

def helpLines : List String :=
  ["Rewrite a Python project into Cython and package the compiled modules",
    "",
    "Usage: cyopt [OPTIONS] <PROJECT_PATH>",
    "",
    "Arguments:",
    "  <PROJECT_PATH>  Root of the Python project to optimize",
    "",
    "Options:",
    "      --output <OUTPUT>  Output directory; relative paths are resolved against the project root [default: optimized_output]",
    "  -d, --debug            Enable debug output (generated code, full error chains)",
    "  -h, --help             Print help",
    "  -V, --version          Print version"]

def start [Encoding] [Locator] [Tools] (generated : Stamp) : Invocation → Action Ending
  | .run request => do
    return { code := ← serve generated request, debug := request.debug }
  | .version => return { code := 0, lines := [name ++ " " ++ version] }
  | .help => return { code := 0, lines := helpLines }
  | .invalid => return { code := 2 }

/-- A log entry as it is shown. Without debugging the entries of that level are left out. -/
def shown? (debug : Bool) (entry : Entry) : Option String :=
  if debug then some (entry.level.name ++ " " ++ entry.full)
  else if entry.level = .debug then none
  else some (entry.level.name ++ " " ++ entry.brief)

def written (ending : Ending) (log : Log) : List String :=
  ending.lines ++ log.filterMap (shown? ending.debug)

end Cythonizer.CommandLine.Session
