import Cythonizer.Path.Basic

namespace Cythonizer.CommandLine.Arguments

/-- What the program is asked to do with a project. -/
structure Request where
  project : Path
  /-- A relative path starts from the project. -/
  output : Path := { text := "optimized_output" }
  debug : Bool := false
  deriving DecidableEq, Repr

inductive Invocation
  | run (request : Request)
  | help
  | version
  | invalid
  deriving DecidableEq, Repr

structure Draft where
  project : Option String := none
  output : Option String := none
  debug : Bool := false
  deriving DecidableEq, Repr

/-- The project has to be named. -/
def Draft.finish (d : Draft) : Invocation :=
  match d.project with
  | some project =>
    .run {
      project := { text := project }
      output := { text := d.output.getD "optimized_output" }
      debug := d.debug }
  | none => .invalid

/-- Set a path once, to a text that is not empty. -/
def setOnce (before : Option String) (text : String) : Option String :=
  if before.isSome ∨ text.isEmpty then none else some text

def Draft.setProject (d : Draft) (text : String) : Option Draft :=
  (setOnce d.project text).map fun t => { d with project := some t }

def Draft.setOutput (d : Draft) (text : String) : Option Draft :=
  (setOnce d.output text).map fun t => { d with output := some t }

def Draft.setDebug (d : Draft) : Option Draft :=
  if d.debug then none else some { d with debug := true }

/-- Whether an argument looks like an option. A lone dash does not. -/
def looksLikeOption (argument : String) : Bool :=
  argument.startsWith "-" && argument != "-"

/-- Options without a value: change the draft, or say what to do at once. -/
inductive Step
  | next (draft : Draft)
  | done (invocation : Invocation)

def stepOf : Option Draft → Step
  | some d => .next d
  | none => .done .invalid

def shortOption (d : Draft) : Char → Step
  | 'd' => stepOf d.setDebug
  | 'h' => .done .help
  | 'V' => .done .version
  | _ => .done .invalid

def shortOptions (d : Draft) : List Char → Step
  | [] => .next d
  | c :: rest =>
    match shortOption d c with
    | .next d => shortOptions d rest
    | .done invocation => .done invocation

/-- An option with its name behind two dashes, and its value if it is in the same argument. -/
def longOption (d : Draft) (argument : String) : Step :=
  match argument with
  | "--debug" => stepOf d.setDebug
  | "--help" => .done .help
  | "--version" => .done .version
  | _ =>
    if "--output=".toList.isPrefixOf argument.toList then
      stepOf (d.setOutput (String.ofList (argument.toList.drop 9)))
    else .done .invalid

/-- An argument that is complete in itself. -/
def step (d : Draft) (argument : String) : Step :=
  match argument.toList with
  | '-' :: '-' :: _ => longOption d argument
  | '-' :: c :: rest => shortOptions d (c :: rest)
  | _ => stepOf (d.setProject argument)

/-- Arguments behind two lone dashes, none of which is an option. -/
def operands (d : Draft) : List String → Invocation
  | [] => d.finish
  | argument :: rest =>
    match d.setProject argument with
    | some d => operands d rest
    | none => .invalid

/-- Read arguments from left to right. The first that settles what to do ends the reading. -/
def readFrom (d : Draft) : List String → Invocation
  | [] => d.finish
  | "--" :: rest => operands d rest
  | "--output" :: [] => .invalid
  | "--output" :: value :: rest =>
    if looksLikeOption value then .invalid
    else
      match d.setOutput value with
      | some d => readFrom d rest
      | none => .invalid
  | argument :: rest =>
    match step d argument with
    | .next d => readFrom d rest
    | .done invocation => invocation

def read (arguments : List String) : Invocation :=
  readFrom {} arguments

end Cythonizer.CommandLine.Arguments
