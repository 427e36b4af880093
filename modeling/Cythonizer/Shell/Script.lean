import Cythonizer.FileTree.Changes
import Cythonizer.Shell.Commands

/-! Running a shell script. A script uses the commands of the shell itself and no other programs. -/

namespace Cythonizer.Shell.Script

open Cythonizer.FileTree.Basic
open Cythonizer.FileTree.Changes
open Cythonizer.Path.Basic
open Cythonizer.Shell.Commands
open Cythonizer.Shell.Tokens

inductive Ending
  | exited (status : Nat)
  | killed
  deriving DecidableEq, Repr

structure State where
  files : FileTree
  here : Location
  /-- The path that the script was called by. -/
  script : String
  arguments : List String
  environment : List (String × String)
  status : Nat := 0
  stdout : String := ""
  stderr : String := ""
  ended : Option Ending := none
  /-- What has been written, the first file first. -/
  changes : List Change := []

/-- The number that a script takes for its own process. -/
def processNumber : String := "1"

def valueOf (s : State) (name : String) : String :=
  match name with
  | "@" => " ".intercalate s.arguments
  | "*" => " ".intercalate s.arguments
  | "#" => toString s.arguments.length
  | "?" => toString s.status
  | "$" => processNumber
  | "0" => s.script
  | _ =>
    match name.toNat? with
    | some n => s.arguments.getD (n - 1) ""
    | none => (s.environment.lookup name).getD ""

/-- Fields that are finished, newest first, and the field that still grows. -/
structure Fields where
  done : List String := []
  growing : Option String := none

def Fields.grow (fields : Fields) (text : String) : Fields :=
  { fields with growing := some (fields.growing.getD "" ++ text) }

def Fields.cut (fields : Fields) : Fields :=
  match fields.growing with
  | some field => { done := field :: fields.done }
  | none => fields

def Fields.toList (fields : Fields) : List String :=
  fields.cut.done.reverse

def isSpace (c : Char) : Bool :=
  c == ' ' || c == '\t' || c == '\n'

/-- Grow by text whose white space ends fields. -/
def Fields.growSplit (fields : Fields) (text : List Char) : Fields :=
  text.foldl (fun fields c => if isSpace c then fields.cut else fields.grow (String.singleton c))
    fields

def Fields.growPart (s : State) (fields : Fields) : Part → Fields
  | .text text quoted =>
    if text.isEmpty && !quoted then fields else fields.grow (String.ofList text)
  | .parameter ['@'] true =>
    match s.arguments with
    | [] => fields
    | first :: rest => rest.foldl (fun fields a => fields.cut.grow a) (fields.grow first)
  | .parameter name quoted =>
    let value := valueOf s (String.ofList name)
    if quoted then fields.grow value else fields.growSplit value.toList

def expand (s : State) (w : Word) : List String :=
  if w = [.text [] true, .parameter ['@'] true] then s.arguments
  else Fields.toList (w.foldl (Fields.growPart s) {})

/-- The value of a word where no fields are made. -/
def expandWhole (s : State) (w : Word) : String :=
  " ".intercalate (expand s w)

/-- The name and the value of a word that sets a variable. -/
def assignment? : Word → Option (List Char × Word)
  | .text ['='] false :: value => some ([], value)
  | .text [c] false :: rest =>
    if isNameRest c then (assignment? rest).map fun (name, value) => (c :: name, value) else none
  | _ => none

inductive Sink
  | stdout
  | stderr
  | file (path : Path)

structure Sinks where
  first : Sink := .stdout
  second : Sink := .stderr

def Sinks.select (sinks : Sinks) (descriptor : Nat) : Sink :=
  if descriptor = 2 then sinks.second else sinks.first

def Sinks.redirect (sinks : Sinks) (descriptor : Nat) (sink : Sink) : Sinks :=
  if descriptor = 2 then { sinks with second := sink } else { sinks with first := sink }

def State.write (s : State) (path : Path) (content : ByteArray) : Except FileError State := do
  let files ← FileTree.Access.write s.files s.here path content
  return { s with files, changes := s.changes ++ [.file path content] }

def State.append (s : State) (path : Path) (text : String) : Except FileError State :=
  let before :=
    match FileTree.Access.find s.files s.here path with
    | .ok (_, .file content _) => content
    | _ => ByteArray.empty
  s.write path (before ++ text.toUTF8)

def State.print (s : State) (sink : Sink) (text : String) : State :=
  match sink with
  | .stdout => { s with stdout := s.stdout ++ text }
  | .stderr => { s with stderr := s.stderr ++ text }
  | .file path =>
    match s.append path text with
    | .ok after => after
    | .error _ => { s with status := 1 }

/-- Set up the outputs of a command. A file is emptied unless output is added to it. -/
def redirectAll (s : State) (sinks : Sinks) : List Redirection → Except FileError (State × Sinks)
  | [] => .ok (s, sinks)
  | .duplicate descriptor target :: rest =>
    redirectAll s (sinks.redirect descriptor (sinks.select target)) rest
  | .file descriptor appending name :: rest => do
    let path : Path := { text := expandWhole s name }
    let opened ← if appending then s.append path "" else s.write path ByteArray.empty
    redirectAll opened (sinks.redirect descriptor (.file path)) rest

/-- Whether a condition of `test` holds. -/
def holds (s : State) : List String → Bool
  | [] => false
  | "!" :: rest => !holds s rest
  | [a] => a != ""
  | ["-n", a] => a != ""
  | ["-z", a] => a == ""
  | ["-e", a] => FileTree.Access.holds s.files s.here ⟨a⟩
  | ["-f", a] => FileTree.Access.isFile s.files s.here ⟨a⟩
  | ["-d", a] => FileTree.Access.isDirectory s.files s.here ⟨a⟩
  | [a, "=", b] => a == b
  | [a, "!=", b] => a != b
  | [a, "-eq", b] => a.toInt? == b.toInt?
  | [a, "-ne", b] => a.toInt? != b.toInt?
  | [a, "-lt", b] => (a.toInt?.getD 0) < (b.toInt?.getD 0)
  | [a, "-gt", b] => (b.toInt?.getD 0) < (a.toInt?.getD 0)
  | _ => false

def unescape : List Char → List Char
  | '\\' :: 'n' :: rest => '\n' :: unescape rest
  | '\\' :: 't' :: rest => '\t' :: unescape rest
  | '\\' :: 'r' :: rest => '\r' :: unescape rest
  | '\\' :: '\\' :: rest => '\\' :: unescape rest
  | c :: rest => c :: unescape rest
  | [] => []

/-- A format with its `%s` and `%d` filled in, and the arguments that are left. -/
def fill : List Char → List String → List Char × List String
  | '%' :: '%' :: rest, arguments =>
    let (text, left) := fill rest arguments
    ('%' :: text, left)
  | '%' :: c :: rest, arguments =>
    if c = 's' || c = 'd' then
      let (text, left) := fill rest arguments.tail
      ((arguments.headD "").toList ++ text, left)
    else
      let (text, left) := fill rest arguments
      ('%' :: c :: text, left)
  | c :: rest, arguments =>
    let (text, left) := fill rest arguments
    (c :: text, left)
  | [], arguments => ([], arguments)

/-- Fill a format again and again until the arguments are used up. -/
def fillAll (format : List Char) : Nat → List String → List Char
  | 0, _ => []
  | rounds + 1, arguments =>
    let (text, left) := fill format arguments
    if left.isEmpty || left.length = arguments.length then text
    else text ++ fillAll format rounds left

def statusOf (condition : Bool) : Nat :=
  if condition then 0 else 1

def succeed (s : State) : State :=
  { s with status := 0 }

def builtin (s : State) (sinks : Sinks) (name : String) (arguments : List String) : State :=
  match name with
  | "echo" =>
    let (line, fields) :=
      match arguments with
      | "-n" :: rest => ("", rest)
      | _ => ("\n", arguments)
    let text := String.ofList (unescape (" ".intercalate fields).toList)
    (succeed s).print sinks.first (text ++ line)
  | "printf" =>
    match arguments with
    | [] => { s with status := 2 }
    | format :: values =>
      let text := fillAll (unescape format.toList) (values.length + 1) values
      (succeed s).print sinks.first (String.ofList text)
  | "exit" =>
    let status := (arguments.head?.bind String.toNat?).getD s.status % 256
    { s with status, ended := some (.exited status) }
  | "kill" =>
    if arguments.getLast? = some processNumber then { s with ended := some .killed }
    else { s with status := 1 }
  | "true" => succeed s
  | ":" => succeed s
  | "false" => { s with status := 1 }
  | "test" => { s with status := statusOf (holds s arguments) }
  | "[" => { s with status := statusOf (holds s arguments.dropLast) }
  | "shift" => { succeed s with arguments := s.arguments.drop 1 }
  | _ => { s with status := 127 }.print sinks.second (s.script ++ ": " ++ name ++ ": not found\n")

def State.assign (s : State) (name value : String) : State :=
  { s with environment := (name, value) :: s.environment }

/-- Set the variables that the first words set. The other words are left. -/
def assignAll (s : State) : List Word → State × List Word
  | [] => (s, [])
  | w :: rest =>
    match assignment? w with
    | some (name, value) =>
      if name.isEmpty then (s, w :: rest)
      else assignAll (s.assign (String.ofList name) (expandWhole s value)) rest
    | none => (s, w :: rest)

def runSimple (s : State) (words : List Word) (redirections : List Redirection) : State :=
  let (s, words) := assignAll s words
  match redirectAll s {} redirections with
  | .error error => { s with status := 2 }.print .stderr (error.message ++ "\n")
  | .ok (s, sinks) =>
    match words.flatMap (expand s) with
    | [] => succeed s
    | name :: arguments => builtin s sinks name arguments

def run (s : State) : Command → State
  | .nothing => s
  | .simple words redirections =>
    if s.ended.isSome then s else runSimple s words redirections
  | .sequence first second => run (run s first) second
  | .both first second =>
    let after := run s first
    if after.status = 0 then run after second else after
  | .either first second =>
    let after := run s first
    if after.status = 0 then after else run after second
  | .negation c =>
    let after := run s c
    { after with status := statusOf (after.status != 0) }
  | .choice condition yes no =>
    let after := run s condition
    if after.status = 0 then run (succeed after) yes else run (succeed after) no
  | .forEach name values body =>
    (values.flatMap (expand s)).foldl
      (fun s value => run (s.assign (String.ofList name) value) body) s

def runText (s : State) (text : String) : State :=
  match Commands.ofText text.toList with
  | some c => run s c
  | none => { s with status := 2 }.print .stderr (s.script ++ ": syntax error\n")

def State.ending (s : State) : Ending :=
  s.ended.getD (.exited s.status)

end Cythonizer.Shell.Script
