import Cythonizer.Problem.Basic

namespace Cythonizer.Log.Basic

open Cythonizer.Problem.Basic

inductive Level
  | info
  | error
  | debug
  deriving DecidableEq, Repr

def Level.name : Level → String
  | .info => "INFO"
  | .error => "ERROR"
  | .debug => "DEBUG"

structure Entry where
  level : Level
  message : String
  cause : Option Failure := none
  deriving DecidableEq, Repr

/-- The message with what it came from. -/
def Entry.brief (entry : Entry) : String :=
  match entry.cause with
  | some failure => entry.message ++ ": " ++ failure.message
  | none => entry.message

/-- The message with everything it came from. -/
def Entry.full (entry : Entry) : String :=
  match entry.cause with
  | some failure => entry.message ++ ": " ++ failure.told
  | none => entry.message

end Cythonizer.Log.Basic

namespace Cythonizer

open Cythonizer.Log.Basic

abbrev Log := List Entry

end Cythonizer

namespace Cythonizer.Log.Basic

def messages (level : Level) (log : Log) : List String :=
  (log.filter fun e => e.level = level).map Entry.brief

end Cythonizer.Log.Basic
