import Cythonizer.FileTree.Changes
import Cythonizer.Shell.Script

/-!
Running programs. What a program does is left open (`Tools`), but all it does to the files is to
write some and to make directories. Unless something else is said, only shell scripts can be run
(`runScript`).
-/

namespace Cythonizer.Compiler.Program

open Cythonizer.FileTree.Basic
open Cythonizer.FileTree.Changes
open Cythonizer.Shell.Script

structure Call where
  /-- What is in the file of the program. -/
  content : ByteArray
  /-- The path that the program is called by. -/
  program : String
  arguments : List String
  environment : List (String × String)
  files : FileTree
  here : Location

structure Effect where
  ending : Ending
  stdout : String
  stderr : String
  changes : List Change

class Tools where
  run : Call → Except FileError Effect

def runScript (call : Call) : Except FileError Effect :=
  match String.fromUTF8? call.content with
  | some text =>
    if text.startsWith "#!" then
      let after := runText
        { files := call.files, here := call.here, script := call.program,
          arguments := call.arguments, environment := call.environment } text
      .ok { ending := after.ending, stdout := after.stdout, stderr := after.stderr,
            changes := after.changes }
    else .error .notExecutable
  | none => .error .notExecutable

instance (priority := low) scripts : Tools := ⟨runScript⟩

end Cythonizer.Compiler.Program
