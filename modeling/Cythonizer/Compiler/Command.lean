import Cythonizer.Outline.Rendering
import Cythonizer.Path.Naming
import Cythonizer.Text.Blank

namespace Cythonizer.Compiler.Command

open Cythonizer.Outline.Rendering
open Cythonizer.Path.Basic
open Cythonizer.Settings.Basic
open Cythonizer.Text.Blank

/-- The file beside a source that the compiler reads. -/
def intermediate (source : Path) : Path :=
  source.withExtension "pyx"

def directives (settings : CompilerSettings) : List String :=
  ["language_level=" ++ toString settings.languageLevel.toNat,
    "boundscheck=" ++ flag settings.boundscheck,
    "wraparound=" ++ flag settings.wraparound,
    "nonecheck=" ++ flag settings.nonecheck]

def arguments [Encoding] (settings : CompilerSettings) (file : Path) : List String :=
  ["-i", "-f"] ++ (if settings.annotate then ["-a"] else []) ++
    (directives settings).flatMap (fun d => ["-X", d]) ++ [file.shown]

def environment [Encoding] (headers : Option Path) (flags : Option String) :
    List (String × String) :=
  match headers with
  | none => []
  | some directory =>
    let added := "-I" ++ directory.shown
    match flags with
    | some before =>
      if (trim before.toList).isEmpty then [("CFLAGS", added)]
      else [("CFLAGS", before ++ " " ++ added)]
    | none => [("CFLAGS", added)]

end Cythonizer.Compiler.Command
