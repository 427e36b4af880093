import Cythonizer.Pipeline.Optimization
import Cythonizer.Pipeline.Packaging

namespace Cythonizer.Pipeline.Complete

open Cythonizer.Compiler.Program
open Cythonizer.Path.Basic
open Cythonizer.Pipeline.Context
open Cythonizer.Pipeline.Optimization
open Cythonizer.Pipeline.Packaging
open Cythonizer.Pipeline.Runner
open Cythonizer.Problem.Basic
open Cythonizer.Source.Fault
open Cythonizer.Workspace.Basic

def stages [Encoding] [Locator] [Tools] (settings : Settings) (compiler : Option Compiler) :
    List Stage :=
  [optimization settings compiler, packaging settings.packaging]

/-- Optimize a project and package it. Without a compiler the one of the settings is looked for. -/
def cythonize [Encoding] [Locator] [Tools] (settings : Settings) (compiler : Option Compiler)
    (project output : Path) : Attempt Failure Output :=
  run settings.pipeline.validation (stages settings compiler) project output

end Cythonizer.Pipeline.Complete
