import Cythonizer.Path.Basic

namespace Cythonizer.Settings.Basic

structure SourceSettings where
  /-- Names of directories that are passed over. -/
  exclude : List String := [".git", "__pycache__", ".venv", "venv", ".tox", "build", "dist"]
  deriving DecidableEq, Repr

structure ConversionSettings where
  /-- The decorator that selects `cdef`. -/
  strictMarker : String := "cython.ccall"
  /-- What loops over `range` iterate over instead. -/
  parallelRange : String := "cython.parallel.prange"
  deriving DecidableEq, Repr

structure CompilerSettings where
  program : String := "cythonize"
  languageLevel : UInt8 := 3
  boundscheck : Bool := false
  wraparound : Bool := false
  nonecheck : Bool := false
  annotate : Bool := true
  /-- The interpreter that is asked for the directory of the numpy headers. -/
  python : String := "python3"
  numpyInclude : Option Path := none
  deriving DecidableEq, Repr

structure PackagingSettings where
  auxiliaryFiles : List Path := [⟨"setup.py"⟩, ⟨"README.md"⟩]
  requireAuxiliaryFiles : Bool := true
  deriving DecidableEq, Repr

inductive Validation
  | stopOnError
  | continueOnError
  | none
  deriving DecidableEq, Repr

structure PipelineSettings where
  validation : Validation := .continueOnError
  deriving DecidableEq, Repr

end Cythonizer.Settings.Basic

namespace Cythonizer

open Cythonizer.Settings.Basic

structure Settings where
  version : String := "1.0"
  source : SourceSettings := {}
  conversion : ConversionSettings := {}
  compiler : CompilerSettings := {}
  packaging : PackagingSettings := {}
  pipeline : PipelineSettings := {}
  deriving DecidableEq, Repr

end Cythonizer
