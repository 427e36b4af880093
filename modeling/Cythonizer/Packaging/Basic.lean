import Cythonizer.Packaging.Artifact
import Cythonizer.Settings.Basic
import Cythonizer.Workspace.Basic

namespace Cythonizer.Packaging.Basic

open Cythonizer.Packaging.Artifact
open Cythonizer.Path.Basic
open Cythonizer.Settings.Basic
open Cythonizer.Workspace.Basic

inductive Kind
  | compiled
  | emitted
  /-- Emitted text, because the compiled file could not be copied. -/
  | copyFallback
  deriving DecidableEq, Repr

structure PackagedFile where
  source : Path
  output : Path
  kind : Kind
  deriving DecidableEq, Repr

structure Summary where
  files : List PackagedFile := []
  auxiliaryCopied : List Path := []
  auxiliaryMissing : List Path := []
  deriving DecidableEq, Repr

def Summary.count (summary : Summary) (kind : Kind) : Nat :=
  summary.files.countP fun f => f.kind = kind

structure Packager where
  project : Path
  output : Path
  settings : PackagingSettings
  deriving DecidableEq, Repr

/-- The place of a source below the output directory. A source from elsewhere keeps its name only.
-/
def Packager.packaged (packager : Packager) (source : Path) : Path :=
  let relative :=
    match source.stripPrefix? packager.project with
    | some path => path
    | none =>
      match source.fileName? with
      | some name => { text := name }
      | none => source
  packager.output.join relative

def writeEmitted (source output : Path) (emitted : String) (kind : Kind) :
    Attempt Problem PackagedFile := do
  onPath output (writeText output emitted)
  return { source, output, kind }

/-- The place of the compiled file of a source. -/
def compiledPath (packager : Packager) (source : Path) : Path :=
  (packager.packaged source).withExtension compiledExtension

/-- What is done for a record when its directory is ready. -/
def place [Encoding] (packager : Packager) (source : Path) (emitted : String) :
    Attempt Problem PackagedFile := do
  let output := packager.packaged source
  let w ← get
  match artifact? w.files w.here source with
  | none =>
    let file ← writeEmitted source output emitted .emitted
    info ("No compiled file found, using emitted source: " ++ output.shown)
    return file
  | some artifact =>
    let compiled := compiledPath packager source
    match ← settle (copy artifact compiled) with
    | .ok _ =>
      info ("Copied optimized module: " ++ compiled.shown)
      return { source, output := compiled, kind := .compiled }
    | .error error =>
      report ("Failed to copy compiled file " ++ artifact.shown) { message := error.message }
      let file ← writeEmitted source output emitted .copyFallback
      info ("Fell back to emitted source: " ++ output.shown)
      return file

def Packager.packageFile [Encoding] (packager : Packager) (source : Path) (emitted : String) :
    Attempt Problem PackagedFile :=
  match (packager.packaged source).parent? with
  | some parent => do
    onPath parent (makeDirectories parent)
    place packager source emitted
  | none => place packager source emitted

def copyAuxiliary (source destination : Path) : Attempt Problem Unit := do
  let w ← get
  if FileTree.Access.isFile w.files w.here source then onPath source (copy source destination)
  else throw (.missingAuxiliary source)

/-- Copy the auxiliary files one after another. A path without a file name is passed over. -/
def Packager.copyAuxiliaries [Encoding] (packager : Packager) :
    List Path → Summary → Attempt Problem Summary
  | [], summary => return summary
  | file :: rest, summary => do
    match file.fileName? with
    | none => packager.copyAuxiliaries rest summary
    | some name =>
      let source := packager.project.join file
      let destination := packager.output.join ⟨name⟩
      match ← settle (copyAuxiliary source destination) with
      | .ok _ =>
        packager.copyAuxiliaries rest
          { summary with auxiliaryCopied := summary.auxiliaryCopied ++ [destination] }
      | .error problem =>
        if packager.settings.requireAuxiliaryFiles then throw problem
        report "Skipping auxiliary file" problem.failure
        packager.copyAuxiliaries rest
          { summary with auxiliaryMissing := summary.auxiliaryMissing ++ [source] }

def Packager.package [Encoding] (packager : Packager) (records : List (Path × String)) :
    Attempt Problem Summary := do
  onPath packager.output (makeDirectories packager.output)
  let files ← records.mapM fun (source, emitted) => packager.packageFile source emitted
  let summary ← packager.copyAuxiliaries packager.settings.auxiliaryFiles { files }
  info ("Optimized package created at: " ++ packager.output.shown)
  info ("You can now include this directory in your CI/CD pipeline for further processing or " ++
    "deployment.")
  return summary

end Cythonizer.Packaging.Basic
