import Cythonizer.Main
import Cythonizer.Proofs.Outline.Correspondence
import Cythonizer.Proofs.Outline.Emission
import Cythonizer.Proofs.Outline.Defects
import Cythonizer.Proofs.Outline.Layout
import Cythonizer.Proofs.Outline.Decisions
import Cythonizer.Proofs.Outline.Invariance
import Cythonizer.Proofs.Outline.Refusals
import Cythonizer.Proofs.Outline.Fragments
import Cythonizer.Proofs.Outline.Loops
import Cythonizer.Proofs.Outline.Pieces
import Cythonizer.Proofs.Outline.Segments
import Cythonizer.Proofs.Source.Contents
import Cythonizer.Proofs.Source.Events
import Cythonizer.Proofs.Source.Gaps
import Cythonizer.Proofs.Source.Literals
import Cythonizer.Proofs.Source.Phrases
import Cythonizer.Proofs.Source.Phrasing
import Cythonizer.Proofs.Source.Statements
import Cythonizer.Proofs.Source.Telling
import Cythonizer.Json.Reader
import Cythonizer.Proofs.FileTree.Frames
import Cythonizer.Proofs.Project.Walk
import Cythonizer.Proofs.Pipeline.Optimization
import Cythonizer.Proofs.Path.Names
import Cythonizer.Proofs.Workspace.Runs
import Cythonizer.Proofs.Source.Shapes
import Cythonizer.Proofs.Pipeline.Runner
import Cythonizer.Proofs.Path.Relative
import Cythonizer.Proofs.FileTree.Destinations
import Cythonizer.Proofs.FileTree.Growth
import Cythonizer.Proofs.FileTree.Finding
import Cythonizer.Proofs.Packaging.Outputs
import Cythonizer.Proofs.Packaging.Artifacts
import Cythonizer.Proofs.Packaging.Turns
import Cythonizer.Proofs.Packaging.Refusals
import Cythonizer.Proofs.Packaging.Shipping
import Cythonizer.Proofs.Project.Modules
import Cythonizer.Proofs.FileTree.Writing
import Cythonizer.Proofs.Compiler.Effects
import Cythonizer.Proofs.Pipeline.Stages
import Cythonizer.Proofs.Pipeline.Failures
import Cythonizer.Proofs.FileTree.Agreement
import Cythonizer.Proofs.Packaging.Repetition
import Cythonizer.Proofs.Project.Exclusion
import Cythonizer.Proofs.Pipeline.Uncompiled
import Cythonizer.Proofs.Pipeline.Rerun
import Cythonizer.Proofs.Text.Digits
import Cythonizer.Proofs.Json.Reprinting
import Cythonizer.Proofs.Pipeline.Serialization
import Cythonizer.Proofs.Toml.Strings
import Cythonizer.Proofs.Toml.Scalars
import Cythonizer.Proofs.Toml.Tables
import Cythonizer.Proofs.Toml.Values
import Cythonizer.Proofs.Toml.Documents
import Cythonizer.Proofs.Settings.Documents
import Cythonizer.Proofs.Settings.Loading
import Cythonizer.Proofs.Report.Agreement
import Cythonizer.Proofs.CommandLine.Arguments
import Cythonizer.Proofs.CommandLine.ExitStatus
import Cythonizer.Proofs.Outline.Declarations
import Cythonizer.Proofs.Outline.Functions
import Cythonizer.Proofs.Project.Coverage
import Cythonizer.Proofs.Outline.Marking
import Cythonizer.Proofs.Packaging.Ownership
import Cythonizer.Proofs.Outline.Renaming
import Cythonizer.Proofs.Pipeline.Records
import Cythonizer.Proofs.Packaging.Mirroring
import Cythonizer.Proofs.Packaging.Auxiliaries
import Cythonizer.Proofs.Outline.WellBuilt
import Cythonizer.Proofs.Outline.Printing
