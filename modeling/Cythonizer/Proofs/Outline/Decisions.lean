import Cythonizer.Outline.Conversion
import Cythonizer.Proofs.Outline.Correspondence

/-!
What conversion decides, and how far it depends on what stands between the tokens of a source.
-/

namespace Cythonizer.Proofs.Outline.Decisions

open Cythonizer.Outline.Basic
open Cythonizer.Outline.Conversion
open Cythonizer.Outline.OfTree
open Cythonizer.Settings.Basic
open Cythonizer.Source.Syntax
open Cythonizer.Source.Trees
open Cythonizer.Text.Blank
open Cythonizer.Proofs.Outline.Correspondence
open Cythonizer.Proofs.Outline.Segments
open Cythonizer.Proofs.Source.Events

mutual

/-- A tree without the gaps in it. -/
def bared : Tree → Tree
  | .gap g text => .gap g text
  | .leaf l text => .leaf l text
  | .node kind children => .node kind (withoutGaps children)

/-- Trees without gaps: their tokens in the constructs they stand in. -/
def withoutGaps : List Tree → List Tree
  | [] => []
  | .gap _ _ :: rest => withoutGaps rest
  | t :: rest => bared t :: withoutGaps rest

end

/-- The names of the parameters that can be given by position, each with its type if the type is a
single name. -/
def positionals (parameters : List Parameter) : List (String × Option String) :=
  parameters.filterMap fun
    | .positional name hint _ => some (name, hintName? hint)
    | _ => none

/-- What conversion reads off a function. -/
structure Signature where
  name : String
  isAsync : Bool
  type : String
  parameters : List (String × Option String)
  deriving DecidableEq

def signature (f : Function) : Signature where
  name := f.name
  isAsync := f.isAsync
  type := typeOf f
  parameters := positionals f.parameters

def isConverted (l : Loop) : Bool :=
  Iterable.isRange l.iterable

/-- Two outlines in which the same is decided, function by function and loop by loop. -/
structure SameDecisions (settings : ConversionSettings) (a b : Outline) : Prop where
  signatures : a.functions.map signature = b.functions.map signature
  modes : a.functions.map (modeOf settings) = b.functions.map (modeOf settings)
  loops : a.loops.map isConverted = b.loops.map isConverted
  counts : counts settings a = counts settings b

deriving instance DecidableEq for Event

theorem eventsOfAll_inj {ts us : List Tree} (h : eventsOfAll ts = eventsOfAll us) : ts = us := by
  rw [← ofEvents_eventsOfAll ts, h, ofEvents_eventsOfAll]

/-- A line continuation in a decorator hides the marker. -/
theorem mode_depends_on_layout :
    ¬∀ (source₁ source₂ : List Char) (outline₁ outline₂ : Outline) (trees₁ trees₂ : List Tree)
      (settings : ConversionSettings), Outline.Reading.read source₁ = .ok outline₁ →
        Outline.Reading.read source₂ = .ok outline₂ → ofSource source₁ = .ok trees₁ →
        ofSource source₂ = .ok trees₂ → withoutGaps trees₁ = withoutGaps trees₂ →
        squeeze settings.strictMarker.toList = settings.strictMarker.toList →
          SameDecisions settings outline₁ outline₂ := by
  intro hall
  let joined : List Char := "@cython.\\\nccall\ndef f(): pass\n".toList
  let plain : List Char := "@cython.ccall\ndef f(): pass\n".toList
  obtain ⟨outline₁, hread₁⟩ := exists_of_isOk (x := Outline.Reading.read joined) (by decide +kernel)
  obtain ⟨outline₂, hread₂⟩ := exists_of_isOk (x := Outline.Reading.read plain) (by decide +kernel)
  obtain ⟨trees₁, htrees₁, -⟩ := ofTrees_of_read hread₁
  obtain ⟨trees₂, htrees₂, -⟩ := ofTrees_of_read hread₂
  have hevents : (ofSource joined).toOption.map (eventsOfAll <| withoutGaps ·) =
      (ofSource plain).toOption.map (eventsOfAll <| withoutGaps ·) := by
    decide +kernel
  have hmodes : (Outline.Reading.read joined).toOption.map (·.functions.map (modeOf {})) ≠
      (Outline.Reading.read plain).toOption.map (·.functions.map (modeOf {})) := by
    decide +kernel
  rw [htrees₁, htrees₂] at hevents
  rw [hread₁, hread₂] at hmodes
  have hsame := hall joined plain outline₁ outline₂ trees₁ trees₂ {} hread₁ hread₂ htrees₁ htrees₂
    (eventsOfAll_inj (Option.some.inj hevents)) rfl
  exact hmodes (congrArg some hsame.modes)

end Cythonizer.Proofs.Outline.Decisions
