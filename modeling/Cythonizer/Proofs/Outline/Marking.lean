import Cythonizer.Proofs.Outline.Functions

/-!
Which functions become strict. A function is strict exactly if the marker has no white space and one
of the decorators spells it, white space in the decorator apart (`strict_iff_marked`); a marker that
has white space itself makes no function strict, not even one that is decorated with the very text
of the marker.
-/

namespace Cythonizer.Proofs.Outline.Marking

open Cythonizer.Outline.Basic
open Cythonizer.Outline.Conversion
open Cythonizer.Outline.OfTree
open Cythonizer.Settings.Basic
open Cythonizer.Source.Syntax
open Cythonizer.Source.Trees
open Cythonizer.Text.Blank
open Cythonizer.Proofs.Outline.Correspondence
open Cythonizer.Proofs.Outline.Functions
open Cythonizer.Proofs.Outline.Invariance
open Cythonizer.Proofs.Outline.Loops
open Cythonizer.Proofs.Outline.Segments

/-- Whether two texts are the same up to white space. -/
def SameButBlanks (a b : String) : Prop :=
  squeeze a.toList = squeeze b.toList

/-- A text without white space. -/
def IsSolid (text : String) : Prop :=
  squeeze text.toList = text.toList

/-- One of the decorators of a declaration is the marker, white space apart in both. -/
def SpellsMarker (settings : ConversionSettings) (t : Tree) : Prop :=
  ∃ expression ∈ expressionsOf t, SameButBlanks expression settings.strictMarker

theorem squeeze_squeeze (text : List Char) : squeeze (squeeze text) = squeeze text := by
  simp [squeeze]

theorem squeeze_eq_iff {text : List Char} {marker : String} :
    String.ofList (squeeze text) = marker ↔ IsSolid marker ∧ squeeze text =
      squeeze marker.toList := by
  constructor
  · rintro rfl
    simp [IsSolid, squeeze_squeeze]
  · rintro ⟨hsolid, hsame⟩
    rw [hsame, hsolid, String.ofList_toList]

theorem modeOf_eq_strict_iff (settings : ConversionSettings) (f : Function) :
    modeOf settings f = .strict ↔ IsSolid settings.strictMarker ∧
      ∃ decorator ∈ f.decorators, SameButBlanks decorator settings.strictMarker := by
  have hmode : modeOf settings f = .strict ↔
      ∃ decorator ∈ f.decorators, String.ofList (squeeze decorator.toList) =
        settings.strictMarker := by
    rw [modeOf, ite_eq_left_iff, List.any_eq_true]
    simp
  rw [hmode]
  simp only [squeeze_eq_iff, SameButBlanks]
  constructor
  · rintro ⟨decorator, hmem, hsolid, hsame⟩
    exact ⟨hsolid, decorator, hmem, hsame⟩
  · rintro ⟨hsolid, decorator, hmem, hsame⟩
    exact ⟨decorator, hmem, hsolid, hsame⟩

/-- What a function is strict for, given what its decorators apply. -/
structure FollowsMarker (settings : ConversionSettings) (t : Tree) (f : Function) : Prop where
  strict_iff : modeOf settings f = .strict ↔ IsSolid settings.strictMarker ∧ SpellsMarker settings t
  /-- The marker decides exactly if it has no white space, or if none of the decorators spells it.
  -/
  decides_iff : (modeOf settings f = .strict ↔ SpellsMarker settings t) ↔
    IsSolid settings.strictMarker ∨ ¬SpellsMarker settings t
  /-- A function with the text of the marker as a decorator is strict exactly if that has no white
  space. -/
  decorated : settings.strictMarker ∈ expressionsOf t →
    (modeOf settings f = .strict ↔ IsSolid settings.strictMarker)

theorem followsMarker_of_strict_iff {settings : ConversionSettings} {t : Tree} {f : Function}
    (h : modeOf settings f = .strict ↔ IsSolid settings.strictMarker ∧ SpellsMarker settings t) :
    FollowsMarker settings t f := by
  refine ⟨h, ?_, fun hmem => ?_⟩
  · rw [h]
    tauto
  · have hspells : SpellsMarker settings t := ⟨_, hmem, rfl⟩
    rw [h, and_iff_left hspells]

/-- In every source that is read, and for every marker, a function is strict exactly if the marker
has no white space and one of its decorators spells it. So the marker decides as it is to exactly if
it has no white space or no decorator spells it. -/
theorem strict_iff_marked {source : List Char} {outline : Outline} {trees : List Tree}
    (hread : Outline.Reading.read source = .ok outline) (htrees : ofSource source = .ok trees) :
    List.Forall₂ (fun t f => HasUnjoinedDecorators t → ∀ settings, FollowsMarker settings t f)
      (declarations trees) outline.functions := by
  obtain ⟨trees', htrees', -, houtline⟩ := ofTrees_of_read hread
  obtain rfl : trees = trees' := Except.ok.inj (htrees.symm.trans htrees')
  refine (readsOff_outline houtline).functions.imp fun t f h hplain settings => ?_
  apply followsMarker_of_strict_iff
  obtain ⟨outer, line, hf⟩ := h
  have hdecorators : f.decorators = expressionsOf t := by
    rw [(functionOf_eq_ok hf).2, decoratorsOf_of_plain hplain]
  rw [modeOf_eq_strict_iff, hdecorators, SpellsMarker]

/-- A function with a marker among other decorators, written with white space. -/
def markedBelow : List Char :=
  "@first(a, b)\n@ cython . ccall\ndef f(): pass\n".toList

theorem strict_iff_marked_below :
    ∃ (outline : Outline) (trees : List Tree), Outline.Reading.read markedBelow = .ok outline ∧
      ofSource markedBelow = .ok trees ∧ (∀ t ∈ declarations trees, HasUnjoinedDecorators t) ∧
      List.Forall₂ (fun t f => HasUnjoinedDecorators t → ∀ settings, FollowsMarker settings t f)
        (declarations trees) outline.functions ∧
      outline.functions.map (modeOf {}) = [.strict] := by
  obtain ⟨outline, hread⟩ := exists_of_isOk (x := Outline.Reading.read markedBelow)
    (by decide +kernel)
  obtain ⟨trees, htrees, -⟩ := ofTrees_of_read hread
  have hmodes : (Outline.Reading.read markedBelow).toOption.map (·.functions.map (modeOf {})) =
      some [.strict] := by
    decide +kernel
  have hplain : (ofSource markedBelow).toOption.map (fun trees => (declarations trees).all fun t =>
      (decorationOf t).all fun d => (childrenOf d).all fun c => !isContinuation c) = some true := by
    decide +kernel
  rw [hread] at hmodes
  rw [htrees] at hplain
  refine ⟨outline, trees, hread, htrees, fun t ht d hd _ text hmem =>
    ?_, strict_iff_marked hread htrees,
    Option.some.inj hmodes⟩
  have hall :=
    List.all_eq_true.mp
      (List.all_eq_true.mp (List.all_eq_true.mp (Option.some.inj hplain) t ht) d hd)
  simpa [isContinuation] using hall _ ((List.takeWhile_sublist _).subset hmem)

/-- A marker with white space in it, and a function decorated with just that. -/
def spacedMarker : String :=
  "cython.locals(a = 1)"

def decoratedWithIt : List Char :=
  ("@" ++ spacedMarker ++ "\ndef f(a): pass\n").toList

theorem spaced_marker_not_strict :
    ¬∀ (source : List Char) (outline : Outline) (trees : List Tree),
      Outline.Reading.read source = .ok outline → ofSource source = .ok trees →
        List.Forall₂ (fun t f => ∀ settings, modeOf settings f = .strict ↔ SpellsMarker settings t)
          (declarations trees) outline.functions := by
  intro hall
  obtain ⟨outline, hread⟩ := exists_of_isOk (x := Outline.Reading.read decoratedWithIt)
    (by decide +kernel)
  obtain ⟨trees, htrees, -⟩ := ofTrees_of_read hread
  have hmodes : (Outline.Reading.read decoratedWithIt).toOption.map
      (·.functions.map (modeOf { strictMarker := spacedMarker })) = some [.relaxed] := by
    decide +kernel
  have hexpressions : (ofSource decoratedWithIt).toOption.map (fun trees =>
      (declarations trees).map expressionsOf) = some [[spacedMarker]] := by
    decide +kernel
  rw [hread] at hmodes
  rw [htrees] at hexpressions
  obtain ⟨f, hfunctions, hrelaxed⟩ := List.map_eq_singleton_iff.mp (Option.some.inj hmodes)
  obtain ⟨t, hdeclarations, hexpression⟩ :=
    List.map_eq_singleton_iff.mp (Option.some.inj hexpressions)
  have hfollows := hall decoratedWithIt outline trees hread htrees
  rw [hfunctions, hdeclarations, List.forall₂_cons] at hfollows
  have hstrict := (hfollows.1 { strictMarker := spacedMarker }).mpr
    ⟨spacedMarker, by simp [hexpression], rfl⟩
  rw [hstrict] at hrelaxed
  cases hrelaxed

end Cythonizer.Proofs.Outline.Marking
