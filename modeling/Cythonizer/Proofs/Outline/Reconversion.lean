import Cythonizer.Proofs.Outline.Traversal

/-!
Converting an outline again and again. The first conversion settles all that a conversion acts on,
so that every further one adds a plain directive to each function and does nothing else
(`convert_iterate`).
-/

namespace Cythonizer.Proofs.Outline.Reconversion

open Cythonizer.Outline.Basic
open Cythonizer.Outline.Conversion
open Cythonizer.Settings.Basic
open Cythonizer.Proofs.Outline.Traversal

variable {settings : ConversionSettings} {f : Function} {p : Parameter}

/-- A function that is `async`, or has nothing that a conversion acts on. -/
def IsSettled (f : Function) : Prop :=
  f.isAsync = false → f.decorators = [] ∧ f.returns = none ∧ ∀ p ∈ f.parameters, isTyped p = false

/-- Put the directive of a function without marker and type in front of a body a number of times,
unless the function is `async`. -/
def withDirectives (n : Nat) (f : Function) : Function :=
  if f.isAsync then f
  else { f with body :=
    { f.body with injected := List.replicate n "\"cpdef object\"" ++ f.body.injected } }

theorem isAsync_converted (settings : ConversionSettings) (f : Function) :
    (converted settings f).isAsync = f.isAsync := by
  unfold converted
  split <;> rfl

theorem isAsync_withDirectives (n : Nat) (f : Function) :
    (withDirectives n f).isAsync = f.isAsync := by
  unfold withDirectives
  split <;> rfl

theorem withDirectives_zero (f : Function) : withDirectives 0 f = f := by
  unfold withDirectives
  split <;> rfl

theorem foldHint_of_not_isTyped (h : isTyped p = false) : foldHint p = p := by
  cases p with
  | positional name hint default =>
      rcases hint with _ | type | text
      · rfl
      · cases h
      · rfl
  | positionalOnlyMarker => rfl
  | verbatim text => rfl

theorem isSettled_converted (settings : ConversionSettings) (f : Function) :
    IsSettled (converted settings f) := by
  intro hasync
  rw [isAsync_converted] at hasync
  rw [converted, hasync]
  refine ⟨rfl, rfl, fun p hp => ?_⟩
  obtain ⟨q, -, rfl⟩ := List.mem_map.mp hp
  exact isTyped_foldHint q

theorem IsSettled.withDirectives (h : IsSettled f) (n : Nat) : IsSettled (withDirectives n f) := by
  intro hasync
  rw [isAsync_withDirectives] at hasync
  rw [Reconversion.withDirectives, hasync]
  exact h hasync

theorem directive_of_isSettled (settings : ConversionSettings) (h : IsSettled f)
    (hasync : f.isAsync = false) :
    modeOf settings f = .relaxed ∧ directive (modeOf settings f) (typeOf f) =
      "\"cpdef object\"" := by
  obtain ⟨hdecorators, hreturns, -⟩ := h hasync
  have hmode : modeOf settings f = .relaxed := by simp [modeOf, hdecorators]
  have htype : typeOf f = defaultType := by simp [typeOf, hreturns, hintName?]
  exact ⟨hmode, by rw [hmode, htype]; rfl⟩

theorem map_foldHint_of_isSettled (h : IsSettled f) (hasync : f.isAsync = false) :
    f.parameters.map foldHint = f.parameters := by
  obtain ⟨-, -, hparameters⟩ := h hasync
  calc
    f.parameters.map foldHint = f.parameters.map id :=
      List.map_congr_left fun p hp => foldHint_of_not_isTyped (hparameters p hp)
    _ = f.parameters := List.map_id _

theorem converted_withDirectives (h : IsSettled f) (n : Nat) :
    converted settings (withDirectives n f) = withDirectives (n + 1) f := by
  by_cases hasync : f.isAsync = true
  · simp [converted, withDirectives, hasync]
  · rw [Bool.not_eq_true] at hasync
    have hlater : (withDirectives n f).isAsync = false := (isAsync_withDirectives n f).trans hasync
    have hsettled := h.withDirectives n
    obtain ⟨hdecorators, hreturns, -⟩ := hsettled hlater
    obtain ⟨-, hdirective⟩ := directive_of_isSettled settings hsettled hlater
    rw [converted, hlater]
    simp only [Bool.false_eq_true, if_false, convertFunction, hdirective,
      map_foldHint_of_isSettled hsettled hlater, ← hdecorators, ← hreturns]
    simp [withDirectives, hasync, Body.insertFirst, List.replicate_succ]

theorem converted_iterate (settings : ConversionSettings) (n : Nat) (f : Function) :
    (converted settings)^[n + 1] f = withDirectives n (converted settings f) := by
  induction n with
  | zero => exact (withDirectives_zero _).symm
  | succ n ih =>
      rw [Function.iterate_succ_apply', ih]
      exact converted_withDirectives (isSettled_converted settings f) n

theorem convertLoop_convertLoop (settings : ConversionSettings) (l : Loop) :
    convertLoop settings (convertLoop settings l) = convertLoop settings l := by
  obtain ⟨head, iterable, tail⟩ := l
  cases iterable with
  | other text => rfl
  | call callee arguments =>
      by_cases hrange : callee = boundedRange
      · by_cases hsame : settings.parallelRange = boundedRange <;> simp [convertLoop, hrange, hsame]
      · simp [convertLoop, hrange]

theorem convertLoop_iterate (settings : ConversionSettings) (n : Nat) (l : Loop) :
    (convertLoop settings)^[n + 1] l = convertLoop settings l := by
  induction n with
  | zero => rfl
  | succ n ih => rw [Function.iterate_succ_apply', ih, convertLoop_convertLoop]

theorem change_iterate (onFunction : Function → Function) (onLoop : Loop → Loop) (n : Nat)
    (outline : Outline) :
    (change onFunction onLoop)^[n + 1] outline =
      change onFunction^[n + 1] onLoop^[n + 1] outline := by
  induction n with
  | zero => rfl
  | succ n ih =>
      rw [Function.iterate_succ_apply', ih, change_change, ← Function.iterate_succ',
        ← Function.iterate_succ']

theorem convert_iterate (settings : ConversionSettings) (n : Nat) (outline : Outline) :
    (convert settings)^[n + 1] outline = change (withDirectives n) id
    (convert settings outline) := by
  rw [convert_eq, change_iterate, change_change]
  congr 1
  · exact funext fun f => converted_iterate settings n f
  · exact funext fun l => convertLoop_iterate settings n l

theorem isRange_convertLoop (settings : ConversionSettings) (l : Loop) :
    Iterable.isRange (convertLoop settings l).iterable =
      (settings.parallelRange == boundedRange && Iterable.isRange l.iterable) := by
  obtain ⟨head, iterable, tail⟩ := l
  cases iterable with
  | other text => simp [convertLoop, Iterable.isRange]
  | call callee arguments =>
      by_cases hrange : callee = boundedRange
      · simp [convertLoop, hrange, Iterable.isRange]
      · simp [convertLoop, hrange, Iterable.isRange]

theorem counts_of_isSettled {outline : Outline} (h : ∀ f ∈ outline.functions, IsSettled f) :
    counts settings outline =
      { functions := .ofNat (outline.functions.countP fun f => !f.isAsync)
        parallelLoops := .ofNat (outline.loops.countP fun l => Iterable.isRange l.iterable) } := by
  have hstrict :
    (outline.functions.countP fun f => !f.isAsync && modeOf settings f == .strict) = 0 := by
    refine List.countP_eq_zero.mpr fun f hf => ?_
    cases hasync : f.isAsync with
    | true => simp
    | false => simp [(directive_of_isSettled settings (h f hf) hasync).1]
  have hrenamed : ((outline.functions.filter fun f => !f.isAsync).map fun f =>
      f.parameters.countP isTyped).sum = 0 := by
    refine List.sum_eq_zero fun count hcount => ?_
    obtain ⟨f, hf, rfl⟩ := List.mem_map.mp hcount
    obtain ⟨hmem, hasync⟩ := List.mem_filter.mp hf
    obtain ⟨-, -, huntyped⟩ := h f hmem (by simpa using hasync)
    exact List.countP_eq_zero.mpr fun p hp => by simp [huntyped p hp]
  rw [counts_eq_countP, hstrict, hrenamed]
  rfl

/-- Converting an outline n + 1 times comes to converting it once and putting n more plain
directives in front of the body of each function that is not async. Every conversion after the first
one counts the same functions and nothing else, but for loops that are converted to themselves. -/
theorem reconversion (settings : ConversionSettings) (outline : Outline) (n : Nat) :
    (convert settings)^[n + 1] outline = change (withDirectives n) id (convert settings outline) ∧
      counts settings ((convert settings)^[n + 1] outline) =
        { functions := (counts settings outline).functions
          strictFunctions := 0
          renamedParameters := 0
          parallelLoops :=
            if settings.parallelRange =
              boundedRange then (counts settings outline).parallelLoops else 0 } := by
  have hiterate := convert_iterate settings n outline
  refine ⟨hiterate, ?_⟩
  have hfunctions : ((convert settings)^[n + 1] outline).functions =
      outline.functions.map fun f => withDirectives n (converted settings f) := by
    rw [hiterate, functions_change, convert_eq, functions_change, List.map_map]
    rfl
  have hloops : ((convert settings)^[n + 1] outline).loops =
    outline.loops.map (convertLoop settings) := by
    rw [hiterate, loops_change, List.map_id, convert_eq, loops_change]
  have hsettled : ∀ f ∈ ((convert settings)^[n + 1] outline).functions, IsSettled f := by
    rw [hfunctions]
    intro f hf
    obtain ⟨g, -, rfl⟩ := List.mem_map.mp hf
    exact (isSettled_converted settings g).withDirectives n
  rw [counts_of_isSettled hsettled, counts_eq_countP settings outline, hfunctions, hloops,
    List.countP_map,
    List.countP_map]
  congr 1
  · simp [Function.comp_def, isAsync_withDirectives, isAsync_converted]
  · by_cases hsame : settings.parallelRange = boundedRange
    · simp [Function.comp_def, isRange_convertLoop, hsame]
    · have hother : (settings.parallelRange == boundedRange) = false :=
        beq_eq_false_iff_ne.mpr hsame
      simp [Function.comp_def, isRange_convertLoop, hsame, hother]

end Cythonizer.Proofs.Outline.Reconversion
