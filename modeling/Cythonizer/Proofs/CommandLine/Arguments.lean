import Cythonizer.CommandLine.Arguments

namespace Cythonizer.Proofs.CommandLine.Arguments

open Cythonizer.CommandLine.Arguments

variable {d d' : Draft} {request : Request} {argument text : String} {arguments : List String}
  {before : Option String} {invocation : Invocation}

/-- A draft whose paths are not empty. -/
structure IsFilled (d : Draft) : Prop where
  project : d.project ≠ some ""
  output : d.output ≠ some ""

/-- A request whose paths are not empty. -/
structure IsNamed (request : Request) : Prop where
  project : request.project.text ≠ ""
  output : request.output.text ≠ ""

theorem setOnce_ne (before : Option String) (text : String) : setOnce before text ≠ some "" := by
  unfold setOnce
  split
  · simp
  · rename_i h
    rintro heq
    cases heq
    exact h (.inr rfl)

theorem IsFilled.setProject (h : IsFilled d) (hset : d.setProject text = some d') :
    IsFilled d' := by
  obtain ⟨found, hfound, rfl⟩ := Option.map_eq_some_iff.mp hset
  exact ⟨hfound ▸ setOnce_ne d.project text, h.output⟩

theorem IsFilled.setOutput (h : IsFilled d) (hset : d.setOutput text = some d') : IsFilled d' := by
  obtain ⟨found, hfound, rfl⟩ := Option.map_eq_some_iff.mp hset
  exact ⟨h.project, hfound ▸ setOnce_ne d.output text⟩

theorem IsFilled.setDebug (h : IsFilled d) (hset : d.setDebug = some d') : IsFilled d' := by
  unfold Draft.setDebug at hset
  split at hset
  · cases hset
  · cases hset
    exact ⟨h.project, h.output⟩

/-- A step that keeps a draft filled and asks for no run by itself. -/
def Keeps : Step → Prop
  | .next d => IsFilled d
  | .done invocation => ∀ request, invocation ≠ .run request

theorem keeps_stepOf {next : Option Draft} (h : ∀ d, next = some d → IsFilled d) :
    Keeps (stepOf next) := by
  cases next with
  | none => exact fun _ => by simp
  | some d => exact h d rfl

theorem keeps_shortOption (h : IsFilled d) (c : Char) : Keeps (shortOption d c) := by
  unfold shortOption
  split
  · exact keeps_stepOf fun _ => h.setDebug
  · exact fun _ => by simp
  · exact fun _ => by simp
  · exact fun _ => by simp

theorem keeps_shortOptions (h : IsFilled d) (letters : List Char) :
    Keeps (shortOptions d letters) := by
  induction letters generalizing d with
  | nil => exact h
  | cons c rest ih =>
      have hfirst := keeps_shortOption h c
      rw [shortOptions]
      split
      · rename_i hnext
        rw [hnext] at hfirst
        exact ih hfirst
      · rename_i hdone
        rw [hdone] at hfirst
        exact hfirst

theorem keeps_longOption (h : IsFilled d) (argument : String) : Keeps (longOption d argument) := by
  unfold longOption
  split
  · exact keeps_stepOf fun _ => h.setDebug
  · exact fun _ => by simp
  · exact fun _ => by simp
  · split
    · exact keeps_stepOf fun _ => h.setOutput
    · exact fun _ => by simp

theorem keeps_step (h : IsFilled d) (argument : String) : Keeps (step d argument) := by
  unfold step
  split
  · exact keeps_longOption h argument
  · exact keeps_shortOptions h _
  · exact keeps_stepOf fun _ => h.setProject

theorem isNamed_of_finish (h : IsFilled d) (hfinish : d.finish = .run request) :
    IsNamed request := by
  unfold Draft.finish at hfinish
  split at hfinish
  · rename_i project hproject
    cases hfinish
    refine ⟨fun hempty => h.project (by rw [hproject, show project = "" from hempty]), ?_⟩
    cases houtput : d.output with
    | none => simp
    | some output => exact fun hempty => h.output (by rw [houtput, show output = "" from hempty])
  · cases hfinish

theorem isNamed_of_operands (h : IsFilled d) (hread : operands d arguments = .run request) :
    IsNamed request := by
  induction arguments generalizing d with
  | nil => exact isNamed_of_finish h hread
  | cons argument rest ih =>
      rw [operands] at hread
      split at hread
      · rename_i hset
        exact ih (h.setProject hset) hread
      · cases hread

theorem isNamed_of_readFrom (h : IsFilled d) (hread : readFrom d arguments = .run request) :
    IsNamed request := by
  induction d, arguments using readFrom.induct with
  | case1 d => exact isNamed_of_finish h hread
  | case2 d rest => exact isNamed_of_operands h hread
  | case3 d => cases hread
  | case4 d value rest hlooks =>
      rw [readFrom, if_pos hlooks] at hread
      cases hread
  | case5 d value rest hlooks next hset ih =>
      rw [readFrom, if_neg hlooks, hset] at hread
      exact ih (h.setOutput hset) hread
  | case6 d value rest hlooks hset =>
      rw [readFrom, if_neg hlooks, hset] at hread
      cases hread
  | case7 d argument rest hdashes hlast houtput next hstep ih =>
      have hkeeps := keeps_step h argument
      rw [hstep] at hkeeps
      rw [readFrom.eq_5 _ _ _ hdashes hlast houtput, hstep] at hread
      exact ih hkeeps hread
  | case8 d argument rest hdashes hlast houtput invocation hstep =>
      have hkeeps := keeps_step h argument
      rw [hstep] at hkeeps
      rw [readFrom.eq_5 _ _ _ hdashes hlast houtput, hstep] at hread
      exact absurd hread (hkeeps request)

theorem isNamed_of_read (hread : read arguments = .run request) : IsNamed request :=
  isNamed_of_readFrom ⟨by simp, by simp⟩ hread

end Cythonizer.Proofs.CommandLine.Arguments
