import Mathlib.Data.List.Perm.Basic
import Cythonizer.Pipeline.Coding
import Cythonizer.Proofs.Json.Reprinting

/-!
A context written as JSON text and read again. Whatever stages do to a new context one after the
other, nothing of it is lost on the way, in whichever order its notes are written, unless its
brackets go deeper than the reader follows.
-/

namespace Cythonizer.Proofs.Pipeline.Serialization

open Cythonizer.Json.Printer
open Cythonizer.Json.Reader (nesting)
open Cythonizer.Json.Value
open Cythonizer.Outline.Conversion
open Cythonizer.Packaging.Basic
open Cythonizer.Pipeline.Coding
open Cythonizer.Pipeline.Context
open Cythonizer.Proofs.Json.Reprinting

section Parts

theorem decodePath_encodePath (path : Path) : decodePath (encodePath path) = some path := rfl

theorem nat?_ofNat (n : Nat) : (ofNat n).nat? = some n := rfl

theorem decodeCounter_ofNat (n : UInt64) : decodeCounter (ofNat n.toNat) = some n := by
  have hn : n.toNat < UInt64.size := n.toNat_lt
  simp [decodeCounter, nat?_ofNat, hn]

theorem decodeCounts_encodeCounts (counts : Counts) :
    decodeCounts (encodeCounts counts) = some counts := by
  simp [decodeCounts, encodeCounts, object, Value.get?, Field.name, Field.value,
    decodeCounter_ofNat]

theorem decodeOutcome_encodeOutcome (outcome : Outcome) :
    decodeOutcome (encodeOutcome outcome) = some outcome := by
  cases outcome <;>
    simp [decodeOutcome, encodeOutcome, object, Value.get?, Field.name, Field.value, Value.string?,
      Value.boolean?, decodePath_encodePath, decodeCounts_encodeCounts]

theorem decodeKind_kindName (kind : Kind) : decodeKind (.string (kindName kind)) = some kind := by
  cases kind <;> rfl

theorem decodeFile_encodeFile (file : PackagedFile) : decodeFile (encodeFile file) = some file := by
  simp [decodeFile, encodeFile, object, Value.get?, Field.name, Field.value, decodePath_encodePath,
    decodeKind_kindName]

theorem decodeList_map {α : Type} {decode : Value → Option α} {encode : α → Value} (items : List α)
    (h : ∀ a ∈ items, decode (encode a) = some a) :
    decodeList decode (.array (items.map encode)) = some items := by
  have hitems : (items.map encode).mapM decode = some items := by
    induction items with
    | nil => rfl
    | cons a items ih => simp [h a (by simp), ih fun b hb => h b (by simp [hb])]
  simpa [decodeList, Value.elements?] using hitems

theorem decodeSummary_encodeSummary (summary : Summary) :
    decodeSummary (encodeSummary summary) = some summary := by
  have hfiles := decodeList_map summary.files fun a _ => decodeFile_encodeFile a
  have hcopied := decodeList_map summary.auxiliaryCopied fun a _ => decodePath_encodePath a
  have hmissing := decodeList_map summary.auxiliaryMissing fun a _ => decodePath_encodePath a
  simp [decodeSummary, encodeSummary, object, Value.get?, Field.name, Field.value, hfiles, hcopied,
    hmissing]

theorem decodeOption_of_ne_null {α : Type} {decode : Value → Option α} {v : Value} {a : α}
    (hv : v ≠ .null) (h : decode v = some a) : decodeOption decode (some v) = some (some a) := by
  cases v <;> simp_all [decodeOption]

theorem decodeOption_encodeSummary (package : Option Summary) :
    decodeOption decodeSummary (some (ofOption encodeSummary package)) = some package := by
  cases package with
  | none => rfl
  | some summary =>
      exact decodeOption_of_ne_null (by simp [ofOption, encodeSummary, object])
        (decodeSummary_encodeSummary summary)

/-- Details that are null would be read as none. -/
def HasDetails (verdict : Verdict) : Prop :=
  ∀ v ∈ verdict.details, IsWhole v ∧ v ≠ .null
theorem decodeVerdict_encodeVerdict {verdict : Verdict} (h : HasDetails verdict) :
    decodeVerdict (encodeVerdict verdict) = some verdict := by
  obtain ⟨stage, passed, message, details⟩ := verdict
  have hdetails : decodeOption some (some (details.getD .null)) = some details := by
    cases details with
    | none => rfl
    | some v => exact decodeOption_of_ne_null (h v rfl).2 rfl
  simp [decodeVerdict, encodeVerdict, object, Value.get?, Field.name, Field.value, Value.string?,
    Value.boolean?, hdetails]

end Parts

section Whole

variable {context : Context}

/-- All that a context holds can be written and read without loss. -/
structure IsFaithful (context : Context) : Prop where
  details : ∀ verdict ∈ context.verdicts, HasDetails verdict
  notes : ∀ entry ∈ context.metadata, IsWhole entry.2

theorem decodeContext_encodeContext (h : ∀ verdict ∈ context.verdicts, HasDetails verdict) :
    decodeContext (encodeContext context) = some context := by
  have houtcomes := decodeList_map context.outcomes fun a _ => decodeOutcome_encodeOutcome a
  have hverdicts :=
    decodeList_map context.verdicts fun a ha => decodeVerdict_encodeVerdict (h a ha)
  simp [decodeContext, encodeContext, object, Value.get?, Field.name, Field.value, Value.fields?,
    decodePath_encodePath, houtcomes, hverdicts, decodeCounts_encodeCounts,
    decodeOption_encodeSummary, Function.comp_def]

theorem isWhole_object {fields : List (String × Value)} (h : ∀ entry ∈ fields, IsWhole entry.2) :
    IsWhole (object fields) := by
  rw [object, IsWhole, hasWholeFields_iff]
  intro f hf
  obtain ⟨entry, hentry, rfl⟩ := List.mem_map.1 hf
  exact h entry hentry

theorem isWhole_array_map {α : Type} {encode : α → Value} (items : List α)
    (h : ∀ a ∈ items, IsWhole (encode a)) : IsWhole (.array (items.map encode)) := by
  rw [IsWhole, areWhole_iff]
  intro v hv
  obtain ⟨a, ha, rfl⟩ := List.mem_map.1 hv
  exact h a ha

@[simp] theorem isWhole_encodePath (path : Path) : IsWhole (encodePath path) := trivial

@[simp] theorem isWhole_encodeCounts (counts : Counts) : IsWhole (encodeCounts counts) :=
  isWhole_object (by simp)

theorem isWhole_encodeOutcome (outcome : Outcome) : IsWhole (encodeOutcome outcome) := by
  cases outcome with
  | optimized source emitted compiled counts =>
      refine isWhole_object ?_
      simp only [List.mem_singleton, forall_eq]
      exact isWhole_object (by simp)
  | skipped source reason =>
      refine isWhole_object ?_
      simp only [List.mem_singleton, forall_eq]
      exact isWhole_object (by simp)

theorem isWhole_encodeSummary (package : Option Summary) :
    IsWhole (ofOption encodeSummary package) := by
  cases package with
  | none => exact isWhole_null
  | some summary =>
      have hfiles : IsWhole (.array (summary.files.map encodeFile)) :=
        isWhole_array_map _ fun a _ => isWhole_object (by simp)
      have hpaths (paths : List Path) : IsWhole (.array (paths.map encodePath)) :=
        isWhole_array_map paths fun a _ => isWhole_encodePath a
      exact isWhole_object (by simp [hfiles, hpaths])

theorem isWhole_encodeVerdict {verdict : Verdict} (h : HasDetails verdict) :
    IsWhole (encodeVerdict verdict) := by
  refine isWhole_object ?_
  cases hdetails : verdict.details with
  | none => simp
  | some v => simp [(h v hdetails).1]

theorem isWhole_encodeContext (h : IsFaithful context) : IsWhole (encodeContext context) := by
  have houtcomes := isWhole_array_map context.outcomes fun a _ => isWhole_encodeOutcome a
  have hverdicts :=
    isWhole_array_map context.verdicts fun a ha => isWhole_encodeVerdict (h.details a ha)
  have hnotes := isWhole_object h.notes
  exact isWhole_object (by simp [isWhole_encodeSummary, houtcomes, hverdicts, hnotes])

theorem depth_object_le_iff {fields : List (String × Value)} {n : Nat} :
    depth (object fields) ≤ n + 1 ↔ ∀ entry ∈ fields, depth entry.2 ≤ n := by
  rw [object, depth, Nat.add_le_add_iff_right, depthOfFields_le_iff, List.forall_mem_map]
  rfl

theorem depth_array_map_le_iff {α : Type} {encode : α → Value} {items : List α} {n : Nat} :
    depth (.array (items.map encode)) ≤ n + 1 ↔ ∀ a ∈ items, depth (encode a) ≤ n := by
  simp [depth, depthOfElements_le_iff]

@[simp] theorem depth_string (text : String) : depth (.string text) = 0 :=
    by rw [depth]; all_goals simp

theorem depth_encodeCounts_le (counts : Counts) : depth (encodeCounts counts) ≤ 1 :=
  depth_object_le_iff.2 (by simp [ofNat, depth])

theorem depth_encodeOutcome_le (outcome : Outcome) : depth (encodeOutcome outcome) ≤ 3 := by
  cases outcome with
  | optimized source emitted compiled counts =>
      have hfields := depth_encodeCounts_le counts
      refine depth_object_le_iff.2 ?_
      simp only [List.mem_singleton, forall_eq]
      exact depth_object_le_iff.2 (by simp [encodePath, depth, hfields])
  | skipped source reason =>
      refine depth_object_le_iff.2 ?_
      simp only [List.mem_singleton, forall_eq]
      exact depth_object_le_iff.2 (by simp [encodePath])

theorem depth_encodeSummary_le (package : Option Summary) :
    depth (ofOption encodeSummary package) ≤ 3 := by
  cases package with
  | none => simp [ofOption, depth]
  | some summary =>
      have hfiles : depth (.array (summary.files.map encodeFile)) ≤ 2 :=
        depth_array_map_le_iff.2 fun a _ => depth_object_le_iff.2 (by simp [encodePath])
      have hpaths (paths : List Path) : depth (.array (paths.map encodePath)) ≤ 2 :=
        depth_array_map_le_iff.2 fun a _ => by simp [encodePath]
      exact depth_object_le_iff.2 (by simp [hfiles, hpaths])

/-- The brackets of details and notes go no deeper than there is room for them inside of a context.
-/
def IsShallow (context : Context) : Prop :=
  (∀ verdict ∈ context.verdicts, ∀ v ∈ verdict.details, depth v + 3 ≤ nesting) ∧
    ∀ entry ∈ context.metadata, depth entry.2 + 2 ≤ nesting

theorem depth_encodeVerdict_le_iff {verdict : Verdict} {n : Nat} :
    depth (encodeVerdict verdict) ≤ n + 1 ↔ ∀ v ∈ verdict.details, depth v ≤ n := by
  rw [encodeVerdict, depth_object_le_iff]
  cases verdict.details <;> simp [depth]

theorem depth_encodeContext_le_iff : depth (encodeContext context) ≤ nesting ↔
    IsShallow context := by
  have houtcomes : depth (.array (context.outcomes.map encodeOutcome)) ≤ 126 :=
    depth_array_map_le_iff.2 fun a _ => (depth_encodeOutcome_le a).trans (by decide)
  have hcounts := (depth_encodeCounts_le context.counts).trans (by decide : 1 ≤ 126)
  have hpackage := (depth_encodeSummary_le context.package).trans (by decide : 3 ≤ 126)
  have hverdicts : depth (.array (context.verdicts.map encodeVerdict)) ≤ 126 ↔
      ∀ verdict ∈ context.verdicts, ∀ v ∈ verdict.details, depth v ≤ 124 :=
    depth_array_map_le_iff.trans <| forall₂_congr fun _ _ => depth_encodeVerdict_le_iff
  rw [encodeContext, nesting, depth_object_le_iff]
  simp [encodePath, houtcomes, hcounts, hpackage, hverdicts, depth_object_le_iff,
    IsShallow, nesting]

/-- The context that a text spells. -/
def reread (text : List Char) : Option Context :=
  (Cythonizer.Json.Reader.read text).bind decodeContext

theorem reread_compact_iff (h : IsFaithful context) :
    reread (compact (encodeContext context)) = some context ↔ IsShallow context := by
  rw [reread, read_compact (isWhole_encodeContext h), ← depth_encodeContext_le_iff]
  by_cases hdepth : depth (encodeContext context) ≤ nesting
  · simp [hdepth, decodeContext_encodeContext h.details]
  · simp [hdepth]

end Whole

section Steps

/-- What can be done to a context. -/
inductive Step
  | record (outcome : Outcome)
  | setPackage (package : Option Summary)
  | note (name : String) (value : Value)
  | judge (verdict : Verdict)

def Step.apply : Step → Context → Context
  | .record outcome, context => context.record outcome
  | .setPackage package, context => { context with package }
  | .note name value, context => context.note name value
  | .judge verdict, context => { context with verdicts := context.verdicts ++ [verdict] }

/-- A step brings no number with digits behind a point, and no verdict with null for its details. -/
def Step.IsFaithful : Step → Prop
  | .note _ value => IsWhole value
  | .judge verdict => HasDetails verdict
  | _ => True

/-- The context after some steps. -/
def after (steps : List Step) (context : Context) : Context :=
  steps.foldl (fun context step => step.apply context) context

theorem mem_putMetadata {name : String} {value : Value} {metadata : List (String × Value)}
    {entry : String × Value} (h : entry ∈ putMetadata name value metadata) :
    entry = (name, value) ∨ entry ∈ metadata := by
  induction metadata with
  | nil => exact .inl (by simpa [putMetadata] using h)
  | cons first rest ih => grind [putMetadata]

theorem names_putMetadata (name : String) (value : Value) (metadata : List (String × Value)) :
    (putMetadata name value metadata).map Prod.fst =
      if name ∈ metadata.map Prod.fst then metadata.map Prod.fst
      else metadata.map Prod.fst ++ [name] := by
  induction metadata with
  | nil => simp [putMetadata]
  | cons first rest ih => grind [putMetadata]

variable {context : Context}

theorem isFaithful_apply {step : Step} (hstep : step.IsFaithful) (h : IsFaithful context) :
    IsFaithful (step.apply context) := by
  cases step with
  | record outcome => exact ⟨h.details, h.notes⟩
  | setPackage package => exact ⟨h.details, h.notes⟩
  | note name value =>
      refine ⟨h.details, fun entry hentry => ?_⟩
      rcases mem_putMetadata hentry with rfl | hentry
      · exact hstep
      · exact h.notes entry hentry
  | judge verdict =>
      refine ⟨fun other hother => ?_, h.notes⟩
      rcases List.mem_append.1 hother with hother | hother
      · exact h.details other hother
      · exact List.mem_singleton.1 hother ▸ hstep

theorem isFaithful_after {steps : List Step} (hsteps : ∀ step ∈ steps, step.IsFaithful)
    (h : IsFaithful context) : IsFaithful (after steps context) := by
  induction steps generalizing context with
  | nil => exact h
  | cons step steps ih =>
      exact ih (fun other hother => hsteps other (by simp [hother]))
        (isFaithful_apply (hsteps step (by simp)) h)

theorem nodup_names_after {steps : List Step} (h : (context.metadata.map Prod.fst).Nodup) :
    ((after steps context).metadata.map Prod.fst).Nodup := by
  induction steps generalizing context with
  | nil => exact h
  | cons step steps ih =>
      refine ih ?_
      cases step with
      | note name value =>
          simp only [Step.apply, Context.note, names_putMetadata]
          split
          · exact h
          · next hname => exact List.nodup_append.2 ⟨h, by simp, by grind⟩
      | _ => exact h

theorem lookup_eq_some_iff {name : String} {v : Value} {metadata : List (String × Value)}
    (h : (metadata.map Prod.fst).Nodup) :
    metadata.lookup name = some v ↔ (name, v) ∈ metadata := by
  induction metadata with
  | nil => simp
  | cons first rest ih =>
      obtain ⟨hfirst, hrest⟩ := List.nodup_cons.1 h
      by_cases hname : name = first.1
      · have hnone : (name, v) ∉ rest := fun hmem =>
          hfirst (hname ▸ List.mem_map_of_mem (f := Prod.fst) hmem)
        rw [List.lookup_cons, hname, beq_self_eq_true]
        grind
      · rw [List.lookup_cons, beq_eq_false_iff_ne.2 hname, List.mem_cons, ih hrest]
        grind

theorem lookup_eq_of_perm {name : String} {metadata notes : List (String × Value)}
    (h : (metadata.map Prod.fst).Nodup) (hperm : notes.Perm metadata) :
    notes.lookup name = metadata.lookup name := by
  have hnotes : (notes.map Prod.fst).Nodup := (hperm.map Prod.fst).nodup_iff.2 h
  refine Option.ext fun v => ?_
  rw [lookup_eq_some_iff hnotes, lookup_eq_some_iff h, hperm.mem_iff]

/--
Whatever was done to a new context, its text spells that same context exactly if no details and no
note go too deep. The notes may be written in any order, and each of them is found under its name
again.
-/
theorem reread_after (input output : Path) {steps : List Step}
    (hsteps : ∀ step ∈ steps, step.IsFaithful) {notes : List (String × Value)}
    (hnotes : notes.Perm (after steps { input, output }).metadata) :
    (reread (compact (encodeContext { after steps { input, output } with metadata := notes })) =
        some { after steps { input, output } with metadata := notes } ↔
      IsShallow (after steps { input, output })) ∧
      ∀ name, notes.lookup name = (after steps { input, output }).metadata.lookup name := by
  have h : IsFaithful (after steps { input, output }) :=
    isFaithful_after hsteps ⟨by simp, by simp⟩
  have hnodup : ((after steps { input, output }).metadata.map Prod.fst).Nodup :=
    nodup_names_after (by simp)
  have hreordered : IsFaithful { after steps { input, output } with metadata := notes } :=
    ⟨h.details, fun entry hentry => h.notes entry (hnotes.mem_iff.1 hentry)⟩
  have hshallow : IsShallow { after steps { input, output } with metadata := notes } ↔
      IsShallow (after steps { input, output }) := by
    simp [IsShallow, hnotes.mem_iff]
  exact ⟨(reread_compact_iff hreordered).trans hshallow, fun name =>
    lookup_eq_of_perm hnodup hnotes⟩

end Steps

end Cythonizer.Proofs.Pipeline.Serialization
