import Mathlib.Algebra.GroupWithZero.Nat
import Cythonizer.Proofs.Pipeline.Stages

/-!
What a context holds when outcomes have been recorded: the outcomes as they came, the sums of their
counts, and one record for each path that was optimized, in the order in which the paths came first
and with the text that came last (`IsFolded`).
-/

namespace Cythonizer.Proofs.Pipeline.Records

open Cythonizer.Outline.Conversion
open Cythonizer.Pipeline.Context
open Cythonizer.Proofs.Outline.Counting
open Cythonizer.Proofs.Pipeline.Optimization
open Cythonizer.Proofs.Pipeline.Stages
open Cythonizer.Proofs.Project.Modules

/-- A new context in which outcomes have been recorded, one after another. -/
def recorded (input output : Path) (outcomes : List Outcome) : Context :=
  outcomes.foldl Context.record { input, output }

theorem recorded_eq (input output : Path) (outcomes : List Outcome) :
    recorded input output outcomes = { input, output, outcomes, counts := total outcomes } := by
  rw [recorded, foldl_record]
  congr 1
  exact zero_add (total outcomes)

section Counts

theorem counts_of_not_isOptimized {outcome : Outcome} (h : ¬outcome.isOptimized = true) :
    outcome.counts = {} := by
  cases outcome with
  | optimized source emitted compiled counts => exact absurd rfl h
  | skipped source reason => rfl

theorem toNat_total {field : Counts → UInt64} (hzero : field {} = 0)
    (hadd : ∀ a b, field (a + b) = field a + field b) (outcomes : List Outcome) :
    (field (total outcomes)).toNat =
      ((outcomes.filter Outcome.isOptimized).map fun outcome => (field outcome.counts).toNat).sum %
        UInt64.size := by
  induction outcomes with
  | nil =>
      change (field {}).toNat = _
      rw [hzero]
      rfl
  | cons outcome rest ih =>
      change (field (outcome.counts + total rest)).toNat = _
      rw [hadd, UInt64.toNat_add, ih, Nat.add_mod_mod]
      by_cases hoptimized : outcome.isOptimized = true
      · rw [List.filter_cons_of_pos hoptimized, List.map_cons, List.sum_cons]
      · rw [List.filter_cons_of_neg hoptimized, counts_of_not_isOptimized hoptimized, hzero]
        simp

theorem total_of_perm {outcomes others : List Outcome} (h : outcomes.Perm others) :
    total outcomes = total others := by
  have hsum : ∀ outcomes, total outcomes = (outcomes.map Outcome.counts).sum := fun outcomes => by
    induction outcomes with
    | nil => rfl
    | cons outcome rest ih =>
        rw [List.map_cons, List.sum_cons, ← ih]
        rfl
  rw [hsum, hsum, (h.map _).sum_eq]

end Counts

section Keys

theorem keys_addRecord (source : Path) (emitted : String) (records : List (Path × String)) :
    (addRecord source emitted records).map Prod.fst =
      if (records.map Prod.fst).any (·.same source) then records.map Prod.fst
      else records.map Prod.fst ++ [source] := by
  induction records with
  | nil => rfl
  | cons record rest ih =>
      rw [addRecord]
      cases hsame : record.1.same source with
      | true => simp [hsame]
      | false =>
          rw [if_neg Bool.false_ne_true, List.map_cons, List.map_cons, ih]
          simp only [List.any_cons, hsame, Bool.false_or]
          split <;> rfl

/-- The paths after more texts: those from before, then the new ones as they come first. -/
theorem keys_foldl (texts records : List (Path × String)) :
    (texts.foldl (fun records entry => addRecord entry.1 entry.2 records) records).map Prod.fst =
      records.map Prod.fst ++
        ((texts.map Prod.fst).filter fun path =>
          !(records.map Prod.fst).any (·.same path)).eraseDupsBy Path.same := by
  induction texts generalizing records with
  | nil => simp
  | cons text rest ih =>
      rw [List.foldl_cons, ih, keys_addRecord, List.map_cons]
      by_cases hknown : (records.map Prod.fst).any (·.same text.1) = true
      · rw [if_pos hknown, List.filter_cons_of_neg (by simp [hknown])]
      · rw [if_neg hknown, List.filter_cons_of_pos (by simpa using hknown), List.eraseDupsBy_cons,
          List.append_assoc, List.singleton_append, List.filter_filter]
        congr 3
        apply List.filter_congr
        intro path _
        simp only [List.any_append, List.any_cons, List.any_nil, Bool.or_false, Bool.not_or,
          same_comm text.1,
          Bool.and_comm, Bool.decide_eq_false]

theorem pairwise_addRecord {records : List (Path × String)} (source : Path) (emitted : String)
    (h : (records.map Prod.fst).Pairwise fun a b => a.same b = false) :
    ((addRecord source emitted records).map Prod.fst).Pairwise fun a b => a.same b = false := by
  rw [keys_addRecord]
  split
  · exact h
  · rename_i hnew
    refine List.pairwise_append.mpr
      ⟨h, List.pairwise_singleton _ _, fun path hpath other hother => ?_⟩
    obtain rfl := List.mem_singleton.mp hother
    simpa using fun hsame => hnew (List.any_eq_true.mpr ⟨path, hpath, hsame⟩)

theorem pairwise_recordsOf (texts : List (Path × String)) :
    ((recordsOf texts).map Prod.fst).Pairwise fun a b => a.same b = false := by
  have hstart : (([] : List (Path × String)).map Prod.fst).Pairwise fun a b =>
    a.same b = false := .nil
  refine List.foldlRecOn (motive := fun records : List (Path × String) =>
    (records.map Prod.fst).Pairwise fun a b => a.same b = false) texts _ hstart ?_
  exact fun records hrecords text _ => pairwise_addRecord text.1 text.2 hrecords

end Keys

section Texts

theorem same_trans_left {a b : Path} (h : a.same b = true) (path : Path) :
    a.same path = b.same path := by
  have hcomponents : a.components = b.components := eq_of_beq h
  rw [Path.same, Path.same, hcomponents]

/-- The text of a path, among records or among texts. -/
def textAt? (path : Path) (records : List (Path × String)) : Option String :=
  (records.find? (·.1.same path)).map Prod.snd

theorem textAt?_addRecord (path source : Path) (emitted : String) (records : List (Path × String)) :
    textAt? path (addRecord source emitted records) =
      if source.same path then some emitted else textAt? path records := by
  induction records with
  | nil =>
      rw [addRecord, textAt?, List.find?_singleton]
      split <;> rfl
  | cons record rest ih =>
      rw [addRecord]
      by_cases hsource : record.1.same source = true
      · rw [if_pos hsource, textAt?, textAt?, List.find?_cons, List.find?_cons]
        dsimp only
        rw [← same_trans_left hsource path]
        cases record.1.same path <;> rfl
      · rw [if_neg hsource, textAt?, textAt?, List.find?_cons, List.find?_cons]
        cases hpath : record.1.same path with
        | true =>
            rw [if_neg ?_]
            intro hother
            rw [same_comm, ← same_trans_left hpath] at hother
            exact hsource hother
        | false => exact ih

theorem textAt?_recordsOf (path : Path) (texts : List (Path × String)) :
    textAt? path (recordsOf texts) = textAt? path texts.reverse := by
  have hfold : ∀ records, textAt? path
      (texts.foldl (fun records entry => addRecord entry.1 entry.2 records) records) =
        (textAt? path texts.reverse).or (textAt? path records) := by
    induction texts with
    | nil => exact fun records => rfl
    | cons text rest ih =>
        intro records
        rw [List.foldl_cons, ih, textAt?_addRecord, List.reverse_cons, textAt?, textAt?, textAt?,
          List.find?_append, Option.map_or, Option.or_assoc, List.find?_singleton]
        split <;> rfl
  rw [recordsOf, hfold]
  exact Option.or_none

theorem textAt?_of_mem {records : List (Path × String)}
    (hdistinct : (records.map Prod.fst).Pairwise fun a b => a.same b = false)
    {record : Path × String}
    (hrecord : record ∈ records) : textAt? record.1 records = some record.2 := by
  cases hfound : records.find? (·.1.same record.1) with
  | none =>
      have hself := List.find?_eq_none.mp hfound record hrecord
      exact absurd (beq_self_eq_true _) hself
  | some other =>
      have hsame := List.find?_some hfound
      rw [textAt?, hfound, eq_of_same hdistinct (List.mem_of_find?_eq_some hfound) hrecord hsame]
      rfl

/-- The text of a path among texts in reverse is of the last outcome for the path that was
optimized. -/
theorem exists_last_of_textAt? {outcomes : List Outcome} {path : Path} {text : String}
    (h : textAt? path (outcomes.filterMap Outcome.record?).reverse = some text) :
    ∃ before source compiled counts later,
      outcomes = before ++ .optimized source text compiled counts :: later ∧
        source.same path = true ∧
      ∀ outcome ∈ later, outcome.isOptimized → outcome.source.same path = false := by
  rw [textAt?, ← List.filterMap_reverse, List.find?_filterMap] at h
  obtain ⟨record, hrecord, rfl⟩ := Option.map_eq_some_iff.mp h
  obtain ⟨last, hlast, hlastRecord⟩ := Option.bind_eq_some_iff.mp hrecord
  obtain ⟨hsame, later, before, hreverse, hlater⟩ := List.find?_eq_some_iff_append.mp hlast
  cases last with
  | skipped source reason => cases hlastRecord
  | optimized source emitted compiled counts =>
      cases hlastRecord
      refine ⟨before.reverse, source, compiled, counts, later.reverse, ?_, hsame, ?_⟩
      · simpa using congrArg List.reverse hreverse
      · intro outcome houtcome hoptimized
        have hother := hlater outcome (List.mem_reverse.mp houtcome)
        cases outcome with
        | optimized other emitted' compiled' counts' =>
          simpa [Outcome.record?, Outcome.source] using hother
        | skipped other reason => cases hoptimized

end Texts

section Folded

/-- What a context holds that outcomes have been recorded in. -/
structure IsFolded (outcomes : List Outcome) (context : Context) : Prop where
  outcomes_eq : context.outcomes = outcomes
  counts : ∀ field ∈ [Counts.functions, Counts.strictFunctions, Counts.renamedParameters,
    Counts.parallelLoops],
    (field context.counts).toNat =
      ((outcomes.filter Outcome.isOptimized).map fun outcome =>
        (field outcome.counts).toNat).sum % UInt64.size
  /-- One record for each path that was optimized, spelled and placed as it came first. -/
  keys : context.records.map Prod.fst =
    ((outcomes.filter Outcome.isOptimized).map Outcome.source).eraseDupsBy Path.same
  distinct : (context.records.map Prod.fst).Pairwise fun a b => a.same b = false
  /-- The text of a record is the one that came last for its path. -/
  texts : ∀ record ∈ context.records, ∃ before source compiled counts later,
    outcomes = before ++ .optimized source record.2 compiled counts :: later ∧
      source.same record.1 = true ∧
    ∀ outcome ∈ later, outcome.isOptimized → outcome.source.same record.1 = false

theorem isFolded_recorded (input output : Path) (outcomes : List Outcome) :
    IsFolded outcomes (recorded input output outcomes) := by
  rw [recorded_eq]
  exact
    { outcomes_eq := rfl
      counts := by
        intro field hfield
        simp only [List.mem_cons, List.not_mem_nil, or_false] at hfield
        obtain rfl | rfl | rfl | rfl := hfield
        all_goals exact toNat_total rfl (fun _ _ => rfl) outcomes
      keys := by
        have hkeys := keys_foldl (outcomes.filterMap Outcome.record?) []
        rw [← map_source_record?]
        simp only [List.map_nil, List.any_nil, Bool.not_false, List.filter_true,
          List.nil_append] at hkeys
        exact hkeys
      distinct := pairwise_recordsOf _
      texts := fun record hrecord => by
        have htext := textAt?_of_mem (pairwise_recordsOf _) hrecord
        rw [textAt?_recordsOf] at htext
        exact exists_last_of_textAt? htext }

theorem records_filter (input output : Path) (outcomes : List Outcome) :
    (recorded input output (outcomes.filter Outcome.isOptimized)).records =
      (recorded input output outcomes).records := by
  have hnone : ∀ outcomes : List Outcome,
      (outcomes.filter Outcome.isOptimized).filterMap Outcome.record? =
        outcomes.filterMap Outcome.record? := by
    intro outcomes
    rw [List.filterMap_filter]
    congr 1
    funext outcome
    cases outcome <;> rfl
  rw [recorded_eq, recorded_eq]
  exact congrArg recordsOf (hnone outcomes)

/-- Outcomes are folded into a context: it holds them, the sum of what they count and one record for
each path. Skipped ones do not matter for the records, and the order does not matter for the sum. -/
theorem folds (input output : Path) (outcomes : List Outcome) :
    IsFolded outcomes (recorded input output outcomes) ∧
    (recorded input output (outcomes.filter Outcome.isOptimized)).records =
      (recorded input output outcomes).records ∧
    ∀ others, outcomes.Perm others →
      (recorded input output others).counts = (recorded input output outcomes).counts := by
  refine ⟨isFolded_recorded input output outcomes, records_filter input output outcomes,
    fun others hperm => ?_⟩
  rw [recorded_eq, recorded_eq]
  exact (total_of_perm hperm).symm

/-- A file that is optimized twice, in two spellings of its path, and skipped in between. -/
def twice : List Outcome :=
  [.optimized ⟨"p//a.py"⟩ "first" true { functions := 1 }, .optimized ⟨"p/b.py"⟩ "other" false {},
    .skipped ⟨"p/a.py"⟩ "unreadable", .optimized ⟨"p/a.py"⟩ "last" true
      { functions := 18446744073709551615 }]

theorem folds_twice :
    IsFolded twice (recorded ⟨"p"⟩ ⟨"out"⟩ twice) ∧
    (recorded ⟨"p"⟩ ⟨"out"⟩ twice).records = [(⟨"p//a.py"⟩, "last"), (⟨"p/b.py"⟩, "other")] ∧
    (recorded ⟨"p"⟩ ⟨"out"⟩ twice).counts = {} ∧
    (recorded ⟨"p"⟩ ⟨"out"⟩ twice.reverse).counts = (recorded ⟨"p"⟩ ⟨"out"⟩ twice).counts :=
  ⟨(folds ⟨"p"⟩ ⟨"out"⟩ twice).1, by decide +kernel, by decide +kernel,
    (folds ⟨"p"⟩ ⟨"out"⟩ twice).2.2 twice.reverse (List.reverse_perm twice).symm⟩

end Folded

end Cythonizer.Proofs.Pipeline.Records
