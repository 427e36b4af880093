import Mathlib.Data.Fintype.Basic
import Cythonizer.Proofs.Toml.Documents
import Cythonizer.Proofs.Workspace.Runs
import Cythonizer.Settings.Loading

namespace Cythonizer.Proofs.Settings.Documents

open Cythonizer.Settings.Basic
open Cythonizer.Settings.Coding
open Cythonizer.Toml.Printer
open Cythonizer.Toml.Values
open Cythonizer.Proofs.Toml.Documents
open Cythonizer.Proofs.Toml.Values

/-- The fields of settings that hold no other ones. -/
inductive Leaf
  | version
  | exclude
  | strictMarker
  | parallelRange
  | program
  | languageLevel
  | boundscheck
  | wraparound
  | nonecheck
  | annotate
  | python
  | numpyInclude
  | auxiliaryFiles
  | requireAuxiliaryFiles
  | validation
  deriving DecidableEq, Repr

instance : Fintype Leaf where
  elems := {.version, .exclude, .strictMarker, .parallelRange, .program,
    .languageLevel, .boundscheck,
    .wraparound, .nonecheck, .annotate, .python, .numpyInclude, .auxiliaryFiles,
    .requireAuxiliaryFiles, .validation}
  complete := by
    intro leaf
    cases leaf <;> decide

/-- The section that a field stands in, if there is one, and its name there. -/
def Leaf.address : Leaf → Option String × String
  | .version => (none, "version")
  | .exclude => (some "source", "exclude")
  | .strictMarker => (some "rewrite", "strict_marker")
  | .parallelRange => (some "rewrite", "parallel_range")
  | .program => (some "compiler", "program")
  | .languageLevel => (some "compiler", "language_level")
  | .boundscheck => (some "compiler", "boundscheck")
  | .wraparound => (some "compiler", "wraparound")
  | .nonecheck => (some "compiler", "nonecheck")
  | .annotate => (some "compiler", "annotate")
  | .python => (some "compiler", "python")
  | .numpyInclude => (some "compiler", "numpy_include")
  | .auxiliaryFiles => (some "packaging", "auxiliary_files")
  | .requireAuxiliaryFiles => (some "packaging", "require_auxiliary_files")
  | .validation => (some "pipeline", "validation")

/-- The value that a field is written as, if it has any. -/
def Leaf.value? (s : Settings) : Leaf → Option Value
  | .version => some (.string s.version)
  | .exclude => some (.array (s.source.exclude.map .string))
  | .strictMarker => some (.string s.conversion.strictMarker)
  | .parallelRange => some (.string s.conversion.parallelRange)
  | .program => some (.string s.compiler.program)
  | .languageLevel => some (.integer s.compiler.languageLevel.toNat)
  | .boundscheck => some (.boolean s.compiler.boundscheck)
  | .wraparound => some (.boolean s.compiler.wraparound)
  | .nonecheck => some (.boolean s.compiler.nonecheck)
  | .annotate => some (.boolean s.compiler.annotate)
  | .python => some (.string s.compiler.python)
  | .numpyInclude => s.compiler.numpyInclude.map encodePath
  | .auxiliaryFiles => some (.array (s.packaging.auxiliaryFiles.map encodePath))
  | .requireAuxiliaryFiles => some (.boolean s.packaging.requireAuxiliaryFiles)
  | .validation => some (.string (Validation.name s.pipeline.validation))

/-- The fields of a section, and none where there is no such section. -/
def fieldsIn (fields : List Field) (name : String) : List Field :=
  match get? fields name with
  | some (.table inner) => inner
  | _ => []

/-- What a document says of a field. -/
def Leaf.find? (fields : List Field) (leaf : Leaf) : Option Value :=
  match leaf.address with
  | (none, name) => get? fields name
  | (some place, name) => get? (fieldsIn fields place) name

/-- A document that has the fields of a set as settings have them, and no other field of settings.
-/
structure Holds (S : Finset Leaf) (s : Settings) (fields : List Field) : Prop where
  leaves : ∀ leaf : Leaf, leaf.find? fields = if leaf ∈ S then leaf.value? s else none
  sections : ∀ leaf : Leaf, ∀ place ∈ leaf.address.1, ∀ v ∈ get? fields place,
    ∃ inner, v = .table inner

variable {S : Finset Leaf} {s : Settings} {fields : List Field}

/-- The settings that a field is taken from. -/
def origin (S : Finset Leaf) (s : Settings) (leaf : Leaf) : Settings :=
  if leaf ∈ S then s else {}

/-- The settings that agree with `s` on the fields of a set, and are the defaults elsewhere. -/
def pick (S : Finset Leaf) (s : Settings) : Settings where
  version := (origin S s .version).version
  source := { exclude := (origin S s .exclude).source.exclude }
  conversion := {
    strictMarker := (origin S s .strictMarker).conversion.strictMarker
    parallelRange := (origin S s .parallelRange).conversion.parallelRange }
  compiler := {
    program := (origin S s .program).compiler.program
    languageLevel := (origin S s .languageLevel).compiler.languageLevel
    boundscheck := (origin S s .boundscheck).compiler.boundscheck
    wraparound := (origin S s .wraparound).compiler.wraparound
    nonecheck := (origin S s .nonecheck).compiler.nonecheck
    annotate := (origin S s .annotate).compiler.annotate
    python := (origin S s .python).compiler.python
    numpyInclude := (origin S s .numpyInclude).compiler.numpyInclude }
  packaging := {
    auxiliaryFiles := (origin S s .auxiliaryFiles).packaging.auxiliaryFiles
    requireAuxiliaryFiles := (origin S s .requireAuxiliaryFiles).packaging.requireAuxiliaryFiles }
  pipeline := { validation := (origin S s .validation).pipeline.validation }

section Decoding

theorem decodeLevel_toNat (level : UInt8) : decodeLevel (.integer level.toNat) = some level := by
  have hlevel : level.toNat < 256 := level.toNat_lt
  have hbounds : (0 : Int) ≤ level.toNat ∧ (level.toNat : Int) < 256 := by omega
  rw [decodeLevel, if_pos hbounds, Int.toNat_natCast, UInt8.ofNat_toNat]

theorem validation?_name (v : Validation) : validation? (Validation.name v) = some v := by
  cases v <;> decide

theorem decodeList_map {α : Type} {decode : Value → Option α} {encode : α → Value} (items : List α)
    (h : ∀ a, decode (encode a) = some a) :
    decodeList decode (.array (items.map encode)) = some items := by
  have hpure := List.mapM_pure (m := Option) (l := items) (f := id)
  simpa [decodeList, List.mapM_map, Function.comp_def, h] using hpure

/-- A field has its value of the settings, or its default where the document does not have it. -/
theorem fieldOr_of_find? {α : Type} {leaf : Leaf} {inner : List Field} (name : String)
    (decode : Value → Option α) (f : Settings → α)
    (hfind : get? inner name = if leaf ∈ S then leaf.value? s else none)
    (hvalue : (leaf.value? s).elim (some (f {})) decode = some (f s)) :
    fieldOr inner name decode (f {}) = some (f (origin S s leaf)) := by
  rw [fieldOr, hfind, origin]
  by_cases hleaf : leaf ∈ S
  · rw [if_pos hleaf, if_pos hleaf, ← hvalue]
    cases leaf.value? s <;> rfl
  · rw [if_neg hleaf, if_neg hleaf]

theorem fieldOr_section {α : Type} (decode : Value → Option α) {default : α} {name : String}
    (h : ∀ v ∈ get? fields name, ∃ inner, v = .table inner)
    (hempty : decode (.table []) = some default) :
    fieldOr fields name decode default = decode (.table (fieldsIn fields name)) := by
  rw [fieldOr, fieldsIn]
  cases hget : get? fields name with
  | none => simp [hempty]
  | some v =>
      obtain ⟨inner, rfl⟩ := h v hget
      rfl

/-- The fields of one section are as those of the settings. -/
def HoldsIn (S : Finset Leaf) (s : Settings) (place : String) (inner : List Field) : Prop :=
  ∀ leaf : Leaf, leaf.address.1 = some place →
    get? inner leaf.address.2 = if leaf ∈ S then leaf.value? s else none

theorem Holds.holdsIn (h : Holds S s fields) (place : String) :
    HoldsIn S s place (fieldsIn fields place) := by
  intro leaf hplace
  rw [← h.leaves leaf, Leaf.find?]
  rcases haddress : leaf.address with ⟨place', name⟩
  obtain rfl : place' = some place := by simpa [haddress] using hplace
  rfl

section Sections

variable {inner : List Field}

theorem decodeSource_of_holdsIn (h : HoldsIn S s "source" inner) :
    decodeSource (.table inner) = some (pick S s).source := by
  have hexclude := fieldOr_of_find? "exclude" (decodeList decodeText) (fun s => s.source.exclude)
    (h .exclude rfl) (decodeList_map _ fun _ => rfl)
  simp [decodeSource, part?, hexclude, pick]

theorem decodeConversion_of_holdsIn (h : HoldsIn S s "rewrite" inner) :
    decodeConversion (.table inner) = some (pick S s).conversion := by
  have hmarker := fieldOr_of_find? "strict_marker" decodeText (fun s => s.conversion.strictMarker)
    (h .strictMarker rfl) rfl
  have hrange := fieldOr_of_find? "parallel_range" decodeText (fun s => s.conversion.parallelRange)
    (h .parallelRange rfl) rfl
  simp [decodeConversion, part?, hmarker, hrange, pick]

theorem decodeCompiler_of_holdsIn (h : HoldsIn S s "compiler" inner) :
    decodeCompiler (.table inner) = some (pick S s).compiler := by
  have hprogram := fieldOr_of_find? "program" decodeText (fun s => s.compiler.program)
    (h .program rfl) rfl
  have hlevel := fieldOr_of_find? "language_level" decodeLevel (fun s => s.compiler.languageLevel)
    (h .languageLevel rfl) (by rw [Leaf.value?, Option.elim_some, decodeLevel_toNat])
  have hbounds := fieldOr_of_find? "boundscheck" decodeFlag (fun s => s.compiler.boundscheck)
    (h .boundscheck rfl) rfl
  have hwrap := fieldOr_of_find? "wraparound" decodeFlag (fun s => s.compiler.wraparound)
    (h .wraparound rfl) rfl
  have hnone := fieldOr_of_find? "nonecheck" decodeFlag (fun s => s.compiler.nonecheck)
    (h .nonecheck rfl) rfl
  have hannotate := fieldOr_of_find? "annotate" decodeFlag (fun s => s.compiler.annotate)
    (h .annotate rfl) rfl
  have hpython := fieldOr_of_find? "python" decodeText (fun s => s.compiler.python)
    (h .python rfl) rfl
  have hnumpy := fieldOr_of_find? "numpy_include" (fun v => (decodePath v).map some)
    (fun s => s.compiler.numpyInclude) (h .numpyInclude rfl)
    (by rw [Leaf.value?]; cases s.compiler.numpyInclude <;> rfl)
  simp [decodeCompiler, part?, hprogram, hlevel, hbounds, hwrap, hnone, hannotate, hpython, hnumpy,
    pick]

theorem decodePackaging_of_holdsIn (h : HoldsIn S s "packaging" inner) :
    decodePackaging (.table inner) = some (pick S s).packaging := by
  have hfiles := fieldOr_of_find? "auxiliary_files" (decodeList decodePath)
    (fun s => s.packaging.auxiliaryFiles) (h .auxiliaryFiles rfl) (decodeList_map _ fun _ => rfl)
  have hrequire := fieldOr_of_find? "require_auxiliary_files" decodeFlag
    (fun s => s.packaging.requireAuxiliaryFiles) (h .requireAuxiliaryFiles rfl) rfl
  simp [decodePackaging, part?, hfiles, hrequire, pick]

theorem decodePipeline_of_holdsIn (h : HoldsIn S s "pipeline" inner) :
    decodePipeline (.table inner) = some (pick S s).pipeline := by
  have hvalidation := fieldOr_of_find? "validation" decodeValidation
    (fun s => s.pipeline.validation) (h .validation rfl) (validation?_name _)
  simp [decodePipeline, part?, hvalidation, pick]

end Sections

theorem decode_of_holds (h : Holds S s fields) : decode fields = some (pick S s) := by
  have hversion := fieldOr_of_find? "version" decodeText (fun s => s.version)
    (h.leaves .version) rfl
  have hsource := (fieldOr_section decodeSource (h.sections .exclude "source" rfl) rfl).trans
    (decodeSource_of_holdsIn (h.holdsIn "source"))
  have hconversion :=
    (fieldOr_section decodeConversion (h.sections .strictMarker "rewrite" rfl) rfl).trans
    (decodeConversion_of_holdsIn (h.holdsIn "rewrite"))
  have hcompiler := (fieldOr_section decodeCompiler (h.sections .program "compiler" rfl) rfl).trans
    (decodeCompiler_of_holdsIn (h.holdsIn "compiler"))
  have hpackaging :=
    (fieldOr_section decodePackaging (h.sections .auxiliaryFiles "packaging" rfl) rfl).trans
    (decodePackaging_of_holdsIn (h.holdsIn "packaging"))
  have hpipeline :=
    (fieldOr_section decodePipeline (h.sections .validation "pipeline" rfl) rfl).trans
    (decodePipeline_of_holdsIn (h.holdsIn "pipeline"))
  simp [decode, hversion, hsource, hconversion, hcompiler, hpackaging, hpipeline, pick]

end Decoding

section Printing

theorem fits_array_map {α : Type} {encode : α → Value} (items : List α) (depth : Nat)
    (h : ∀ a, Fits (encode a) depth) : Fits (.array (items.map encode)) (depth + 1) := by
  rw [Fits]
  induction items with
  | nil => trivial
  | cons a items ih => exact ⟨h a, ih⟩

theorem fits_string (text : String) (depth : Nat) : Fits (.string text) depth := by
  rw [Fits]
  trivial

theorem isPrintable_encode (s : Settings) : IsPrintable (encode s) where
  names := by
    simp [encode, Field.name]
  scalars := ⟨by decide, fits_string _ _, trivial⟩
  sections := by
    have hlevel : Fits (.integer s.compiler.languageLevel.toNat) 79 := by
      have hlt : s.compiler.languageLevel.toNat < 256 := s.compiler.languageLevel.toNat_lt
      rw [Fits, Toml.Scalar.integerBound]
      omega
    have hnames : ∀ name ∈ ["source", "rewrite", "compiler", "packaging", "pipeline"],
        isBareName name.toList = true := by
      decide
    have htexts := fits_array_map s.source.exclude 78 fun text => fits_string text 78
    have hpaths := fits_array_map s.packaging.auxiliaryFiles 78 fun path => fits_string path.text 78
    intro place hplace
    simp only [sectionsOf, encode, List.filterMap_cons, sectionOf?, Field.value, Field.name,
      List.filterMap_nil, List.mem_cons, List.not_mem_nil, or_false] at hplace
    rcases hplace with rfl | rfl | rfl | rfl | rfl
    · exact ⟨hnames _ (by simp), ⟨by decide, htexts, trivial⟩, by simp [Field.name]⟩
    · exact ⟨hnames _ (by simp), ⟨by decide, fits_string _ _, by decide, fits_string _ _, trivial⟩,
        by simp [Field.name]⟩
    · refine ⟨hnames _ (by simp),
        ⟨by decide, fits_string _ _, by decide, hlevel, by decide, trivial, by decide,
        trivial, by decide, trivial, by decide, trivial, by decide, fits_string _ _, ?_⟩, ?_⟩
      · cases s.compiler.numpyInclude with
        | none => trivial
        | some path => exact ⟨by decide, fits_string _ _, trivial⟩
      · cases s.compiler.numpyInclude <;> simp [Field.name]
    · exact ⟨hnames _ (by simp), ⟨by decide, hpaths, by decide, trivial, trivial⟩,
        by simp [Field.name]⟩
    · exact ⟨hnames _ (by simp), ⟨by decide, fits_string _ _, trivial⟩, by simp [Field.name]⟩

theorem holds_encode (s : Settings) : Holds Finset.univ s (encode s) where
  leaves := by
    intro leaf
    rw [if_pos (Finset.mem_univ leaf)]
    cases leaf with
    | numpyInclude =>
        obtain ⟨version, source, conversion, compiler, packaging, pipeline⟩ := s
        obtain ⟨program, level, bounds, wrap, nones, annotate, python, numpy⟩ := compiler
        cases numpy <;> rfl
    | _ => rfl
  sections := by
    have hsource : ∃ inner, get? (encode s) "source" = some (.table inner) := ⟨_, rfl⟩
    have hconversion : ∃ inner, get? (encode s) "rewrite" = some (.table inner) := ⟨_, rfl⟩
    have hcompiler : ∃ inner, get? (encode s) "compiler" = some (.table inner) := ⟨_, rfl⟩
    have hpackaging : ∃ inner, get? (encode s) "packaging" = some (.table inner) := ⟨_, rfl⟩
    have hpipeline : ∃ inner, get? (encode s) "pipeline" = some (.table inner) := ⟨_, rfl⟩
    intro leaf place hplace v hv
    cases leaf <;> cases hplace <;> simp_all

theorem pick_univ (s : Settings) : pick Finset.univ s = s := by
  simp [pick, origin]

theorem Holds.arranged (h : Holds S s fields) (hnames : (fields.map Field.name).Nodup) :
    Holds S s (arranged fields) := by
  have hget := get?_arranged hnames
  refine ⟨fun leaf => ?_, fun leaf place hplace v hv => ?_⟩
  · rw [← h.leaves leaf, Leaf.find?, Leaf.find?]
    simp only [fieldsIn, hget]
  · rw [hget] at hv
    exact h.sections leaf place hplace v hv

theorem read_of_holds {text : String} (h : Holds S s fields)
    (hread : Toml.Reader.read text.toList = some fields) : read text = .ok (pick S s) := by
  simp [Settings.Coding.read, hread, decode_of_holds h]

end Printing

end Cythonizer.Proofs.Settings.Documents
