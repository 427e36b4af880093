import Cythonizer.Proofs.Settings.Documents
import Cythonizer.Proofs.Workspace.Runs
import Cythonizer.Settings.Loading

/-!
The settings file of a project. Loading it changes nothing, and gives back the settings that were
printed into it.
-/

namespace Cythonizer.Proofs.Settings.Loading

open Cythonizer.FileTree.Access
open Cythonizer.Settings.Coding
open Cythonizer.Settings.Loading
open Cythonizer.Toml.Printer
open Cythonizer.Toml.Values
open Cythonizer.Proofs.Settings.Documents
open Cythonizer.Proofs.Toml.Documents
open Cythonizer.Proofs.Workspace.Runs

variable {w : Workspace} {project : Path} {text : String} {s : Settings}

/-- A file that may be read and holds a text. -/
def HasText (w : Workspace) (path : Path) (text : String) : Prop :=
  FileTree.Access.readText w.files w.here path = .ok text

theorem HasText.holds {path : Path} (h : HasText w path text) :
    holds w.files w.here path = true := by
  rw [HasText, FileTree.Access.readText, readBytes] at h
  rw [FileTree.Access.holds]
  cases hfind : find w.files w.here path with
  | ok found => rfl
  | error error =>
      rw [isUnreadable, hfind] at h
      cases h

theorem hasText_of_bytes {path : Path} (hreadable : isUnreadable w.files w.here path = false)
    (h : readBytes w.files w.here path = .ok text.toUTF8) : HasText w path text := by
  have hback : String.fromUTF8? text.toUTF8 = some text := by
    rw [String.fromUTF8?, String.toUTF8_eq_toByteArray, dif_pos text.isValidUTF8]
    rfl
  rw [HasText, FileTree.Access.readText, if_neg (by simp [hreadable]), h]
  simp only [hback]

/-- How loading settings goes. It reads, and changes nothing. -/
theorem attempted_load (w : Workspace) (project : Path) :
    attempted (load project) w =
      (if holds w.files w.here (settingsPath project) then
        match FileTree.Access.readText w.files w.here (settingsPath project) with
        | .ok text =>
          match Settings.Coding.read text with
          | .ok settings => .ok settings
          | .error fault => .error (.badSettings (settingsPath project) fault.message)
        | .error error => .error (.file (settingsPath project) error)
      else .ok {}, w) := by
  unfold load
  rw [attempted_bind, attempted_get]
  dsimp only
  split
  · rw [attempted_bind, attempted_onPath, attempted_readText]
    cases FileTree.Access.readText w.files w.here (settingsPath project) with
    | error error => rfl
    | ok text =>
        dsimp only [Except.mapError]
        cases Settings.Coding.read text <;> rfl
  · rfl

theorem attempted_load_of_read (h : HasText w (settingsPath project) text)
    (hread : Settings.Coding.read text = .ok s) : attempted (load project) w = (.ok s, w) := by
  rw [HasText] at h
  simp only [attempted_load, HasText.holds h, h, hread, if_true]

/--
A settings file that holds what settings are printed as gives them back. One that holds only some
fields of them, next to anything under other names, gives these fields and the defaults of all
others, however its text is laid out.
-/
theorem load_of_hasText (h : HasText w (settingsPath project) text) (s : Settings) :
    (text = print s → attempted (load project) w = (.ok s, w)) ∧
      ∀ (S : Finset Leaf) (fields : List Field), Holds S s fields →
        Toml.Reader.read text.toList = some fields ∨
          IsPrintable fields ∧ text = String.ofList (document fields) →
        attempted (load project) w = (.ok (pick S s), w) := by
  have hpart (S : Finset Leaf) (fields : List Field) (hfields : Holds S s fields)
      (hread : Toml.Reader.read text.toList = some fields) :
      attempted (load project) w = (.ok (pick S s), w) :=
    attempted_load_of_read h (read_of_holds hfields hread)
  have hprinted (S : Finset Leaf) (fields : List Field) (hfields : Holds S s fields)
      (hprintable : IsPrintable fields) (htext : text = String.ofList (document fields)) :
      attempted (load project) w = (.ok (pick S s), w) := by
    refine hpart S _ (hfields.arranged hprintable.names) ?_
    rw [htext, String.toList_ofList, read_document hprintable]
  refine ⟨fun htext => ?_, fun S fields hfields htext => ?_⟩
  · have hall := hprinted Finset.univ _ (holds_encode s) (isPrintable_encode s) htext
    rwa [pick_univ] at hall
  · rcases htext with hread | ⟨hprintable, htext⟩
    · exact hpart S fields hfields hread
    · exact hprinted S fields hfields hprintable htext

/-- A project with nothing but a settings file. -/
def projectOf (text : String) : Workspace :=
  { files := { entries := [(["p"], .directory), (["cyopt.toml", "p"], .file text.toUTF8 false)] } }

def awkward : Settings :=
  { version := "\"\"\"\n\\", conversion := { strictMarker := "'\t'" },
    compiler := { languageLevel := 255, annotate := false, numpyInclude := some { text := "" } } }

def remarks : String :=
  "# remarks\nowner = 1\n[compiler]\nannotate = false\nextra = [ 1, # one\n 2 ]\n"

def remarked : List Field :=
  [.field "owner" (.integer 1), .field "compiler" (.table
    [.field "annotate" (.boolean false), .field "extra" (.array [.integer 1, .integer 2])])]

/-- Whether a document has the fields of `remarked`, which can be evaluated. -/
def isRemarked : List Field → Bool
  | [.field "owner" (.integer 1), .field "compiler" (.table
      [.field "annotate" (.boolean false), .field "extra" (.array [.integer 1, .integer 2])])] =>
    true
  | _ => false

theorem eq_remarked {fields : List Field} (h : isRemarked fields = true) : fields = remarked := by
  unfold isRemarked at h
  split at h
  · rfl
  · cases h

theorem holds_remarked : Holds {.annotate} awkward remarked where
  leaves leaf := by
    cases leaf <;>
      simp [remarked, Leaf.find?, Leaf.address, fieldsIn, get?, Field.name,
        Field.value, Leaf.value?,
        awkward]
  sections leaf place hplace v hv := by
    cases leaf <;> cases hplace <;> simp [remarked, get?, Field.name, Field.value] at hv <;>
      exact ⟨_, hv.symm⟩

theorem load_awkward_or_remarks :
    HasText (projectOf (print awkward)) (settingsPath { text := "p" }) (print awkward) ∧
      attempted (load { text := "p" }) (projectOf (print awkward)) =
        (.ok awkward, projectOf (print awkward)) ∧
      attempted (load { text := "p" }) (projectOf remarks) =
        (.ok { compiler := { annotate := false } }, projectOf remarks) := by
  have hfile (text : String) : HasText (projectOf text) (settingsPath { text := "p" }) text :=
    hasText_of_bytes rfl rfl
  have hread : Toml.Reader.read remarks.toList = some remarked := by
    have hevaluated : (Toml.Reader.read remarks.toList).any isRemarked = true := by decide +kernel
    obtain ⟨fields, hfields, hsame⟩ := (Option.any_eq_true _ _).mp hevaluated
    rw [hfields, eq_remarked hsame]
  have hpick : pick {.annotate} awkward = { compiler := { annotate := false } } := by decide
  have hremarks := (load_of_hasText (hfile _) awkward).2 {.annotate} _ holds_remarked (.inl hread)
  rw [hpick] at hremarks
  exact ⟨hfile _, (load_of_hasText (hfile _) awkward).1 rfl, hremarks⟩

end Cythonizer.Proofs.Settings.Loading
