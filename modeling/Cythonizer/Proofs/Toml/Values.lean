import Cythonizer.Proofs.Toml.Scalars
import Cythonizer.Proofs.Toml.Tables
import Cythonizer.Toml.Reader

namespace Cythonizer.Proofs.Toml.Values

open Cythonizer.Toml.Blank
open Cythonizer.Toml.Printer
open Cythonizer.Toml.Quoted
open Cythonizer.Toml.Scalar
open Cythonizer.Toml.Tables (Key inlineFields)
open Cythonizer.Toml.Values
open Cythonizer.Proofs.Text.Digits
open Cythonizer.Proofs.Toml.Scalars
open Cythonizer.Proofs.Toml.Tables

variable {rest : List Char}

section Keys

variable {name : String} {more : List Char}

theorem isBare_of_mem (hname : isBareName name.toList = true) {c : Char} (hc : c ∈ name.toList) :
    isBare c = true := by
  simp only [isBareName, Bool.and_eq_true] at hname
  exact List.all_eq_true.1 hname.2 c hc

theorem exists_cons_of_isBareName (hname : isBareName name.toList = true) :
    ∃ c more, name.toList = c :: more ∧ isBare c = true := by
  have hne : name.toList.isEmpty = false := by
    simp only [isBareName, Bool.and_eq_true, Bool.not_eq_true'] at hname
    exact hname.1
  obtain ⟨c, more, hc⟩ := List.exists_cons_of_ne_nil (List.isEmpty_eq_false_iff.1 hne)
  exact ⟨c, more, hc, isBare_of_mem hname (by simp [hc])⟩

theorem name_of_isBareName (hname : isBareName name.toList = true)
    (h : ∀ c ∈ rest.head?, isBare c = false) :
    Toml.Quoted.name (name.toList ++ rest) = some (name, rest) := by
  have hall : ∀ c ∈ name.toList, isBare c = true := fun c hc => isBare_of_mem hname hc
  obtain ⟨c, after, hc, -⟩ := exists_cons_of_isBareName hname
  rw [Toml.Quoted.name, takeWhile_front hall h, dropWhile_front hall h]
  rw [← String.ofList_toList (s := name), hc]
  simp

theorem skipBlanks_cons {c : Char} (h : isBlank c = false) :
    skipBlanks (c :: more) = c :: more := by
  simp [skipBlanks, h]

theorem skipBlanks_name (hname : isBareName name.toList = true) :
    skipBlanks (name.toList ++ rest) = name.toList ++ rest := by
  obtain ⟨c, after, hc, hbare⟩ := exists_cons_of_isBareName hname
  have hblank : isBlank c = false := by
    by_contra hblank
    simp only [isBlank, Bool.not_eq_false, Bool.or_eq_true, beq_iff_eq] at hblank
    rcases hblank with rfl | rfl <;> simp [isBare] at hbare
  rw [hc, List.cons_append, skipBlanks_cons hblank]

theorem names_of_isBareName {c : Char} {count : Nat} (hname : isBareName name.toList = true)
    (hhead : ∀ c ∈ rest.head?, isBare c = false) (hrest : skipBlanks rest = c :: more)
    (hc : c ≠ '.') : names (count + 1) (name.toList ++ rest) = some ([name], c :: more) := by
  simp [names, skipBlanks_name hname, name_of_isBareName hname hhead, hrest, hc]

theorem key_of_isBareName {c : Char} (hname : isBareName name.toList = true)
    (hhead : ∀ c ∈ rest.head?, isBare c = false) (hrest : skipBlanks rest = c :: more)
    (hc : c ≠ '.') :
    Toml.Quoted.key (name.toList ++ rest) = some ({ path := [], name }, c :: more) := by
  have hnames : names maxDepth (name.toList ++ rest) = some ([name], c :: more) :=
    names_of_isBareName hname hhead hrest hc
  simp [Toml.Quoted.key, hnames]

theorem names_blank (count : Nat) (text : List Char) :
    names count (' ' :: text) = names count text := by
  have hskip : skipBlanks (' ' :: text) = skipBlanks text := by simp [skipBlanks, isBlank]
  cases count with
  | zero => rfl
  | succ count => rw [names, names, hskip]

theorem key_blank (text : List Char) : Toml.Quoted.key (' ' :: text) = Toml.Quoted.key text := by
  rw [Toml.Quoted.key, Toml.Quoted.key, names_blank]

theorem assignment_blank (item : List Char → Option (Value × List Char)) (text : List Char) :
    Toml.Reader.assignment item (' ' :: text) = Toml.Reader.assignment item text := by
  rw [Toml.Reader.assignment, Toml.Reader.assignment, key_blank]

end Keys

section Nested

mutual

/-- A value that is read as it is written, in at most so many brackets. -/
def Fits : Value → Nat → Prop
  | .string _, _ => True
  | .integer n, _ => -integerBound ≤ n ∧ n < integerBound
  | .boolean _, _ => True
  | .array vs, depth + 1 => FitAll vs depth
  | .table fs, depth + 1 => FieldsFit fs depth ∧ (fs.map Field.name).Nodup
  | _, _ => False

def FitAll : List Value → Nat → Prop
  | [], _ => True
  | v :: vs, depth => Fits v depth ∧ FitAll vs depth

def FieldsFit : List Field → Nat → Prop
  | [], _ => True
  | .field name v :: fs, depth =>
    isBareName name.toList = true ∧ Fits v depth ∧ FieldsFit fs depth

end

theorem quote_eq_cons (text : List Char) :
    ∃ c more, quote text = c :: more ∧ (c = '"' ∨ c = '\'') := by
  unfold quote
  simp only []
  repeat' split
  all_goals first
    | exact ⟨'"', _, rfl, .inl rfl⟩
    | exact ⟨'\'', _, rfl, .inr rfl⟩

theorem value_array (v w : Value) (vs : List Value) :
    Toml.Printer.value (.array (v :: w :: vs)) =
      '[' :: Toml.Printer.elements (v :: w :: vs) ++ ['\n', ']'] := by
  rw [Toml.Printer.value]
  · simp
  · simp

theorem value_table (f : Field) (fs : List Field) :
    Toml.Printer.value (.table (f :: fs)) =
      '\x7b' :: Toml.Printer.fields (f :: fs) ++ [' ', '\x7d'] := by
  rw [Toml.Printer.value]
  simp

theorem fields_cons_cons (name : String) (v : Value) (f : Field) (fs : List Field) :
    Toml.Printer.fields (.field name v :: f :: fs) =
      ' ' :: Toml.Printer.key name ++ [' ', '=', ' '] ++ Toml.Printer.value v ++
        ',' :: Toml.Printer.fields (f :: fs) := by
  rw [Toml.Printer.fields]
  simp

theorem length_le_length_elements (vs : List Value) :
    vs.length ≤ (Toml.Printer.elements vs).length := by
  induction vs with
  | nil => simp
  | cons v vs ih =>
      simp only [Toml.Printer.elements, List.length_append, List.length_cons]
      omega

theorem length_le_length_fields (fs : List Field) :
    fs.length ≤ (Toml.Printer.fields fs).length := by
  induction fs with
  | nil => simp
  | cons f fs ih =>
      obtain ⟨name, v⟩ := f
      cases fs with
      | nil => simp [Toml.Printer.fields]
      | cons g fs =>
          simp only [fields_cons_cons, List.length_append, List.length_cons] at ih ⊢
          omega

theorem value_eq_cons {v : Value} {depth : Nat} (h : Fits v depth) :
    ∃ c more, Toml.Printer.value v = c :: more ∧ c ∉ [' ', '\t', '\n', '\r', '#', ']', '\x7d'] := by
  cases v with
  | string text =>
      obtain ⟨c, more, hc, hquote⟩ := quote_eq_cons text.toList
      refine ⟨c, more, by rw [Toml.Printer.value, hc], ?_⟩
      rcases hquote with rfl | rfl <;> decide
  | integer n =>
      obtain ⟨c, more, hc, hfirst⟩ := integerText_eq_cons n
      refine ⟨c, more, by rw [Toml.Printer.value, toList_toString, hc], ?_⟩
      intro hmem
      simp only [List.mem_cons, List.not_mem_nil, or_false] at hmem
      rcases hmem with rfl | rfl | rfl | rfl | rfl | rfl | rfl <;> simp at hfirst
  | boolean b => cases b <;> exact ⟨_, _, rfl, by decide⟩
  | array vs =>
      rcases vs with _ | ⟨w, _ | ⟨u, vs⟩⟩
      · exact ⟨_, _, rfl, by decide⟩
      · exact ⟨_, _, by rw [Toml.Printer.value]; rfl, by decide⟩
      · exact ⟨_, _, by rw [value_array]; rfl, by decide⟩
  | table fs =>
      rcases fs with _ | ⟨f, fs⟩
      · exact ⟨_, _, rfl, by decide⟩
      · exact ⟨_, _, by rw [value_table]; rfl, by decide⟩
  | float text => cases depth <;> exact h.elim
  | dateTime text => cases depth <;> exact h.elim

theorem skipLines_cons {c : Char} {more : List Char} (h : c ∉ [' ', '\t', '\n', '\r', '#']) :
    skipLines (c :: more) = some (c :: more) := by
  simp only [List.mem_cons, List.not_mem_nil, or_false, not_or] at h
  rw [skipLines.eq_def]
  split <;> simp_all [isBlank]

theorem skipLines_margin (text : List Char) :
    skipLines ('\n' :: ' ' :: ' ' :: ' ' :: ' ' :: text) = skipLines text := by
  simp [skipLines, isBlank]

theorem skipLines_newline (text : List Char) : skipLines ('\n' :: text) = skipLines text := by
  simp [skipLines]

theorem skipLines_value {v : Value} {depth : Nat} (h : Fits v depth) :
    skipLines (Toml.Printer.value v ++ rest) = some (Toml.Printer.value v ++ rest) := by
  obtain ⟨c, more, hc, hfirst⟩ := value_eq_cons h
  rw [hc, List.cons_append, skipLines_cons (by simp_all)]

theorem value_of_scalar {text : List Char} {depth : Nat}
    (h : ∀ c ∈ text.head?, c ≠ '[' ∧ c ≠ '\x7b') : Toml.Reader.value depth text = scalar text := by
  cases depth with
  | zero => rfl
  | succ depth =>
      rw [Toml.Reader.value]
      · rintro more rfl
        exact (h '[' (by simp)).1 rfl
      · rintro more rfl
        exact (h '\x7b' (by simp)).2 rfl

/-- A key and its value, up to what stands behind the value. -/
theorem assignment_field {name : String} {v : Value} {depth : Nat}
    (hname : isBareName name.toList = true) (h : Fits v depth)
    (hvalue : Toml.Reader.value depth (Toml.Printer.value v ++ rest) = some (v, rest)) :
    Toml.Reader.assignment (Toml.Reader.value depth)
        (Toml.Printer.key name ++ ' ' :: '=' :: ' ' :: (Toml.Printer.value v ++ rest)) =
      some (assignmentOf (.field name v), rest) := by
  have hkey : Toml.Quoted.key
        (name.toList ++ ' ' :: '=' :: ' ' :: (Toml.Printer.value v ++ rest)) =
      some ({ path := [], name }, '=' :: ' ' :: (Toml.Printer.value v ++ rest)) :=
    key_of_isBareName hname (by simp [isBare]) (by simp [skipBlanks, isBlank]) (by decide)
  obtain ⟨c, more, hc, hfirst⟩ := value_eq_cons h
  have hblank : skipBlanks (' ' :: (Toml.Printer.value v ++ rest)) =
    Toml.Printer.value v ++ rest := by
    have hc' : isBlank c = false := by simp_all [isBlank]
    rw [hc, List.cons_append, skipBlanks, List.dropWhile_cons_of_pos rfl, ← skipBlanks,
      skipBlanks_cons hc']
  rw [Toml.Printer.key, if_pos hname, Toml.Reader.assignment, hkey]
  simp [hblank, hvalue, assignmentOf, Field.name, Field.value]

section Lists

variable {item : List Char → Option (Value × List Char)} {fuel : Nat} {v : Value}
  {pair : Key × Value} {text after more : List Char}

theorem elements_close (h : skipLines text = some (']' :: rest)) :
    Toml.Reader.elements item (fuel + 1) text = some ([], rest) := by
  simp [Toml.Reader.elements, h]

theorem elements_last (hskip : skipLines text = some more) (hmore : more.head? ≠ some ']')
    (hitem : item more = some (v, after)) (hclose : skipLines after = some (']' :: rest)) :
    Toml.Reader.elements item (fuel + 1) text = some ([v], rest) := by
  have hne : ∀ rest, more ≠ ']' :: rest := fun rest heq => hmore (by simp [heq])
  simp [Toml.Reader.elements, hskip, hitem, hclose]

theorem elements_comma (hskip : skipLines text = some more) (hmore : more.head? ≠ some ']')
    (hitem : item more = some (v, after)) (hcomma : skipLines after = some (',' :: rest)) :
    Toml.Reader.elements item (fuel + 1) text =
      (Toml.Reader.elements item fuel rest).map fun found => (v :: found.1, found.2) := by
  have hne : ∀ rest, more ≠ ']' :: rest := fun rest heq => hmore (by simp [heq])
  cases hfound : Toml.Reader.elements item fuel rest <;>
    simp [Toml.Reader.elements, hskip, hitem, hcomma, hfound]

theorem assignments_last (hpair : Toml.Reader.assignment item text = some (pair, after))
    (hclose : skipBlanks after = '\x7d' :: rest) :
    Toml.Reader.assignments item (fuel + 1) text = some ([pair], rest) := by
  simp [Toml.Reader.assignments, hpair, hclose]

theorem assignments_comma (fuel : Nat)
    (hpair : Toml.Reader.assignment item text = some (pair, after))
    (hcomma : skipBlanks after = ',' :: rest) :
    Toml.Reader.assignments item (fuel + 1) text =
      (Toml.Reader.assignments item fuel rest).map fun found => (pair :: found.1, found.2) := by
  cases hfound : Toml.Reader.assignments item fuel rest <;>
    simp [Toml.Reader.assignments, hpair, hcomma, hfound]

theorem value_bracket {depth : Nat} {vs : List Value}
    (h : Toml.Reader.elements (Toml.Reader.value depth) (text.length + 1) text = some (vs, rest)) :
    Toml.Reader.value (depth + 1) ('[' :: text) = some (.array vs, rest) := by
  simp [Toml.Reader.value, h]

theorem value_brace {depth : Nat} {fs : List Field} {c : Char} (hskip : skipBlanks text = c :: more)
    (hc : c ≠ '\x7d') (hnames : (fs.map Field.name).Nodup)
    (h : Toml.Reader.assignments (Toml.Reader.value depth) (text.length + 1) text =
      some (fs.map assignmentOf, rest)) :
    Toml.Reader.value (depth + 1) ('\x7b' :: text) = some (.table fs, rest) := by
  simp [Toml.Reader.value, hskip, hc, h, inlineFields_map_assignmentOf hnames]

end Lists

theorem skipBlanks_close (rest : List Char) :
    skipBlanks (' ' :: '\x7d' :: rest) = '\x7d' :: rest := by
  simp [skipBlanks, isBlank]

theorem skipBlanks_fields {f : Field} {fs : List Field} {depth : Nat}
    (h : FieldsFit (f :: fs) depth)
    (rest : List Char) :
    ∃ c more, skipBlanks (Toml.Printer.fields (f :: fs) ++ rest) = c :: more ∧ c ≠ '\x7d' := by
  obtain ⟨name, v⟩ := f
  have hname : isBareName name.toList = true := h.1
  have hfields : ∃ after, Toml.Printer.fields (.field name v :: fs) = ' ' ::
    (name.toList ++ after) := by
    cases fs with
    | nil =>
        refine ⟨' ' :: '=' :: ' ' :: Toml.Printer.value v, ?_⟩
        simp [Toml.Printer.fields, Toml.Printer.key, hname]
    | cons f fs =>
        refine ⟨' ' :: '=' :: ' ' :: (Toml.Printer.value v ++ ',' :: Toml.Printer.fields (f :: fs)),
          ?_⟩
        simp [fields_cons_cons, Toml.Printer.key, hname]
  obtain ⟨after, hafter⟩ := hfields
  obtain ⟨c, more, hc, hbare⟩ := exists_cons_of_isBareName hname
  refine ⟨c, more ++ (after ++ rest), ?_, ?_⟩
  · rw [hafter, List.cons_append, skipBlanks, List.dropWhile_cons_of_pos rfl, ← skipBlanks,
      List.append_assoc, skipBlanks_name hname, hc, List.cons_append]
  · rintro rfl
    simp [isBare] at hbare

theorem value_string (text : String) (depth : Nat) (hrest : Ends rest) :
    Toml.Reader.value depth (Toml.Printer.value (.string text) ++ rest) =
      some (.string text, rest) := by
  rw [Toml.Printer.value, value_of_scalar, scalar_quote text hrest]
  obtain ⟨c, more, hc, hquote⟩ := quote_eq_cons text.toList
  rcases hquote with rfl | rfl <;> simp [hc]

theorem value_integer {n : Int} (depth : Nat) (h : -integerBound ≤ n ∧ n < integerBound)
    (hrest : Ends rest) :
    Toml.Reader.value depth (Toml.Printer.value (.integer n) ++ rest) =
      some (.integer n, rest) := by
  rw [Toml.Printer.value, toList_toString, value_of_scalar, scalar_integer hrest h]
  obtain ⟨c, more, hc, hfirst⟩ := integerText_eq_cons n
  simp only [hc, List.cons_append, List.head?_cons, Option.mem_some_iff, forall_eq']
  constructor <;> rintro rfl <;> simp at hfirst

theorem value_boolean (b : Bool) (depth : Nat) :
    Toml.Reader.value depth (Toml.Printer.value (.boolean b) ++ rest) =
      some (.boolean b, rest) := by
  rw [value_of_scalar, scalar_boolean]
  cases b <;> simp [Toml.Printer.value]

theorem head?_value {v : Value} {depth : Nat} (h : Fits v depth) (rest : List Char) :
    (Toml.Printer.value v ++ rest).head? ≠ some ']' := by
  obtain ⟨c, more, hc, hfirst⟩ := value_eq_cons h
  have hne : c ≠ ']' := fun h => hfirst (by simp [h])
  simpa [hc] using hne

theorem value_single {v : Value} {depth : Nat} (h : Fits v depth)
    (hv : Toml.Reader.value depth (Toml.Printer.value v ++ ']' :: rest) = some (v, ']' :: rest)) :
    Toml.Reader.value (depth + 1) (Toml.Printer.value (.array [v]) ++ rest) =
      some (.array [v], rest) := by
  rw [Toml.Printer.value, List.cons_append, List.cons_append, List.append_assoc]
  exact value_bracket
    (elements_last (skipLines_value h) (head?_value h _) hv (skipLines_cons (by decide)))

/-- A value and the values behind it, each on a line of its own. -/
theorem elements_value {v : Value} {vs : List Value} {depth fuel : Nat} (h : Fits v depth)
    (hv : Toml.Reader.value depth
        (Toml.Printer.value v ++ ',' :: (Toml.Printer.elements vs ++ '\n' :: ']' :: rest)) =
      some (v, ',' :: (Toml.Printer.elements vs ++ '\n' :: ']' :: rest)))
    (hvs : Toml.Reader.elements (Toml.Reader.value depth) fuel
        (Toml.Printer.elements vs ++ '\n' :: ']' :: rest) = some (vs, rest)) :
    Toml.Reader.elements (Toml.Reader.value depth) (fuel + 1)
      (Toml.Printer.elements (v :: vs) ++ '\n' :: ']' :: rest) = some (v :: vs, rest) := by
  have hskip : skipLines (Toml.Printer.elements (v :: vs) ++ '\n' :: ']' :: rest) =
      some (Toml.Printer.value v ++ ',' :: (Toml.Printer.elements vs ++ '\n' :: ']' :: rest)) := by
    simp [Toml.Printer.elements, skipLines_margin, skipLines_value h]
  rw [elements_comma hskip (head?_value h _) hv (skipLines_cons (by decide)), hvs, Option.map_some]

theorem assignments_single {name : String} {v : Value} {depth fuel : Nat}
    (hname : isBareName name.toList = true) (h : Fits v depth)
    (hv : Toml.Reader.value depth (Toml.Printer.value v ++ ' ' :: '\x7d' :: rest) =
      some (v, ' ' :: '\x7d' :: rest)) :
    Toml.Reader.assignments (Toml.Reader.value depth) (fuel + 1)
        (Toml.Printer.fields [.field name v] ++ ' ' :: '\x7d' :: rest) =
      some ([assignmentOf (.field name v)], rest) := by
  have hpair := assignment_field hname h hv
  rw [← assignment_blank] at hpair
  refine (congrArg _ ?_).trans (assignments_last hpair (skipBlanks_close rest))
  simp [Toml.Printer.fields]

theorem assignments_value {name : String} {v : Value} {f : Field} {fs : List Field}
    {depth fuel : Nat}
    (hname : isBareName name.toList = true) (h : Fits v depth)
    (hv : Toml.Reader.value depth
        (Toml.Printer.value v ++ ',' :: (Toml.Printer.fields (f :: fs) ++ ' ' :: '\x7d' :: rest)) =
      some (v, ',' :: (Toml.Printer.fields (f :: fs) ++ ' ' :: '\x7d' :: rest)))
    (hfs : Toml.Reader.assignments (Toml.Reader.value depth) fuel
        (Toml.Printer.fields (f :: fs) ++ ' ' :: '\x7d' :: rest) =
      some ((f :: fs).map assignmentOf, rest)) :
    Toml.Reader.assignments (Toml.Reader.value depth) (fuel + 1)
        (Toml.Printer.fields (.field name v :: f :: fs) ++ ' ' :: '\x7d' :: rest) =
      some ((.field name v :: f :: fs).map assignmentOf, rest) := by
  have hpair := assignment_field hname h hv
  rw [← assignment_blank] at hpair
  have hcomma := assignments_comma fuel hpair (skipBlanks_cons (by decide))
  rw [hfs, Option.map_some] at hcomma
  refine (congrArg _ ?_).trans hcomma
  simp [fields_cons_cons]

mutual

theorem value_value : ∀ (v : Value) (depth : Nat) (rest : List Char), Fits v depth → Ends rest →
    Toml.Reader.value depth (Toml.Printer.value v ++ rest) = some (v, rest)
  | .string text, depth, rest, _, hrest => value_string text depth hrest
  | .integer n, depth, rest, h, hrest => value_integer depth h hrest
  | .boolean b, depth, rest, _, _ => value_boolean b depth
  | .array [], depth + 1, rest, _, _ => by
      rw [Toml.Printer.value, List.cons_append, List.singleton_append]
      exact value_bracket (elements_close (skipLines_cons (by decide)))
  | .array [v], depth + 1, rest, h, _ =>
      value_single h.1 (value_value v depth (']' :: rest) h.1 (ends_cons (by decide)))
  | .array (v :: w :: vs), depth + 1, rest, h, _ => by
      have hlength := length_le_length_elements (v :: w :: vs)
      rw [value_array, List.cons_append, List.cons_append, List.append_assoc]
      refine value_bracket (elements_elements (v :: w :: vs) depth _ rest h ?_)
      simp only [List.length_append]
      omega
  | .table [], depth + 1, rest, _, _ => by
      simp [Toml.Printer.value, Toml.Reader.value, skipBlanks, isBlank]
  | .table (f :: fs), depth + 1, rest, h, _ => by
      have hlength := length_le_length_fields (f :: fs)
      obtain ⟨c, more, hskip, hc⟩ := skipBlanks_fields h.1 (' ' :: '\x7d' :: rest)
      have hfields := assignments_fields f fs depth
        ((Toml.Printer.fields (f :: fs) ++ ' ' :: '\x7d' :: rest).length + 1) rest h.1
        (by simp only [List.length_append, List.length_cons] at *; omega)
      rw [value_table, List.cons_append, List.cons_append, List.append_assoc]
      exact value_brace hskip hc h.2 hfields
  | .float _, depth, rest, h, _ => by
      cases depth <;> exact h.elim
  | .dateTime _, depth, rest, h, _ => by
      cases depth <;> exact h.elim
  | .array _, 0, rest, h, _ => h.elim
  | .table _, 0, rest, h, _ => h.elim
termination_by v => sizeOf v

theorem elements_elements : ∀ (vs : List Value) (depth fuel : Nat) (rest : List Char),
    FitAll vs depth → vs.length < fuel →
      Toml.Reader.elements (Toml.Reader.value depth) fuel
        (Toml.Printer.elements vs ++ '\n' :: ']' :: rest) = some (vs, rest)
  | vs, depth, 0, rest, _, hfuel => absurd hfuel (Nat.not_lt_zero _)
  | [], depth, fuel + 1, rest, _, _ => by
      refine elements_close ?_
      rw [Toml.Printer.elements, List.nil_append, skipLines_newline, skipLines_cons (by decide)]
  | v :: vs, depth, fuel + 1, rest, h, hfuel =>
      elements_value h.1 (value_value v depth _ h.1 (ends_cons (by decide)))
        (elements_elements vs depth fuel rest h.2 (Nat.lt_of_succ_lt_succ hfuel))
termination_by vs => sizeOf vs

theorem assignments_fields : ∀ (f : Field) (fs : List Field) (depth fuel : Nat) (rest : List Char),
    FieldsFit (f :: fs) depth → fs.length < fuel →
      Toml.Reader.assignments (Toml.Reader.value depth) fuel
        (Toml.Printer.fields (f :: fs) ++ ' ' :: '\x7d' :: rest) =
          some ((f :: fs).map assignmentOf, rest)
  | f, fs, depth, 0, rest, _, hfuel => absurd hfuel (Nat.not_lt_zero _)
  | .field name v, [], depth, fuel + 1, rest, h, _ =>
      assignments_single h.1 h.2.1 (value_value v depth _ h.2.1 (ends_cons (by decide)))
  | .field name v, f :: fs, depth, fuel + 1, rest, h, hfuel =>
      assignments_value h.1 h.2.1 (value_value v depth _ h.2.1 (ends_cons (by decide)))
        (assignments_fields f fs depth fuel rest h.2.2 (Nat.lt_of_succ_lt_succ hfuel))
termination_by f fs => sizeOf f + sizeOf fs

end

end Nested

end Cythonizer.Proofs.Toml.Values
