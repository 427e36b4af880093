import Cythonizer.Proofs.Toml.Values

namespace Cythonizer.Proofs.Toml.Documents

open Cythonizer.Toml.Blank
open Cythonizer.Toml.Printer
open Cythonizer.Toml.Quoted
open Cythonizer.Toml.Reader
open Cythonizer.Toml.Tables (Entry Item Key Table)
open Cythonizer.Toml.Values
open Cythonizer.Proofs.Toml.Scalars
open Cythonizer.Proofs.Toml.Tables
open Cythonizer.Proofs.Toml.Values

section Lines

variable {rest : List Char}

/-- The line of a field that is no section. -/
def lineOf (f : Field) : Line :=
  .assignment (assignmentOf f).1 (assignmentOf f).2

/-- A text spells these lines, however much fuel there is beyond its length. -/
def Spells (text : List Char) (found : List Line) : Prop :=
  ∀ fuel, text.length < fuel → lines fuel text = some found

/-- A piece of text that adds these lines in front of any others. -/
def Writes (text : List Char) (found : List Line) : Prop :=
  ∀ rest more, Spells rest more → Spells (text ++ rest) (found ++ more)

theorem spells_nil : Spells [] [] := by
  intro fuel hfuel
  obtain ⟨fuel, rfl⟩ := Nat.exists_eq_succ_of_ne_zero (Nat.ne_of_gt (Nat.zero_lt_of_lt hfuel))
  simp [lines, skipBlanks]

theorem Writes.append {front back : List Char} {first second : List Line}
    (hfront : Writes front first)
    (hback : Writes back second) : Writes (front ++ back) (first ++ second) := by
  intro rest more h
  rw [List.append_assoc, List.append_assoc]
  exact hfront _ _ (hback _ _ h)

theorem writes_nil : Writes [] [] := fun _ _ h => h

theorem writes_newline : Writes ['\n'] [] := by
  intro rest more h fuel hfuel
  obtain ⟨fuel, rfl⟩ := Nat.exists_eq_succ_of_ne_zero (Nat.ne_of_gt (Nat.zero_lt_of_lt hfuel))
  have hrest := h fuel (by simpa using hfuel)
  simp [lines, skipBlanks, isBlank, lineEnd?, newline?, hrest]

theorem writes_intercalate {blocks : List (List Char × List Line)}
    (h : ∀ block ∈ blocks, Writes block.1 block.2) :
    Writes (['\n'].intercalate (blocks.map Prod.fst)) (blocks.flatMap Prod.snd) := by
  induction blocks with
  | nil => exact writes_nil
  | cons block blocks ih =>
      have hblock := h block (by simp)
      have hblocks := ih fun other hother => h other (by simp [hother])
      cases blocks with
      | nil => simpa [List.intercalate_singleton] using hblock
      | cons next blocks =>
          rw [List.map_cons, List.map_cons, List.intercalate_cons_cons, List.flatMap_cons]
          simpa using (hblock.append writes_newline).append hblocks

/-- What a line does that starts with a character of its own. -/
theorem spells_of_line {text : List Char} {c : Char} {more : List Char} {found : Line}
    {others : List Line} (htext : text = c :: more) (hc : c ∉ [' ', '\t', '\n', '\r', '#'])
    (hline : line text = some (found, rest)) (hlength : rest.length < text.length)
    (h : Spells rest others) : Spells text (found :: others) := by
  intro fuel hfuel
  obtain ⟨fuel, rfl⟩ := Nat.exists_eq_succ_of_ne_zero (Nat.ne_of_gt (Nat.zero_lt_of_lt hfuel))
  have hrest := h fuel (by omega)
  subst htext
  simp only [List.mem_cons, List.not_mem_nil, or_false, not_or] at hc
  have hskip : skipBlanks (c :: more) = c :: more := skipBlanks_cons (by simp [isBlank, hc])
  simp [lines, hskip, hc, hline, hrest]

theorem lineEnd?_newline (text : List Char) : lineEnd? ('\n' :: text) = some text := by
  simp [lineEnd?, skipBlanks, isBlank, newline?]

theorem isBare_ne {c : Char} (h : isBare c = true) : c ∉ [' ', '\t', '\n', '\r', '#', '['] := by
  intro hc
  simp only [List.mem_cons, List.not_mem_nil, or_false] at hc
  rcases hc with rfl | rfl | rfl | rfl | rfl | rfl <;> simp [isBare] at h

theorem line_of_ne {c : Char} {more after : List Char} {pair : Key × Value} (hc : c ≠ '[')
    (h : assignment (Toml.Reader.value maxDepth) (c :: more) = some (pair, after))
    (hend : lineEnd? after = some rest) :
    Toml.Reader.line (c :: more) = some (.assignment pair.1 pair.2, rest) := by
  rw [Toml.Reader.line.eq_def]
  split
  · next heq => exact absurd (List.cons.inj heq).1 hc
  · next heq => exact absurd (List.cons.inj heq).1 hc
  · simp [h, hend]

theorem writes_line {name : String} {v : Value} (hname : isBareName name.toList = true)
    (h : Fits v maxDepth) :
      Writes (Toml.Printer.line (.field name v)) [lineOf (.field name v)] := by
  intro rest others hrest
  obtain ⟨c, more, hc, hbare⟩ := exists_cons_of_isBareName hname
  have hne := isBare_ne hbare
  have hvalue := value_value v maxDepth ('\n' :: rest) h (ends_cons (by simp))
  have hassignment := assignment_field hname h hvalue
  have htext : Toml.Printer.line (.field name v) ++ rest = Toml.Printer.key name ++
      ' ' :: '=' :: ' ' :: (Toml.Printer.value v ++ '\n' :: rest) := by
    simp [Toml.Printer.line, Field.name, Field.value]
  rw [← htext] at hassignment
  have hcons : Toml.Printer.line (.field name v) ++ rest =
      c :: (more ++ ' ' :: '=' :: ' ' :: (Toml.Printer.value v ++ '\n' :: rest)) := by
    rw [htext, Toml.Printer.key, if_pos hname, hc, List.cons_append]
  have hline : Toml.Reader.line (Toml.Printer.line (.field name v) ++ rest) =
      some (lineOf (.field name v), rest) := by
    rw [hcons] at hassignment ⊢
    exact line_of_ne (by simp_all) hassignment (lineEnd?_newline rest)
  refine spells_of_line hcons (by simp_all) hline ?_ hrest
  simp [htext]
  omega

theorem writes_header {name : String} (hname : isBareName name.toList = true) :
    Writes ('[' :: Toml.Printer.key name ++ [']', '\n']) [.header { path := [], name }] := by
  intro rest others hrest
  obtain ⟨c, more, hc, hbare⟩ := exists_cons_of_isBareName hname
  have hne := isBare_ne hbare
  have hkey : Toml.Quoted.key (name.toList ++ ']' :: '\n' :: rest) =
      some ({ path := [], name }, ']' :: '\n' :: rest) :=
    key_of_isBareName hname (by simp [isBare]) (skipBlanks_cons rfl) (by decide)
  have htext : '[' :: Toml.Printer.key name ++ [']', '\n'] ++ rest =
      '[' :: (name.toList ++ ']' :: '\n' :: rest) := by
    simp [Toml.Printer.key, hname]
  have hline : Toml.Reader.line ('[' :: (name.toList ++ ']' :: '\n' :: rest)) =
      some (.header { path := [], name }, rest) := by
    rw [hc, List.cons_append] at hkey ⊢
    rw [Toml.Reader.line.eq_def]
    split
    · next heq => simp_all
    · next heq =>
        obtain rfl := (List.cons.inj heq).2
        simp [hkey, lineEnd?_newline]
    · next hno => exact absurd rfl (hno _)
  rw [htext]
  refine spells_of_line rfl (by decide) hline ?_ hrest
  simp
  omega

end Lines

section Drafts

variable {entries inner : List Entry} {name : String} {opened : List String}

/-- The entry of a section. -/
def sectionEntry (name : String) (inner : List Entry) : Entry :=
  .entry name (.table (.table .defined inner))

theorem add_lineOf {f : Field} (h : ∀ e ∈ entries, e.name ≠ f.name) :
    Draft.add { root := .table .defined entries, open? := [] } (lineOf f) =
      some { root := .table .defined (entries ++ [entryOf f]), open? := [] } := by
  simp [Draft.add, lineOf, Table.change, assign_of_fresh h]

theorem add_header (h : ∀ e ∈ entries, e.name ≠ name) :
    Draft.add { root := .table .defined entries, open? := opened } (.header { path := [], name }) =
      some { root := .table .defined (entries ++ [sectionEntry name []]), open? := [name] } := by
  have hfind := find?_of_fresh .defined h
  simp [Draft.add, Table.change, Table.openTable, hfind, Table.put,
    putEntry_of_fresh h, sectionEntry,
    Table.empty]

theorem add_lineOf_section {f : Field} (hname : ∀ e ∈ entries, e.name ≠ name)
    (h : ∀ e ∈ inner, e.name ≠ f.name) :
    Draft.add { root := .table .defined (entries ++ [sectionEntry name inner]), open? := [name] }
        (lineOf f) =
      some {
        root := .table .defined (entries ++ [sectionEntry name (inner ++ [entryOf f])])
        open? := [name] } := by
  have hfind := find?_last .defined (.table (.table .defined inner)) hname
  simp [Draft.add, lineOf, sectionEntry, Table.change, hfind, assign_of_fresh h, Table.put,
    putEntry_last hname]

theorem foldlM_lineOf {fs : List Field} (hnames : (fs.map Field.name).Nodup) :
    (fs.map lineOf).foldlM Draft.add {} =
      some { root := .table .defined (fs.map entryOf), open? := [] } := by
  have hfold := foldlM_fields (fun d f => Draft.add d (lineOf f))
    (fun entries => { root := .table .defined entries, open? := [] }) []
    (fun f entries h => add_lineOf h) hnames (by simp)
  rw [List.foldlM_map]
  exact hfold

/-- The lines of a section. -/
def sectionLines (s : String × List Field) : List Line :=
  .header { path := [], name := s.1 } :: s.2.map lineOf

theorem foldlM_sectionLines {s : String × List Field} (hname : ∀ e ∈ entries, e.name ≠ s.1)
    (hnames : (s.2.map Field.name).Nodup) :
    (sectionLines s).foldlM Draft.add { root := .table .defined entries, open? := opened } =
      some {
        root := .table .defined (entries ++ [sectionEntry s.1 (s.2.map entryOf)])
        open? := [s.1] } := by
  have hfold := foldlM_fields (fun d f => Draft.add d (lineOf f))
    (fun inner => { root := .table .defined (entries ++ [sectionEntry s.1 inner]), open? := [s.1] })
    [] (fun f inner h => add_lineOf_section hname h) hnames (by simp)
  rw [sectionLines, List.foldlM_cons, add_header hname]
  simpa [List.foldlM_map] using hfold

theorem foldlM_sections (entries : List Entry) (opened : List String)
    {sections : List (String × List Field)}
    (hdistinct : (sections.map Prod.fst).Nodup)
    (hfresh : ∀ s ∈ sections, ∀ e ∈ entries, e.name ≠ s.1)
    (hnames : ∀ s ∈ sections, (s.2.map Field.name).Nodup) :
    ∃ last, (sections.flatMap sectionLines).foldlM Draft.add
        { root := .table .defined entries, open? := opened } =
      some {
        root := .table .defined (entries ++ sections.map fun s =>
          sectionEntry s.1 (s.2.map entryOf))
        open? := last } := by
  induction sections generalizing entries opened with
  | nil => exact ⟨opened, by simp⟩
  | cons s sections ih =>
      obtain ⟨hs, hsections⟩ := List.nodup_cons.1 hdistinct
      have hnext : ∀ t ∈ sections, ∀ e ∈ entries ++ [sectionEntry s.1 (s.2.map entryOf)],
          e.name ≠ t.1 := by
        intro t ht e he
        rcases List.mem_append.1 he with he | he
        · exact hfresh t (by simp [ht]) e he
        · obtain rfl := List.mem_singleton.1 he
          exact fun h => hs (List.mem_map.2 ⟨t, ht, h.symm⟩)
      obtain ⟨last, hlast⟩ := ih _ [s.1] hsections hnext fun t ht => hnames t (by simp [ht])
      refine ⟨last, ?_⟩
      rw [List.flatMap_cons, List.foldlM_append,
        foldlM_sectionLines (hfresh s (by simp)) (hnames s (by simp))]
      simpa using hlast

end Drafts

section Documents

variable {fs : List Field}

/-- The name and the fields of a section. -/
def sectionOf? (f : Field) : Option (String × List Field) :=
  match f.value with
  | .table fields => some (f.name, fields)
  | _ => none

def sectionText (s : String × List Field) : List Char :=
  '[' :: Toml.Printer.key s.1 ++ [']', '\n'] ++ s.2.flatMap Toml.Printer.line

theorem section?_eq (f : Field) : section? f = (sectionOf? f).map sectionText := by
  obtain ⟨name, v⟩ := f
  cases v <;> simp [section?, sectionOf?, sectionText, Field.value, Field.name]

def scalarsOf (fs : List Field) : List Field :=
  fs.filter fun f => (sectionOf? f).isNone

def sectionsOf (fs : List Field) : List (String × List Field) :=
  fs.filterMap sectionOf?

/-- The fields of a document in the order in which they are written. -/
def arranged (fs : List Field) : List Field :=
  scalarsOf fs ++ (sectionsOf fs).map fun s => .field s.1 (.table s.2)

/-- A document that is read as it is written. -/
structure IsPrintable (fs : List Field) : Prop where
  names : (fs.map Field.name).Nodup
  scalars : FieldsFit (scalarsOf fs) maxDepth
  sections : ∀ s ∈ sectionsOf fs, isBareName s.1.toList = true ∧ FieldsFit s.2 maxDepth ∧
    (s.2.map Field.name).Nodup

/-- The lines of a document, blank ones apart. -/
def linesOf (fs : List Field) : List Line :=
  (scalarsOf fs).map lineOf ++ (sectionsOf fs).flatMap sectionLines

theorem writes_lines {fields : List Field} (h : FieldsFit fields maxDepth) :
    Writes (fields.flatMap Toml.Printer.line) (fields.map lineOf) := by
  induction fields with
  | nil => exact writes_nil
  | cons f fields ih =>
      obtain ⟨name, v⟩ := f
      exact (writes_line h.1 h.2.1).append (ih h.2.2)

theorem line_ne_nil (f : Field) : Toml.Printer.line f ≠ [] := by
  simp [Toml.Printer.line]

theorem document_eq (fs : List Field) :
    document fs = ['\n'].intercalate
      ((if scalarsOf fs = [] then [] else [(scalarsOf fs).flatMap Toml.Printer.line]) ++
        (sectionsOf fs).map sectionText) := by
  have hscalars : (fs.filter fun f => (section? f).isNone) = scalarsOf fs :=
    List.filter_congr fun f _ => by simp [section?_eq]
  have hsections : fs.filterMap section? = (sectionsOf fs).map sectionText := by
    rw [sectionsOf, List.map_filterMap]
    exact List.filterMap_congr fun f _ => section?_eq f
  have hempty : ((scalarsOf fs).flatMap Toml.Printer.line).isEmpty =
    decide (scalarsOf fs = []) := by
    cases hfs : scalarsOf fs with
    | nil => rfl
    | cons f others => simp [line_ne_nil]
  simp only [document, hscalars, hsections, hempty, decide_eq_true_eq]

theorem writes_section {s : String × List Field}
    (h : isBareName s.1.toList = true ∧ FieldsFit s.2 maxDepth) :
    Writes (sectionText s) (sectionLines s) :=
  (writes_header h.1).append (writes_lines h.2)

theorem writes_document (h : IsPrintable fs) : Writes (document fs) (linesOf fs) := by
  have hsections : ∀ block ∈ (sectionsOf fs).map fun s => (sectionText s, sectionLines s),
      Writes block.1 block.2 := by
    intro block hblock
    obtain ⟨s, hs, rfl⟩ := List.mem_map.1 hblock
    obtain ⟨hname, hfields, -⟩ := h.sections s hs
    exact writes_section ⟨hname, hfields⟩
  have hscalars := writes_lines h.scalars
  rw [document_eq, linesOf]
  split
  · next hnil =>
      rw [hnil]
      simpa [List.flatMap_map, Function.comp_def] using writes_intercalate hsections
  · have hblocks : ∀ block ∈
        ((scalarsOf fs).flatMap Toml.Printer.line, (scalarsOf fs).map lineOf) ::
          (sectionsOf fs).map fun s => (sectionText s, sectionLines s),
        Writes block.1 block.2 := by
      intro block hblock
      rcases List.mem_cons.1 hblock with rfl | hblock
      · exact hscalars
      · exact hsections block hblock
    simpa [List.flatMap_map, Function.comp_def] using writes_intercalate hblocks

theorem lines_mark (fuel : Nat) (text : List Char) : lines fuel ('\ufeff' :: text) = none := by
  have hskip : skipBlanks ('\ufeff' :: text) = '\ufeff' :: text := skipBlanks_cons (by decide)
  have hname : Toml.Quoted.name ('\ufeff' :: text) = none := by
    simp [Toml.Quoted.name, isBare, lineString]
  have hnames (count : Nat) : names count ('\ufeff' :: text) = none := by
    cases count with
    | zero => rfl
    | succ count => simp [names, hskip, hname]
  have hline : Toml.Reader.line ('\ufeff' :: text) = none := by
    simp [Toml.Reader.line, assignment, Toml.Quoted.key, hnames]
  cases fuel with
  | zero => rfl
  | succ fuel => simp [lines, hskip, hline]

theorem sectionOf?_eq_some {f : Field} {s : String × List Field} (h : sectionOf? f = some s) :
    f = .field s.1 (.table s.2) := by
  obtain ⟨name, v⟩ := f
  cases v with
  | table fields =>
      obtain rfl := Option.some.inj h
      rfl
  | _ => exact absurd h (by simp [sectionOf?, Field.value])

theorem map_sectionsOf (fs : List Field) :
    ((sectionsOf fs).map fun s => Field.field s.1 (.table s.2)) =
      fs.filter fun f => (sectionOf? f).isSome := by
  induction fs with
  | nil => rfl
  | cons f fs ih =>
      cases hf : sectionOf? f with
      | none => simpa [sectionsOf, hf] using ih
      | some s => simpa [sectionsOf, hf, ← sectionOf?_eq_some hf] using ih

theorem arranged_perm (fs : List Field) : (arranged fs).Perm fs := by
  have hsome : (fun f : Field => (sectionOf? f).isSome) = fun f => !(sectionOf? f).isNone := by
    funext f
    cases sectionOf? f <;> rfl
  rw [arranged, map_sectionsOf, hsome, scalarsOf]
  exact List.filter_append_perm _ fs

theorem nodup_names_sectionsOf (h : (fs.map Field.name).Nodup) :
    ((sectionsOf fs).map Prod.fst).Nodup := by
  have hnames : (sectionsOf fs).map Prod.fst =
      (fs.filter fun f => (sectionOf? f).isSome).map Field.name := by
    rw [← map_sectionsOf, List.map_map]
    rfl
  rw [hnames]
  exact h.sublist (List.filter_sublist.map Field.name)

theorem name_ne_of_mem (h : (fs.map Field.name).Nodup) {f : Field} (hf : f ∈ scalarsOf fs)
    {s : String × List Field} (hs : s ∈ sectionsOf fs) : f.name ≠ s.1 := by
  obtain ⟨hmem, hnone⟩ := List.mem_filter.1 hf
  obtain ⟨g, hg, hsome⟩ := List.mem_filterMap.1 hs
  have hname : g.name = s.1 := by rw [sectionOf?_eq_some hsome]; rfl
  intro heq
  obtain rfl := List.inj_on_of_nodup_map h hmem hg (heq.trans hname.symm)
  simp [hsome] at hnone

theorem get?_eq_some_iff (h : (fs.map Field.name).Nodup) {name : String} {v : Value} :
    get? fs name = some v ↔ .field name v ∈ fs := by
  constructor
  · intro hget
    obtain ⟨f, hfind, rfl⟩ := Option.map_eq_some_iff.1 hget
    have hname : f.name = name := by simpa using List.find?_some hfind
    obtain ⟨other, v⟩ := f
    exact hname ▸ List.mem_of_find?_eq_some hfind
  · intro hmem
    cases hget : fs.find? fun f => f.name = name with
    | none =>
        have hno := List.find?_eq_none.1 hget _ hmem
        simp [Field.name] at hno
    | some f =>
        have hname : f.name = name := by simpa using List.find?_some hget
        have hf := List.inj_on_of_nodup_map h (List.mem_of_find?_eq_some hget) hmem hname
        rw [get?, hget, hf]
        rfl

theorem get?_arranged (h : (fs.map Field.name).Nodup) (name : String) :
    get? (arranged fs) name = get? fs name := by
  have hperm := arranged_perm fs
  have harranged : ((arranged fs).map Field.name).Nodup := (hperm.map Field.name).nodup_iff.2 h
  refine Option.ext fun v => ?_
  rw [get?_eq_some_iff harranged, get?_eq_some_iff h, hperm.mem_iff]

theorem fieldsOf_sections (sections : List (String × List Field)) :
    Cythonizer.Toml.Tables.fieldsOf (sections.map fun s => sectionEntry s.1 (s.2.map entryOf)) =
      sections.map fun s => .field s.1 (.table s.2) := by
  induction sections with
  | nil => rfl
  | cons s sections ih =>
      simp [sectionEntry, Cythonizer.Toml.Tables.fieldsOf,
        Cythonizer.Toml.Tables.valueOf, Table.fields,
        fieldsOf_map_entryOf, ← ih]

theorem read_document (h : IsPrintable fs) :
    Toml.Reader.read (document fs) = some (arranged fs) := by
  have hspells := writes_document h [] [] spells_nil
  rw [List.append_nil, List.append_nil] at hspells
  have hlines : lines ((document fs).length + 1) (document fs) = some (linesOf fs) :=
    hspells _ (Nat.lt_succ_self _)
  have hmark : (document fs).head? ≠ some '\ufeff' := by
    intro hhead
    obtain ⟨text, htext⟩ := List.head?_eq_some_iff.1 hhead
    rw [htext, lines_mark] at hlines
    simp at hlines
  have hscalars : ((scalarsOf fs).map Field.name).Nodup :=
    h.names.sublist (List.filter_sublist.map Field.name)
  obtain ⟨last, hlast⟩ := foldlM_sections ((scalarsOf fs).map entryOf) []
    (nodup_names_sectionsOf h.names) (by
      intro s hs e he
      obtain ⟨f, hf, rfl⟩ := List.mem_map.1 he
      exact name_ne_of_mem h.names hf hs)
    (fun s hs => (h.sections s hs).2.2)
  have hfold : ∃ d, (linesOf fs).foldlM Draft.add {} = some d ∧ d.root.fields = arranged fs := by
    rw [linesOf, List.foldlM_append, foldlM_lineOf hscalars]
    refine ⟨_, hlast, ?_⟩
    simp only [Table.fields, fieldsOf_append, fieldsOf_map_entryOf, fieldsOf_sections, arranged]
  obtain ⟨d, hd, hfields⟩ := hfold
  simp [Toml.Reader.read, hmark, hlines, hd, hfields]

end Documents

end Cythonizer.Proofs.Toml.Documents
