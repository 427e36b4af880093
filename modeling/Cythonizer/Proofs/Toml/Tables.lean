import Mathlib.Data.List.Nodup
import Cythonizer.Toml.Tables

namespace Cythonizer.Proofs.Toml.Tables

open Cythonizer.Toml.Tables
open Cythonizer.Toml.Values

variable {name : String} {item old : Item} {entries : List Entry}

theorem putEntry_of_fresh (h : ∀ e ∈ entries, e.name ≠ name) :
    putEntry name item entries = entries ++ [.entry name item] := by
  induction entries with
  | nil => rfl
  | cons e rest ih => simp [putEntry, h e (by simp), ih fun f hf => h f (by simp [hf])]

theorem putEntry_last (h : ∀ e ∈ entries, e.name ≠ name) :
    putEntry name item (entries ++ [.entry name old]) = entries ++ [.entry name item] := by
  induction entries with
  | nil => simp [putEntry, Entry.name]
  | cons e rest ih => simp [putEntry, h e (by simp), ih fun f hf => h f (by simp [hf])]

theorem find?_of_fresh (origin : Origin) (h : ∀ e ∈ entries, e.name ≠ name) :
    (Table.table origin entries).find? name = none := by
  simpa [Table.find?, Table.entries] using h

theorem find?_last (origin : Origin) (item : Item) (h : ∀ e ∈ entries, e.name ≠ name) :
    (Table.table origin (entries ++ [.entry name item])).find? name = some item := by
  have hput := find?_put name name item (Table.table origin entries)
  rwa [Table.put, putEntry_of_fresh h, if_pos rfl] at hput

/-- The key and the value of a field where no other table is named. -/
def assignmentOf (f : Field) : Key × Value :=
  ({ path := [], name := f.name }, f.value)

def entryOf (f : Field) : Entry :=
  .entry f.name (.value f.value)

theorem fieldsOf_append (front back : List Entry) :
    fieldsOf (front ++ back) = fieldsOf front ++ fieldsOf back := by
  induction front with
  | nil => rfl
  | cons e rest ih =>
      obtain ⟨name, item⟩ := e
      simp [fieldsOf, ih]

theorem fieldsOf_map_entryOf (fs : List Field) : fieldsOf (fs.map entryOf) = fs := by
  induction fs with
  | nil => rfl
  | cons f fs ih =>
      obtain ⟨name, v⟩ := f
      simp [fieldsOf, entryOf, valueOf, Field.name, Field.value, ih]

theorem assign_of_fresh {f : Field} (h : ∀ e ∈ entries, e.name ≠ f.name) :
    (Table.table .defined entries).assign (assignmentOf f).1 (assignmentOf f).2 =
      some (.table .defined (entries ++ [entryOf f])) := by
  have hfind := find?_of_fresh .defined h
  simp [Table.assign, assignmentOf, Table.change, Table.define, hfind, Table.put,
    putEntry_of_fresh h, entryOf, Table.origin]

/-- Fields of distinct names become entries one after the other, where each of them becomes the
next. -/
theorem foldlM_fields {σ : Type} (step : σ → Field → Option σ) (state : List Entry → σ)
    (entries : List Entry)
    (hstep : ∀ f entries, (∀ e ∈ entries, e.name ≠ f.name) →
      step (state entries) f = some (state (entries ++ [entryOf f])))
    {fs : List Field} (hnames : (fs.map Field.name).Nodup)
    (hfresh : ∀ f ∈ fs, ∀ e ∈ entries, e.name ≠ f.name) :
    fs.foldlM step (state entries) = some (state (entries ++ fs.map entryOf)) := by
  induction fs generalizing entries with
  | nil => simp
  | cons f fs ih =>
      obtain ⟨hf, hfs⟩ := List.nodup_cons.1 hnames
      have hnext : ∀ g ∈ fs, ∀ e ∈ entries ++ [entryOf f], e.name ≠ g.name := by
        intro g hg e he
        rcases List.mem_append.1 he with he | he
        · exact hfresh g (by simp [hg]) e he
        · obtain rfl := List.mem_singleton.1 he
          exact fun h => hf (List.mem_map.2 ⟨g, hg, h.symm⟩)
      rw [List.foldlM_cons, hstep f entries (hfresh f (by simp))]
      simp [ih _ hfs hnext]

theorem inlineFields_map_assignmentOf {fs : List Field} (hnames : (fs.map Field.name).Nodup) :
    inlineFields (fs.map assignmentOf) = some fs := by
  have hfold := foldlM_fields (fun t f => Table.assign (assignmentOf f).1 (assignmentOf f).2 t)
    (Table.table .defined) [] (fun f entries h => assign_of_fresh h) hnames (by simp)
  rw [inlineFields, Table.empty, List.foldlM_map, hfold]
  simp [Table.fields, fieldsOf_map_entryOf]

end Cythonizer.Proofs.Toml.Tables
