import Cythonizer.Toml.Values

/-!
Tables while a document is being read. Every table is defined once: by a header, or by the dotted
keys of one place. A table that was only passed on the way to another may still get its header.
-/

namespace Cythonizer.Toml.Tables

open Cythonizer.Toml.Values

inductive Origin
  /-- It has a header or braces, or it is the document. -/
  | defined
  /-- A header leads through it. -/
  | passed
  /-- A dotted key leads through it. -/
  | dotted
  deriving DecidableEq, Repr

mutual

inductive Table
  | table (origin : Origin) (entries : List Entry)

inductive Entry
  | entry (name : String) (item : Item)

inductive Item
  | value (value : Value)
  | table (table : Table)
  /-- The tables of a repeated header, the latest apart. -/
  | tables (earlier : List Table) (latest : Table)

end

def Entry.name : Entry → String
  | .entry name _ => name

def Entry.item : Entry → Item
  | .entry _ item => item

def Table.origin : Table → Origin
  | .table origin _ => origin

def Table.entries : Table → List Entry
  | .table _ entries => entries

def Table.empty (origin : Origin) : Table :=
  .table origin []

def Table.find? (name : String) (t : Table) : Option Item :=
  (t.entries.find? fun e => e.name = name).map Entry.item

/-- Set the item of a name, which keeps its place. -/
def putEntry (name : String) (item : Item) : List Entry → List Entry
  | [] => [.entry name item]
  | e :: rest => if e.name = name then .entry name item :: rest else e :: putEntry name item rest

def Table.put (name : String) (item : Item) : Table → Table
  | .table origin entries => .table origin (putEntry name item entries)

theorem find?_putEntry (name other : String) (item : Item) (entries : List Entry) :
    ((putEntry name item entries).find? fun e => e.name = other).map Entry.item =
      if other = name then some item
      else (entries.find? fun e => e.name = other).map Entry.item := by
  induction entries with
  | nil => grind [putEntry, Entry.name, Entry.item]
  | cons e rest ih => grind [putEntry, Entry.name, Entry.item]

theorem find?_put (name other : String) (item : Item) (t : Table) :
    (t.put name item).find? other = if other = name then some item else t.find? other := by
  obtain ⟨origin, entries⟩ := t
  exact find?_putEntry name other item entries

/-- A key: the tables it leads through, and the name in the last of them. -/
structure Key where
  path : List String
  name : String
  deriving DecidableEq, Repr

/--
Change the table that a path leads to. Tables missing on the way get the given origin. A dotted key
does not lead into a table with a header, and no path leads into a value.
-/
def Table.change (origin : Origin) (f : Table → Option Table) : List String → Table → Option Table
  | [], t => f t
  | name :: path, t =>
    match t.find? name with
    | none => do return t.put name (.table (← change origin f path (.empty origin)))
    | some (.value _) => none
    | some (.tables earlier latest) => do
      return t.put name (.tables earlier (← change origin f path latest))
    | some (.table inner) =>
      if origin = .dotted ∧ inner.origin = .defined then none
      else do return t.put name (.table (← change origin f path inner))

def Table.define (name : String) (value : Value) (t : Table) : Option Table :=
  if (t.find? name).isSome then none else some (t.put name (.value value))

/-- Give a key its value. A dotted key ends in a table that dotted keys made. -/
def Table.assign (key : Key) (value : Value) (t : Table) : Option Table :=
  t.change .dotted
    (fun t =>
      if key.path.isEmpty = decide (t.origin = .dotted) then none else t.define key.name value)
    key.path

/-- Open the table of a header. -/
def Table.openTable (name : String) (t : Table) : Option Table :=
  match t.find? name with
  | none => some (t.put name (.table (.empty .defined)))
  | some (.table (.table .passed entries)) => some (t.put name (.table (.table .defined entries)))
  | some _ => none

/-- Open one more table of a repeated header. -/
def Table.openElement (name : String) (t : Table) : Option Table :=
  match t.find? name with
  | none => some (t.put name (.tables [] (.empty .defined)))
  | some (.tables earlier latest) =>
    some (t.put name (.tables (earlier ++ [latest]) (.empty .defined)))
  | some _ => none

mutual

def Table.fields : Table → List Field
  | .table _ entries => fieldsOf entries

def fieldsOf : List Entry → List Field
  | [] => []
  | .entry name item :: rest => .field name (valueOf item) :: fieldsOf rest

def valueOf : Item → Value
  | .value value => value
  | .table table => .table table.fields
  | .tables earlier latest => .array (valuesOf earlier ++ [.table latest.fields])

def valuesOf : List Table → List Value
  | [] => []
  | table :: rest => .table table.fields :: valuesOf rest

end

/-- The fields of braces around keys and values. -/
def inlineFields (pairs : List (Key × Value)) : Option (List Field) := do
  let t ← pairs.foldlM (fun t pair => t.assign pair.1 pair.2) (Table.empty .defined)
  return t.fields

end Cythonizer.Toml.Tables
