import Cythonizer.Source.Lexemes
import Cythonizer.Source.Trees

/-!
A cursor over a source text: the events told so far and the text still to be read. They always make
up the source together (`Cursor.lossless`), because characters move in one place only,
`Cursor.shift`. A parser is a step on cursors that may fail at a point of the text.
-/

namespace Cythonizer.Source.Reader

open Cythonizer.Source.Gaps
open Cythonizer.Source.Keywords
open Cythonizer.Source.Lexemes
open Cythonizer.Source.Trees

structure Next where
  lexeme : Lexeme
  text : List Char

def Next.isSign (next : Next) (sign : List Char) : Bool :=
  next.lexeme.category == .symbol && next.text == sign

/-- Whether the next lexeme is a word that could be the keyword. -/
def Next.isWord (next : Next) (keyword : Keyword) : Bool :=
  next.lexeme.category == .name && ofSpelling? next.text == some keyword

def Next.is (next : Next) (category : Category) : Bool :=
  next.lexeme.category == category

structure Cursor (source : List Char) where
  log : List Event
  size : Nat
  rest : List Char
  left : Nat
  layout : Layout
  /-- The lexeme ahead, once it was looked at. -/
  ahead : Option Next
  lossless : told log ++ rest = source

namespace Cursor

variable {source : List Char}

def start (source : List Char) : Cursor source where
  log := []
  size := 0
  rest := source
  left := source.length
  layout := {}
  ahead := none
  lossless := by simp [told]

/-- Move characters from the text still to be read to the events told. -/
def shift (c : Cursor source) (event : List Char → Event)
    (spelled : ∀ text, (event text).spell = text) (width : Nat) : Cursor source where
  log := event (c.rest.take width) :: c.log
  size := c.size + 1
  rest := c.rest.drop width
  left := c.left - width
  layout := c.layout
  ahead := none
  lossless := by simp [told, spelled, ← c.lossless]

def pass (c : Cursor source) : List (Gap × Nat) → Cursor source
  | [] => c
  | (gap, width) :: gaps => (c.shift (.gap gap) (fun _ => rfl) width).pass gaps

def opened (c : Cursor source) (kind : Kind) : Cursor source :=
  { c with
    log := .opening kind :: c.log
    size := c.size + 1
    lossless := by simp [told, Event.spell, c.lossless] }

def closed (c : Cursor source) : Cursor source :=
  { c with
    log := .closing :: c.log
    size := c.size + 1
    lossless := by simp [told, Event.spell, c.lossless] }

/-- Make what was told since a mark a construct. -/
def wrapped (c : Cursor source) (kind : Kind) (mark : Nat) : Cursor source :=
  let since := c.size - mark
  { c with
    log := .closing :: (c.log.take since ++ .opening kind :: c.log.drop since)
    size := c.size + 2
    lossless := by
      have h := c.lossless
      rw [← List.take_append_drop since c.log, told_append] at h
      simpa [told, told_append, Event.spell] using h }

end Cursor

/-- A parser reads some of the text, or fails with the number of characters left where it failed. -/
abbrev Parser (source : List Char) := StateT (Cursor source) (Except Nat)

variable {source : List Char} {α σ : Type}

/-- The readers of a source, of which a parser is a step. -/
class Reading (source : outParam (List Char)) (m : Type → Type) where
  step : {α : Type} → Parser source α → m α

instance : Reading source (Parser source) where
  step p := p

section

variable {m : Type → Type} [Reading source m]

/-- The lexeme ahead. What the grammar admits matters at the first look only. -/
def peek (e : Expect) : m Next := Reading.step fun c =>
  match c.ahead with
  | some next => .ok (next, c)
  | none =>
    let lexeme := read e c.layout (c.left + 1) c.rest
    let before := lexeme.before
    let next := { lexeme, text := (c.rest.drop before).take lexeme.width }
    .ok (next, { c with ahead := some next })

def fail : m α := Reading.step do
  let next ← peek {}
  let c ← get
  throw (c.left - next.lexeme.before)

def passGaps (e : Expect) : m Unit := Reading.step do
  let next ← peek e
  modify fun c =>
    { c.pass next.lexeme.gaps with ahead := some { next with lexeme.gaps := [] } }

def take (leaf : Leaf) : m Unit := Reading.step do
  passGaps {}
  let next ← peek {}
  modify fun c =>
    { c.shift (.leaf leaf) (fun _ => rfl) next.lexeme.width with layout := next.lexeme.layout }

def sign (e : Expect) (text : List Char) : m Unit := Reading.step do
  if (← peek e).isSign text then take .sign else fail

def keyword (e : Expect) (k : Keyword) : m Unit := Reading.step do
  if (← peek e).isWord k then take .word else fail

/-- Take a name that must come next, whatever its spelling. -/
def name (e : Expect) : m Unit := Reading.step do
  if (← peek e).is .name then take .name else fail

/-- Take a lexeme of layout that must come next. -/
def layoutMark (e : Expect) (category : Category) : m Unit := Reading.step do
  if (← peek e).is category then take .layout else fail

def atSign (e : Expect) (signs : List (List Char)) : m Bool := Reading.step do
  let next ← peek e
  return next.is .symbol && signs.contains next.text

/-- Whether the next lexeme is a name that could be the keyword. -/
def atWord (e : Expect) (k : Keyword) : m Bool := Reading.step do
  return (← peek e).isWord k

/-- Read a construct that begins with the next lexeme. -/
@[inline]
def node [Monad m] (kind : Kind) (e : Expect) (body : m α) : m α := do
  passGaps e
  Reading.step (modify (·.opened kind) : Parser source Unit)
  let result ← body
  Reading.step (modify (·.closed) : Parser source Unit)
  return result

/-- A mark before the next lexeme, from which a construct can be made later. -/
def mark (e : Expect) : m Nat := Reading.step do
  passGaps e
  return (← get).size

/-- Make what was read since the mark a construct. -/
def wrap (kind : Kind) (since : Nat) : m Unit := Reading.step do
  modify (·.wrapped kind since)

def left : m Nat := Reading.step do
  return (← get).left

end

/-- Read the first alternative, or the second one if the first fails. Of two failures the one
further on in the text counts. -/
def either (first second : Parser source α) : Parser source α := fun c =>
  match first c with
  | .ok result => .ok result
  | .error left =>
    match second c with
    | .ok result => .ok result
    | .error left' => .error (min left left')

/-- What a parser would give from here, without moving on. There is no answer if it fails. -/
def ahead (p : Parser source α) : Parser source (Option α) := fun c =>
  match p c with
  | .ok (result, _) => .ok (some result, c)
  | .error _ => .ok (none, c)

/-- Repeat a step until it gives no new value. Every step but the last reads a character, so the
characters left bound the repetitions. -/
def loop (step : σ → Parser source (Option σ)) (init : σ) : Parser source σ := do
  go ((← get).left + 2) init
where
  go : Nat → σ → Parser source σ
    | 0, s => pure s
    | fuel + 1, s => do
      match ← step s with
      | none => pure s
      | some s' => go fuel s'

/-- Repeat a step while it says so. -/
def loopWhile (step : Parser source Bool) : Parser source Unit :=
  loop (fun _ => return if ← step then some () else none) ()

end Cythonizer.Source.Reader
