import Cythonizer.Source.Gaps

namespace Cythonizer.Source.Trees

open Cythonizer.Source.Gaps

/-- The constructs that the tree tells apart. -/
inductive Kind
  | block
  | importNames
  | importFrom
  /-- A `print` or `exec` statement. -/
  | legacy
  | simple
  | function
  | decorated
  | decorator
  | forLoop
  | compound
  | clause
  | typeParameters
  | parameters
  /-- A parameter that is a name, with or without type hint and default. -/
  | named
  /-- The `*` before keyword-only parameters, or the parameter that takes the rest of the positions.
  -/
  | star
  /-- The `/` after positional-only parameters. -/
  | slash
  /-- A parameter of another form. -/
  | special
  | hint
  | default
  | iterable
  | expression
  | call
  | arguments
  | parenthesized
  | string
  deriving DecidableEq, Repr

inductive Leaf
  | name
  | word
  | sign
  | literal
  /-- A line end, an indent or a dedent. It has no characters. -/
  | layout
  deriving DecidableEq, Repr

inductive Tree
  | gap (gap : Gap) (text : List Char)
  | leaf (leaf : Leaf) (text : List Char)
  | node (kind : Kind) (children : List Tree)
  deriving Repr

mutual

def spell : Tree → List Char
  | .gap _ text => text
  | .leaf _ text => text
  | .node _ children => spellAll children

def spellAll : List Tree → List Char
  | [] => []
  | t :: ts => spell t ++ spellAll ts

end

theorem spellAll_append (a b : List Tree) : spellAll (a ++ b) = spellAll a ++ spellAll b := by
  induction a with
  | nil => rfl
  | cons t ts ih => simp [spellAll, ih]

/-- A step of writing a tree from left to right. -/
inductive Event
  | gap (gap : Gap) (text : List Char)
  | leaf (leaf : Leaf) (text : List Char)
  | opening (kind : Kind)
  | closing
  deriving Repr

def Event.spell : Event → List Char
  | .gap _ text => text
  | .leaf _ text => text
  | .opening _ => []
  | .closing => []

/-- The text of a list of events whose newest comes first. -/
def told : List Event → List Char
  | [] => []
  | e :: es => told es ++ e.spell

theorem told_append (a b : List Event) : told (a ++ b) = told b ++ told a := by
  induction a with
  | nil => simp [told]
  | cons e es ih => simp [told, ih]

/-- A construct that is still open, with the trees before it, newest first. -/
abbrev Opened := Kind × List Tree

def closeAll : List Opened → List Tree → List Tree
  | [], done => done.reverse
  | (kind, before) :: opened, done => closeAll opened (.node kind done.reverse :: before)

/-- Carry out the events, oldest first, on the open constructs and the trees done since. -/
def assemble : List Opened → List Tree → List Event → List Tree
  | opened, done, [] => closeAll opened done
  | opened, done, .gap g text :: es => assemble opened (.gap g text :: done) es
  | opened, done, .leaf l text :: es => assemble opened (.leaf l text :: done) es
  | opened, done, .opening kind :: es => assemble ((kind, done) :: opened) [] es
  | (kind, before) :: opened, done, .closing :: es =>
    assemble opened (.node kind done.reverse :: before) es
  | [], done, .closing :: es => assemble [] done es

/-- The trees that events write, oldest event first. -/
def ofEvents (events : List Event) : List Tree :=
  assemble [] [] events

private def pending : List Opened → List Char
  | [] => []
  | (_, before) :: opened => pending opened ++ spellAll before.reverse

private theorem spellAll_closeAll (opened : List Opened) (done : List Tree) :
    spellAll (closeAll opened done) = pending opened ++ spellAll done.reverse := by
  induction opened generalizing done with
  | nil => simp [closeAll, pending]
  | cons o opened ih => simp [closeAll, pending, ih, spellAll_append, spellAll, spell]

private theorem spellAll_assemble (opened : List Opened) (done : List Tree) (events : List Event) :
    spellAll (assemble opened done events) =
      pending opened ++ spellAll done.reverse ++ events.flatMap Event.spell := by
  induction events generalizing opened done with
  | nil => simp [assemble, spellAll_closeAll]
  | cons e es ih =>
      cases e with
      | gap g text => simp [assemble, ih, spellAll_append, spellAll, spell, Event.spell]
      | leaf l text => simp [assemble, ih, spellAll_append, spellAll, spell, Event.spell]
      | opening kind => simp [assemble, ih, pending, spellAll, Event.spell]
      | closing =>
          cases opened with
          | nil => simp [assemble, ih, Event.spell]
          | cons o opened =>
              simp [assemble, ih, pending, spellAll_append, spellAll, spell, Event.spell]

theorem spellAll_ofEvents (events : List Event) :
    spellAll (ofEvents events) = events.flatMap Event.spell := by
  simp [ofEvents, spellAll_assemble, pending, spellAll]

theorem flatMap_spell_reverse (log : List Event) : log.reverse.flatMap Event.spell = told log := by
  induction log with
  | nil => rfl
  | cons e es ih => simp [told, ih]

end Cythonizer.Source.Trees
