import Cythonizer.Source.Rules.Compound
import Cythonizer.Source.Rules.Target

/-!
Reading a source text as a syntax tree. Whatever is read, the tree spells the source
(`spellAll_ofSource`).
-/

namespace Cythonizer.Source.Syntax

open Cythonizer.Source.Branches
open Cythonizer.Source.Reader
open Cythonizer.Source.Rules.Compound
open Cythonizer.Source.Rules.Phrases
open Cythonizer.Source.Trees

/-- The reader of phrases that are nested at most `depth` deep. -/
def phrase {source : List Char} : Nat → Grammar source
  | 0, _ => fail
  | depth + 1, p =>
    let g : Grammar source := phrase depth
    match p with
    | .expression after conditional => Rules.Expression.expression g after conditional
    | .clause after conditional =>
      Rules.Expression.clause g (Rules.Parameter.lambdaParameters g) after conditional
    | .iterated after =>
      Rules.Expression.iterated g (Rules.Parameter.lambdaParameters g) after
    | .operand after => Rules.Operand.operand g after
    | .targets after own bare => Rules.Target.targets g after own bare
    | .bracketed bare => Rules.Target.bracketed g bare
    | .values after => Rules.Values.values g after
    | .specification => Rules.Literal.specification g
    | .typeForm after bounded => Rules.Parameter.typeForm g after bounded
    | .pattern after => Rules.Pattern.pattern g after
    | .alternatives after => Rules.Pattern.alternatives g after

/-- How deep phrases may nest: every bracket and every sign adds a few levels. -/
def nesting (source : List Char) : Nat :=
  4 * source.length + 16

/-- The readers of what statements contain, for blocks that are nested at most `depth` deep. -/
def parts (source : List Char) : Nat → Parts source
  | 0 => { phrase := phrase (nesting source), block := do fail }
  | depth + 1 => { phrase := phrase (nesting source), block := blockBody (parts source depth) }

def statements (source : List Char) : Branching source Unit := do
  let start := statementStart false
  repeated do
    if (← peek start).is .ending then
      passGaps start
      return false
    statement (parts source source.length) false
    return true

/-- The cursor before the first character that counts: a byte order mark is passed. -/
def begin (source : List Char) : Cursor source :=
  let start := Cursor.start source
  if source.head? == some '\ufeff' then start.pass [(.blank, 1)] else start

/-- The trees of a source, or the number of characters before the point where it cannot go on. -/
def ofSource (source : List Char) : Except Nat (List Tree) :=
  let ways := statements source (begin source)
  match ways.found.find? fun way => way.2.rest.isEmpty with
  | some (_, c) => .ok (ofEvents c.log.reverse)
  | none => .error (source.length - ways.failed.getD 0)

theorem spellAll_ofSource {source : List Char} {trees : List Tree}
    (h : ofSource source = .ok trees) : spellAll trees = source := by
  dsimp only [ofSource] at h
  split at h
  · rename_i c hc
    have rest : c.rest.isEmpty := by simpa using List.find?_some hc
    obtain rfl : ofEvents c.log.reverse = trees := by simpa using h
    have := c.lossless
    simp_all [spellAll_ofEvents, flatMap_spell_reverse]
  · cases h

end Cythonizer.Source.Syntax
