import Cythonizer.Proofs.Source.Literals

namespace Cythonizer.Proofs.Source.Phrases

open Cythonizer.Source.Reader
open Cythonizer.Source.Rules
open Cythonizer.Source.Rules.Phrases
open Cythonizer.Source.Keywords
open Cythonizer.Source.Lexemes
open Cythonizer.Source.Trees
open Cythonizer.Proofs.Source.Contents
open Cythonizer.Proofs.Source.Edges
open Cythonizer.Proofs.Source.Phrasing
open Cythonizer.Proofs.Source.Telling

variable {source : List Char}

section

/-- A reader of every phrase that tells phrases between lexemes. A format specification stands
between the quotes of a string literal, where gaps are cut in another way. What is told of targets
in brackets begins with the opening bracket. -/
class FlushGrammar (g : Grammar source) : Prop where
  phrase (p : Phrase) : TellsPhrases (g p)
  flush (p : Phrase) : p ≠ .specification → TellsFlush (g p)
  opens (next : Next) : Tells (facing (bare next)) (g (.bracketed true)) fun _ _ ts =>
    ∃ rest, ts = .leaf .sign next.text :: rest

variable {g : Grammar source} [hg : FlushGrammar g]

instance (p : Phrase) : TellsPhrases (g p) :=
  hg.phrase p

instance (after : Expect) (conditional : Bool) : TellsFlush (g (.expression after conditional)) :=
  hg.flush _ (by simp)

instance (after : Expect) (conditional : Bool) : TellsFlush (g (.clause after conditional)) :=
  hg.flush _ (by simp)

instance (after : Expect) : TellsFlush (g (.operand after)) :=
  hg.flush _ (by simp)

instance (after own : Expect) (bare : Bool) : TellsFlush (g (.targets after own bare)) :=
  hg.flush _ (by simp)

instance (bare : Bool) : TellsFlush (g (.bracketed bare)) :=
  hg.flush _ (by simp)

instance (after : Expect) : TellsFlush (g (.values after)) :=
  hg.flush _ (by simp)

instance (after : Expect) (bounded : Bool) : TellsFlush (g (.typeForm after bounded)) :=
  hg.flush _ (by simp)

instance (after : Expect) : TellsFlush (g (.pattern after)) :=
  hg.flush _ (by simp)

instance (after : Expect) : TellsFlush (g (.iterated after)) :=
  hg.flush _ (by simp)

instance (after : Expect) : TellsFlush (g (.alternatives after)) :=
  hg.flush _ (by simp)

instance {after start : Expect} {starts : Next → Bool} {item : Parser source Unit}
    [TellsFlush item] : TellsFlush (moreItems after start starts item) := by
  unfold moreItems
  infer_instance

instance (after : Expect) (stops : List Keyword) :
    TellsFlush (Values.expressions g after stops) := by
  unfold Values.expressions
  infer_instance

instance (after : Expect) : TellsFlush (Values.yieldPhrase g after) := by
  unfold Values.yieldPhrase
  infer_instance

instance (after : Expect) : TellsFlush (Values.values g after) := by
  unfold Values.values
  infer_instance

instance : TellsFlush (Collection.comprehension g) := by
  unfold Collection.comprehension
  dsimp only
  infer_instance

instance : TellsFlush (Collection.atComprehension : Parser source Bool) := by
  unfold Collection.atComprehension
  infer_instance

instance : TellsFlush (Collection.atItemEnd : Parser source Bool) := by
  unfold Collection.atItemEnd
  infer_instance

instance : TellsFlush (Collection.atStarredWord : Parser source Bool) := by
  unfold Collection.atStarredWord
  infer_instance

instance : TellsFlush (Collection.atStarredAwait : Parser source Bool) := by
  unfold Collection.atStarredAwait
  infer_instance

instance (after : Expect) : TellsFlush (Collection.starredItem g after) := by
  unfold Collection.starredItem
  refine .bind inferInstance fun binds => .bind inferInstance fun awaits => ?_
  extract_lets unpacked told rest
  have hunpacked : TellsFlush unpacked := by unfold unpacked; infer_instance
  have htold (u : Unit) : TellsFlush (told u) := by unfold told; infer_instance
  have hrest (u : Unit) : TellsFlush (rest u) := by unfold rest; infer_instance
  clear_value rest
  infer_instance

instance (after : Expect) : TellsFlush (Collection.element g after) := by
  unfold Collection.element
  infer_instance

instance : TellsFlush (Collection.moreElements g) := by
  unfold Collection.moreElements
  infer_instance

instance : TellsFlush (Collection.round g) := by
  unfold Collection.round
  refine .mark_bind fun since => .bind fun _ => .after fun next => ?_
  split
  · infer_instance
  · exact .after fun plain => inferInstance

instance : TellsFlush (Collection.square g) := by
  unfold Collection.square
  dsimp only
  infer_instance

instance : TellsFlush (Collection.entry g) := by
  unfold Collection.entry
  dsimp only
  infer_instance

instance : TellsFlush (Collection.moreEntries g) := by
  unfold Collection.moreEntries
  dsimp only
  infer_instance

instance : TellsFlush (Collection.braces g) := by
  unfold Collection.braces
  refine .bind inferInstance fun _ => .bind inferInstance fun next => ?_
  extract_lets closing
  have hclosing (u : Unit) : TellsFlush (closing u) := by unfold closing; infer_instance
  clear_value closing
  repeat split
  all_goals infer_instance

instance (after : Expect) : TellsFlush (Collection.argument g after) := by
  unfold Collection.argument
  infer_instance

instance (ofCall : Bool) : TellsFlush (Collection.arguments g ofCall) := by
  unfold Collection.arguments
  dsimp only
  infer_instance

instance : TellsFlush (Collection.subscriptItem g) := by
  unfold Collection.subscriptItem
  extract_lets bounded bound rest
  have hbound : TellsFlush bound := by unfold bound; infer_instance
  clear_value bound
  have hrest (u : Unit) : TellsFlush (rest u) := by unfold rest; infer_instance
  clear_value rest
  infer_instance

instance : TellsFlush (Collection.subscript g) := by
  unfold Collection.subscript
  dsimp only
  infer_instance

instance (after : Expect) : TellsFlush (Literal.strings g after) := by
  unfold Literal.strings
  dsimp only
  infer_instance

instance (after : Expect) : TellsFlush (Operand.atom g after) := by
  unfold Operand.atom
  dsimp only
  refine .bind inferInstance fun next => ?_
  split <;> infer_instance

instance (after : Expect) : TellsSome (Literal.strings g after) := by
  unfold Literal.strings
  dsimp only
  infer_instance

instance : TellsSome (Collection.round g) := by
  unfold Collection.round
  refine .mark_bind fun since => .bind fun _ => .after fun next => ?_
  split
  · infer_instance
  · exact .after fun plain => inferInstance

instance : TellsSome (Collection.square g) := by
  unfold Collection.square
  dsimp only
  infer_instance

instance : TellsSome (Collection.braces g) := by
  unfold Collection.braces
  refine .append inferInstance fun _ => .bind inferInstance fun next => ?_
  extract_lets closing
  have hclosing (u : Unit) : TellsFlush (closing u) := by unfold closing; infer_instance
  clear_value closing
  repeat split
  all_goals infer_instance

instance (after : Expect) : TellsSome (Operand.atom g after) := by
  unfold Operand.atom
  dsimp only
  refine .bind inferInstance fun next => ?_
  split <;> infer_instance

instance (after : Expect) (stars : Nat) (bare : Bool) (since : Nat) (head : Shape) :
    TellsSince since Solid Solid (Operand.trailers g after stars bare since head) := by
  unfold Operand.trailers
  dsimp only
  infer_instance

instance (after : Expect) (stars : Nat) (bare : Bool) :
    TellsFlush (Operand.primary g after stars bare) := by
  unfold Operand.primary
  refine .mark_bind fun since => .after fun awaits => ?_
  extract_lets rest awaited
  have hrest (head : Shape) : TellsSince since Solid Solid (rest head) := by
    unfold rest
    extract_lets told
    have htold (u : Unit) : TellsSince since Solid Solid (told u) := by
      unfold told
      infer_instance
    clear_value told
    infer_instance
  clear_value rest
  infer_instance

instance (after : Expect) (stars : Nat) (bare : Bool) :
    TellsFlush (Operand.starred g after stars bare) := by
  unfold Operand.starred
  infer_instance

instance (after : Expect) : TellsFlush (Operand.operand g after) := by
  unfold Operand.operand
  infer_instance

instance (after : Expect) : TellsFlush (Expression.arithmetic g after) := by
  unfold Expression.arithmetic
  infer_instance

instance (after : Expect) : TellsFlush (Expression.comparator after : Parser source Bool) := by
  unfold Expression.comparator
  dsimp only
  infer_instance

instance (after : Expect) : TellsFlush (Expression.comparison g after) := by
  unfold Expression.comparison
  infer_instance

instance {parameters : Parser source Unit} [TellsFlush parameters] (after : Expect)
    (conditional : Bool) : TellsFlush (Expression.clause g parameters after conditional) := by
  unfold Expression.clause
  infer_instance

instance (after : Expect) (conditional : Bool) :
    TellsFlush (Expression.expression g after conditional) := by
  unfold Expression.expression
  infer_instance

instance {parameters : Parser source Unit} [TellsFlush parameters] (after : Expect) :
    TellsFlush (Expression.iterated g parameters after) := by
  unfold Expression.iterated
  infer_instance

instance {m : Type → Type} [Monad m] [Reading source m] [Outcomes source m] {K : Tree → Prop}
    (after : Expect) : TellsOnly K (Parameter.atPlainType after : m Bool) := by
  unfold Parameter.atPlainType
  dsimp only
  infer_instance

instance {m : Type → Type} [Monad m] [Reading source m] [Outcomes source m] (after : Expect) :
    TellsFlush (Parameter.atPlainType after : m Bool) := by
  unfold Parameter.atPlainType
  dsimp only
  infer_instance

instance : TellsFlush (Parameter.typeParameters g) := by
  unfold Parameter.typeParameters
  dsimp only
  infer_instance

instance (after : Expect) : TellsFlush (Parameter.typeAtom g after) := by
  unfold Parameter.typeAtom
  infer_instance

instance (after : Expect) (bounded : Bool) : TellsFlush (Parameter.typeForm g after bounded) := by
  unfold Parameter.typeForm
  infer_instance

instance (after : Expect) (bounded : Bool) : TellsFlush (Parameter.typeHint g after bounded) := by
  unfold Parameter.typeHint
  infer_instance

instance (after : Expect) (typed : Bool) : TellsFlush (Parameter.parameterType g after typed) := by
  unfold Parameter.parameterType
  infer_instance

instance (after : Expect) : TellsFlush (Parameter.parameterDefault g after) := by
  unfold Parameter.parameterDefault
  infer_instance

instance (after : Expect) (typed : Bool) : TellsFlush (Parameter.rest g after typed) := by
  unfold Parameter.rest
  dsimp only
  infer_instance

instance (after : Expect) (typed : Bool) : TellsFlush (Parameter.parameter g after typed) := by
  unfold Parameter.parameter
  infer_instance

instance (after : Expect) (typed : Bool) : TellsFlush (Parameter.parameterList g after typed) := by
  unfold Parameter.parameterList
  infer_instance

instance : TellsFlush (Parameter.lambdaParameters g) := by
  unfold Parameter.lambdaParameters
  infer_instance

instance : TellsFlush (Parameter.parameters g) := by
  unfold Parameter.parameters
  dsimp only
  infer_instance

instance (after : Expect) (bare : Bool) : TellsFlush (Target.place g after bare) := by
  unfold Target.place
  infer_instance

instance (after own : Expect) (bare : Bool) : TellsFlush (Target.target g after own bare) := by
  unfold Target.target
  dsimp only
  infer_instance

instance (after own : Expect) (bare : Bool) : TellsFlush (Target.targets g after own bare) := by
  unfold Target.targets
  dsimp only
  infer_instance

instance (bare : Bool) : TellsFlush (Target.bracketed g bare) := by
  unfold Target.bracketed
  refine .bind inferInstance fun next => .bind inferInstance fun opens => ?_
  extract_lets rest
  have hrest (u : Unit) : TellsFlush (rest u) := by unfold rest; infer_instance
  clear_value rest
  infer_instance

instance (after : Expect) {item : Parser source Unit} [TellsFlush item] :
    TellsFlush (Pattern.patterns after item) := by
  unfold Pattern.patterns
  dsimp only
  infer_instance

instance {item : Parser source Unit} [TellsFlush item] (close : List Char) :
    TellsFlush (Pattern.enclosed item close) := by
  unfold Pattern.enclosed
  dsimp only
  infer_instance

instance : TellsFlush (Pattern.inner g) := by
  unfold Pattern.inner
  infer_instance

instance : TellsFlush (Pattern.pair g) := by
  unfold Pattern.pair
  dsimp only
  infer_instance

instance (after : Expect) : TellsFlush (Pattern.number after : Parser source Unit) := by
  unfold Pattern.number
  dsimp only
  infer_instance

instance (after : Expect) : TellsFlush (Pattern.dotted g after) := by
  unfold Pattern.dotted
  infer_instance

instance (after : Expect) : TellsFlush (Pattern.closed g after) := by
  unfold Pattern.closed
  dsimp only
  refine .bind inferInstance fun next => ?_
  split <;> infer_instance

instance (after : Expect) : TellsFlush (Pattern.alternatives g after) := by
  unfold Pattern.alternatives
  infer_instance

instance (after : Expect) : TellsFlush (Pattern.pattern g after) := by
  unfold Pattern.pattern
  dsimp only
  infer_instance

end

theorem tells_bracketed {g : Grammar source} [FlushGrammar g] (bare : Bool) (next : Next) :
    Tells (facing (Telling.bare next)) (Target.bracketed g bare) fun _ _ ts =>
      ∃ rest, ts = .leaf .sign next.text :: rest := by
  unfold Target.bracketed
  dsimp only
  refine tells_silent_bind fun _ => tells_silent_bind fun _ => tells_ite (fun _ => ?_) fun _ => ?_
  · have hfail : Tells (facing (Telling.bare next)) (fail : Parser source Unit) fun _ _ _ =>
      False := tells_fail
    exact tells_bind hfail fun _ _ _ _ h => h.elim
  · exact tells_first_bind tells_take_first

instance (depth : Nat) : FlushGrammar (Source.Syntax.phrase depth : Grammar source) := by
  induction depth with
  | zero =>
      exact ⟨fun _ => inferInstanceAs (TellsPhrases (fail : Parser source Shape)),
        fun _ _ => inferInstanceAs (TellsFlush (fail : Parser source Shape)), fun _ => tells_fail⟩
  | succ depth ih =>
      constructor
      · intro p
        cases p <;> (unfold Source.Syntax.phrase; infer_instance)
      · intro p hp
        cases p <;> first | exact absurd rfl hp | (unfold Source.Syntax.phrase; infer_instance)
      · intro next
        unfold Source.Syntax.phrase
        exact tells_bracketed true next

end Cythonizer.Proofs.Source.Phrases
