import Cythonizer.Proofs.Source.Visibility

namespace Cythonizer.Proofs.Source.Statements

open Cythonizer.Source.Branches
open Cythonizer.Source.Reader
open Cythonizer.Source.Gaps
open Cythonizer.Source.Rules.Compound
open Cythonizer.Source.Rules.Parameter
open Cythonizer.Source.Rules.Phrases
open Cythonizer.Source.Rules.Simple
open Cythonizer.Source.Keywords
open Cythonizer.Source.Lexemes
open Cythonizer.Source.Syntax
open Cythonizer.Source.Trees
open Cythonizer.Proofs.Source.Contents
open Cythonizer.Proofs.Source.Edges
open Cythonizer.Proofs.Source.Events
open Cythonizer.Proofs.Source.Gaps
open Cythonizer.Proofs.Source.Lexemes
open Cythonizer.Proofs.Source.Phrases
open Cythonizer.Proofs.Source.Phrasing
open Cythonizer.Proofs.Source.Shapes
open Cythonizer.Proofs.Source.Telling
open Cythonizer.Proofs.Source.Visibility

variable {source : List Char} {α : Type}

/-- What stands between statements: gaps, semicolons and marks of layout, which have no text. -/
inductive IsSeparator : Tree → Prop
  | gap {g : Gap} {text : List Char} (h : Spells g text) : IsSeparator (.gap g text)
  | semicolon : IsSeparator (.leaf .sign [';'])
  | mark : IsSeparator (.leaf .layout [])

/-- The statements without blocks. -/
class inductive SimpleKind : Kind → Prop
  | importNames : SimpleKind .importNames
  | importFrom : SimpleKind .importFrom
  | legacy : SimpleKind .legacy
  | simple : SimpleKind .simple

/-- The statements with blocks. -/
class inductive CompoundKind : Kind → Prop
  | function : CompoundKind .function
  | forLoop : CompoundKind .forLoop
  | compound : CompoundKind .compound

/-- The definitions that decorators may stand before. -/
class inductive DefinitionKind : Kind → Prop
  | function : DefinitionKind .function
  | compound : DefinitionKind .compound

attribute [instance] SimpleKind.importNames SimpleKind.importFrom SimpleKind.legacy
    SimpleKind.simple
  CompoundKind.function CompoundKind.forLoop CompoundKind.compound
  DefinitionKind.function DefinitionKind.compound

/-- The place of a tree in a statement. -/
inductive Role
  /-- Among the statements of a block. -/
  | item
  /-- Among the cases of a `match`. -/
  | matchCase
  /-- Among the parts of a statement with blocks. -/
  | component
  /-- Among decorators and the definition after them. -/
  | decorated

/-- A tree that may have a place in a statement. -/
inductive Formed : Role → Tree → Prop
  | separator {t : Tree} (h : IsSeparator t) : Formed .item t
  | simple {kind : Kind} {children : List Tree} (h : SimpleKind kind)
      (hchildren : ∀ t ∈ children, IsPhrase t) : Formed .item (.node kind children)
  | compound {kind : Kind} {children : List Tree} (h : CompoundKind kind)
      (hchildren : ∀ t ∈ children, Formed .component t) : Formed .item (.node kind children)
  | decorated {children : List Tree} (hchildren : ∀ t ∈ children, Formed .decorated t) :
      Formed .item (.node .decorated children)
  | gapBeforeCase {g : Gap} {text : List Char} (h : Spells g text) : Formed .matchCase (.gap g text)
  | markBeforeCase : Formed .matchCase (.leaf .layout [])
  | matchCase {children : List Tree} (hchildren : ∀ t ∈ children, Formed .component t) :
      Formed .matchCase (.node .clause children)
  | phrase {t : Tree} (h : IsPhrase t) : Formed .component t
  | mark : Formed .component (.leaf .layout [])
  | clause {children : List Tree} (hchildren : ∀ t ∈ children, Formed .component t) :
      Formed .component (.node .clause children)
  | block {children : List Tree} (hchildren : ∀ t ∈ children, Formed .item t) :
      Formed .component (.node .block children)
  | cases {children : List Tree} (hchildren : ∀ t ∈ children, Formed .matchCase t) :
      Formed .component (.node .block children)
  | gapBeforeDefinition {g : Gap} {text : List Char} (h : Spells g text) :
      Formed .decorated (.gap g text)
  | decorator {children : List Tree} (hchildren : ∀ t ∈ children, Formed .component t) :
      Formed .decorated (.node .decorator children)
  | definition {kind : Kind} {children : List Tree} (h : DefinitionKind kind)
      (hchildren : ∀ t ∈ children, Formed .component t) : Formed .decorated (.node kind children)

/-- The statements with blocks that are no definitions of functions. -/
class inductive BranchKind : Kind → Prop
  | forLoop : BranchKind .forLoop
  | compound : BranchKind .compound

attribute [instance] BranchKind.forLoop BranchKind.compound

/-- A part of the line of a decorator. -/
inductive IsLine : Tree → Prop
  | phrase {t : Tree} (h : IsNeat t) : IsLine t
  | mark : IsLine (.leaf .layout [])

/-- What may stand before a decorated definition. -/
inductive IsAbove : Tree → Prop
  | gap {g : Gap} {text : List Char} (h : Spells g text) : IsAbove (.gap g text)
  | decorator {children : List Tree} (h : All IsLine children) : IsAbove (.node .decorator children)

/-- The children of a decorated statement. -/
inductive IsDecoration : List Tree → Prop
  | intro {above children : List Tree} {kind : Kind} (habove : All IsAbove above)
      (hkind : DefinitionKind kind) : IsDecoration (above ++ [.node kind children])

/-- A form of the trees in every place of a statement, such that trees have it that are put together
from others that have it. -/
structure Family where
  Has : Role → Tree → Prop
  separator {t : Tree} (h : IsSeparator t) : Has .item t
  simple {kind : Kind} {children : List Tree} (h : SimpleKind kind) (hshows : Shows children)
    (hchildren : ∀ t ∈ children, IsNeat t) : Has .item (.node kind children)
  branch {kind : Kind} {children : List Tree} (h : BranchKind kind) (hheaded : IsHeaded children)
    (hchildren : ∀ t ∈ children, Has .component t) : Has .item (.node kind children)
  function {children : List Tree} (h : IsDefinition children)
    (hchildren : ∀ t ∈ children, Has .component t) : Has .item (.node .function children)
  decorated {children : List Tree} (h : IsDecoration children)
    (hchildren : ∀ t ∈ children, Has .decorated t) : Has .item (.node .decorated children)
  gapBeforeCase {g : Gap} {text : List Char} (h : Spells g text) : Has .matchCase (.gap g text)
  markBeforeCase : Has .matchCase (.leaf .layout [])
  matchCase {children : List Tree} (hheaded : IsHeaded children)
    (hchildren : ∀ t ∈ children, Has .component t) : Has .matchCase (.node .clause children)
  phrase {t : Tree} (h : IsNeat t) : Has .component t
  mark : Has .component (.leaf .layout [])
  clause {children : List Tree} (hheaded : IsHeaded children)
    (hchildren : ∀ t ∈ children, Has .component t) : Has .component (.node .clause children)
  block {children : List Tree} (hchildren : ∀ t ∈ children, Has .item t) :
    Has .component (.node .block children)
  cases {children : List Tree} (hchildren : ∀ t ∈ children, Has .matchCase t) :
    Has .component (.node .block children)
  gapBeforeDefinition {g : Gap} {text : List Char} (h : Spells g text) :
    Has .decorated (.gap g text)
  decorator {children : List Tree} (hchildren : All IsLine children) :
    Has .decorated (.node .decorator children)
  decoratedFunction {children : List Tree} (h : IsDefinition children)
    (hchildren : ∀ t ∈ children, Has .component t) : Has .decorated (.node .function children)
  decoratedClass {children : List Tree} (hheaded : IsHeaded children)
    (hchildren : ∀ t ∈ children, Has .component t) : Has .decorated (.node .compound children)

theorem formed_of_isLine {t : Tree} (h : IsLine t) : Formed .component t := by
  cases h with
  | phrase h => exact .phrase h.isPhrase
  | mark => exact .mark

def formed : Family where
  Has := Formed
  separator := .separator
  simple h _ hchildren := .simple h fun t ht => (hchildren t ht).isPhrase
  branch := by
    rintro _ _ (_ | _) - hchildren
    · exact .compound .forLoop hchildren
    · exact .compound .compound hchildren
  function _ := .compound .function
  decorated _ := .decorated
  gapBeforeCase := .gapBeforeCase
  markBeforeCase := .markBeforeCase
  matchCase _ := .matchCase
  phrase h := .phrase h.isPhrase
  mark := .mark
  clause _ := .clause
  block := .block
  cases := .cases
  gapBeforeDefinition := .gapBeforeDefinition
  decorator hchildren := .decorator fun t ht => formed_of_isLine (hchildren t ht)
  decoratedFunction _ := .definition .function
  decoratedClass _ := .definition .compound

variable {F : Family}

instance : HasGaps (F.Has .item) where
  gap h := F.separator (.gap h)

instance : HasGaps (F.Has .matchCase) where
  gap := F.gapBeforeCase

instance : HasGaps (F.Has .decorated) where
  gap := F.gapBeforeDefinition

instance : HasLeaves (F.Has .component) where
  gap h := F.phrase (.gap h)
  leaf h := F.phrase (.leaf h)

instance : HasLeaves IsLine where
  gap h := .phrase (.gap h)
  leaf h := .phrase (.leaf h)

instance : HasGaps IsAbove where
  gap := .gap

instance : Builds .block (F.Has .item) (F.Has .component) where
  node := F.block

instance : Builds .decorator IsLine (F.Has .decorated) where
  node := F.decorator

instance : Builds .decorator IsLine IsAbove where
  node := .decorator

instance : Precedes IsAbove IsDecoration where
  prepend := by
    rintro ts _ hts ⟨habove, hkind⟩
    rw [← List.append_assoc]
    exact .intro (forall_mem_append hts habove) hkind

section

variable {m : Type → Type} [Monad m] [Reading source m] [Outcomes source m]

theorem tellsOnly_node {kind : Kind} {K : Tree → Prop} [HasGaps K]
    {P : List Tree → Prop} {e : Expect}
    {body : m α} (hbody : TellsThat P body)
    (hnode : ∀ children, P children → K (.node kind children)) :
    TellsOnly K (node kind e body) :=
  ⟨(tells_node hbody.tells).mono (fun _ h => h) fun _ _ _ => forall_of_node hnode⟩

/-- The children of a statement without blocks: phrases that show. -/
def HasPhrases (ts : List Tree) : Prop :=
  All IsNeat ts ∧ Shows ts

instance : Follows IsNeat HasPhrases where
  append hts hus := ⟨forall_mem_append hts.1 hus, hts.2.append _⟩

instance {kind : Kind} [hkind : SimpleKind kind] (e : Expect) {body : m α}
    [hneat : TellsPhrases body]
    [hshows : TellsThat Shows body] : TellsOnly (F.Has .item) (node kind e body) :=
  tellsOnly_node (P := HasPhrases) ⟨hneat.tells.and hshows.tells⟩ fun _ h => F.simple hkind h.2 h.1

instance {since : Nat} {kind : Kind} [hkind : SimpleKind kind] :
    TellsSince since HasPhrases (All (F.Has .item)) (wrap kind since : m Unit) :=
  tellsSince_wrap since fun _ h _ ht => List.mem_singleton.mp ht ▸ F.simple hkind h.2 h.1

/-- The children of a construct with a block, each in its place. -/
def HasHead (F : Family) (ts : List Tree) : Prop :=
  All (F.Has .component) ts ∧ IsHeaded ts

instance : Precedes IsNeat (HasHead F) where
  prepend hts h := ⟨forall_mem_append (fun t ht => F.phrase (hts t ht)) h.1, h.2.prepend hts⟩

instance : Follows (F.Has .component) (HasHead F) where
  append h hus := ⟨forall_mem_append h.1 hus, h.2.append _⟩

/-- Behind a colon it does not matter what comes. -/
instance (e : Expect) : TellsThat (HasHead F) (sign e [':'] : m Unit) := by
  refine ⟨(tells_sign e [':']).mono (fun _ h => h) ?_⟩
  rintro _ _ _ ⟨gaps, hgaps, rfl⟩
  have hneat : All IsNeat gaps := forall_of_areGaps hgaps
  exact ⟨forall_mem_append (fun t ht => F.phrase (hneat t ht))
    (by simpa using F.phrase (.leaf (isLexeme_sign _))),
    .intro hneat⟩

instance (priority := low) {x : m α} [h : TellsThat (HasHead F) x] :
    TellsOnly (F.Has .component) x :=
  ⟨h.tells.mono (fun _ h => h) fun _ _ _ h => h.1⟩

section

variable (e : Expect) {body : m α} [hbody : TellsThat (HasHead F) body]

instance {kind : Kind} [hkind : BranchKind kind] : TellsOnly (F.Has .item) (node kind e body) :=
  tellsOnly_node hbody fun _ h => F.branch hkind h.2 h.1

instance : TellsOnly (F.Has .component) (node .clause e body) :=
  tellsOnly_node hbody fun _ h => F.clause h.2 h.1

instance : TellsOnly (F.Has .matchCase) (node .clause e body) :=
  tellsOnly_node hbody fun _ h => F.matchCase h.2 h.1

instance : TellsOnly (F.Has .decorated) (node .compound e body) :=
  tellsOnly_node hbody fun _ h => F.decoratedClass h.2 h.1

end

/-- The children of the definition of a function, each in its place. -/
def HasDefinition (F : Family) (ts : List Tree) : Prop :=
  All (F.Has .component) ts ∧ IsDefinition ts

instance {x : m α} [h : TellsOnly (F.Has .component) x] [h' : TellsThat IsDefinition x] :
    TellsThat (HasDefinition F) x :=
  ⟨h.tells.and h'.tells⟩

instance (e : Expect) {body : m α} [hbody : TellsThat (HasDefinition F) body] :
    TellsOnly (F.Has .item) (node .function e body) :=
  tellsOnly_node hbody fun _ h => F.function h.2 h.1

/-- The children of a decorated statement, each in its place. -/
def HasDecoration (F : Family) (ts : List Tree) : Prop :=
  All (F.Has .decorated) ts ∧ IsDecoration ts

instance (e : Expect) {body : m α} [hbody : TellsThat (HasDecoration F) body] :
    TellsOnly (F.Has .item) (node .decorated e body) :=
  tellsOnly_node hbody fun _ h => F.decorated h.2 h.1

theorem tells_decorated {kind : Kind} (hkind : DefinitionKind kind) (e : Expect) {body : m α}
    {P : List Tree → Prop} (hbody : TellsThat P body) :
      TellsThat IsDecoration (node kind e body) := by
  refine ⟨(tells_node hbody.tells).mono (fun _ h => h) ?_⟩
  rintro _ _ _ ⟨gaps, children, hgaps, -, rfl⟩
  exact .intro (forall_of_areGaps hgaps) hkind

instance (e : Expect) {body : m α} [hbody : TellsThat (HasDefinition F) body] :
    TellsOnly (F.Has .decorated) (node .function e body) :=
  tellsOnly_node hbody fun _ h => F.decoratedFunction h.2 h.1

end

/-- Phrases are parts of statements. -/
instance (priority := low) {m : Type → Type} [Monad m] [Reading source m] [Outcomes source m]
    {x : m α} [h : TellsPhrases x] : TellsOnly (F.Has .component) x :=
  h.mono fun _ => F.phrase

instance (priority := low) {m : Type → Type} [Monad m] [Reading source m] [Outcomes source m]
    {x : m α} [h : TellsPhrases x] : TellsOnly IsLine x :=
  h.mono fun _ => .phrase

section

variable {g : Grammar source} [FlushGrammar g]

instance {m : Type → Type} [Monad m] [Reading source m] [Outcomes source m] {K : Tree → Prop} :
    TellsOnly K (atSimpleEnd : m Unit) := by
  unfold atSimpleEnd
  infer_instance

theorem tellsPhrases_assigned (fuel : Nat) :
    TellsPhrases (assigned g fuel) ∧ TellsPhrases (assignedValue g fuel) := by
  induction fuel with
  | zero => exact ⟨inferInstanceAs (TellsPhrases fail), inferInstanceAs (TellsPhrases fail)⟩
  | succ fuel ih =>
      obtain ⟨hassigned, hvalue⟩ := ih
      constructor
      · unfold assigned
        infer_instance
      · unfold assignedValue
        infer_instance

instance (fuel : Nat) : TellsPhrases (assigned g fuel) :=
  (tellsPhrases_assigned fuel).1

theorem isWritten_of_isAugmented {next : Next} (h : next.isSign ['='] || isAugmented next) :
    isWritten next.lexeme.category = true := by
  rcases Bool.or_eq_true_iff.mp h with h | h
  · exact isWritten_of_isSign h
  · rw [isAugmented, Bool.and_eq_true] at h
    exact isWritten_of_is h.1 rfl

/-- After its targets an assignment has a sign. -/
instance (fuel : Nat) : TellsThat Shows (assigned g fuel) := by
  cases fuel with
  | zero => exact inferInstanceAs (TellsThat Shows fail)
  | succ fuel =>
      have hvalue : TellsPhrases (assignedValue g fuel) := (tellsPhrases_assigned fuel).2
      have hhint : TellsThat Shows (do
          sign {} [':']
          typeHint g valueEnd true
          if ← atSign (operandEnd simpleEnd) [['=']] then
            take .sign
            assignedValue g fuel
          else atSimpleEnd : Branching source Unit) := inferInstance
      unfold assigned
      refine ⟨tells_peek_bind fun next => tells_ite (fun h => ?_) fun _ => hhint.from _⟩
      exact tells_visible_bind (tells_take_visible (isWritten_of_isAugmented h))

instance (e : Expect) : TellsOnly (F.Has .item) (assignment g e) := by
  unfold assignment
  infer_instance

instance : TellsFlush (names : Parser source Unit) := by
  unfold names
  infer_instance

instance (after : Expect) : TellsFlush (dottedName after : Parser source Unit) := by
  unfold dottedName
  infer_instance

instance (after : Expect) : TellsFlush (importList after : Parser source Unit) := by
  unfold importList
  dsimp only
  infer_instance

instance : TellsFlush (importedNames : Parser source Unit) := by
  unfold importedNames
  infer_instance

instance (e : Expect) : TellsOnly (F.Has .item) (importFrom e : Parser source Unit) := by
  unfold importFrom
  refine tellsOnly_mark_bind (P := All IsNeat) (by simp [All]) fun since => ?_
  have hword :
    TellsSince since (All IsNeat) HasPhrases (keyword e .kwFrom : Parser source Unit) := by
    have hneat : TellsPhrases (keyword e .kwFrom : Parser source Unit) := inferInstance
    have hshows : TellsThat Shows (keyword e .kwFrom : Parser source Unit) := inferInstance
    exact .of_tells since ((hneat.tells.and hshows.tells).mono (fun _ h => h)
      fun _ _ _ hus ts hts => ⟨forall_mem_append hts hus.1, hus.2.prepend ts⟩)
  refine hword.bind fun _ => ?_
  extract_lets ended names
  have hnames (u : Unit) : TellsSince since HasPhrases (All (F.Has .item)) (names u) := by
    unfold names
    infer_instance
  clear_value names
  refine .after fun next => ?_
  split <;> infer_instance

instance : TellsFlush (raiseRest g) := by
  unfold raiseRest
  dsimp only
  infer_instance

instance (after : Expect) : TellsFlush (strictExpressions g after) := by
  unfold strictExpressions
  infer_instance

instance {m : Type → Type} [Monad m] [Reading source m] [Outcomes source m] {K : Tree → Prop} :
    TellsOnly K (atSoftRest : m Bool) := by
  unfold atSoftRest
  infer_instance

instance (e : Expect) (redirected : Bool) :
    TellsOnly (F.Has .item) (printStatement g e redirected) := by
  unfold printStatement
  dsimp only
  infer_instance

instance (e : Expect) : TellsOnly (F.Has .item) (execStatement g e) := by
  unfold execStatement
  extract_lets ended rest
  have hrest (u : Unit) : TellsPhrases (rest u) := by unfold rest; infer_instance
  clear_value rest
  infer_instance

instance (e : Expect) : TellsOnly (F.Has .item) (typeAlias g e) := by
  unfold typeAlias
  dsimp only
  infer_instance

theorem tells_word_node {kind : Kind} (hkind : SimpleKind kind) {next : Next}
    (h : next.is .name = true)
    (e : Expect) {rest : Parser source Unit} [TellsPhrases rest] :
    Tells (facing next) (node kind e (take .word >>= fun _ => rest)) fun _ _ ts =>
      ∀ t ∈ ts, F.Has .item t := by
  have hbody : TellsPhrases (take .word >>= fun _ => rest : Parser source Unit) := inferInstance
  have hword : Tells (facing (bare next)) (take .word : Parser source Unit) fun _ _ ts =>
    Shows ts :=
    tells_take_visible (isWritten_of_is h rfl)
  have hphrases : Tells (facing (bare next)) (take .word >>= fun _ => rest : Parser source Unit)
      fun _ _ ts => HasPhrases ts := (hbody.from _).and (tells_visible_bind hword)
  exact (tells_node_facing hphrases).mono (fun _ h => h)
    fun _ _ _ => forall_of_node fun _ h => F.simple hkind h.2 h.1

theorem tells_plainStatement {next : Next} (h : next.is .name = true) (e : Expect) (k : Keyword) :
    Tells (facing next) (plainStatement g e k) fun _ _ ts => ∀ t ∈ ts, F.Has .item t := by
  have hend {x : Parser source Unit} (hx : Tells (facing next) x fun _ _ ts =>
    ∀ t ∈ ts, F.Has .item t) :
      Tells (facing next) (x >>= fun _ => atSimpleEnd) fun _ _ ts => ∀ t ∈ ts, F.Has .item t :=
    tells_only_bind (fun _ => anywhere) (hx.mono (fun _ h => h) fun _ _ _ h => ⟨trivial, h⟩)
      fun _ => TellsOnly.tells
  unfold plainStatement
  dsimp only
  split
  case h_2 => exact hend (TellsOnly.from inferInstance _)
  all_goals exact hend (tells_word_node inferInstance h e)

variable [ShowingGrammar g]

instance (e : Expect) : TellsOnly (F.Has .item) (valuesStatement g e) := by
  unfold valuesStatement
  infer_instance

instance (e : Expect) : TellsOnly (F.Has .item) (expressionStatement g e) := by
  unfold expressionStatement
  infer_instance

omit [FlushGrammar g] [ShowingGrammar g] in
instance {reader : Branching source Unit} [TellsOnly (F.Has .item) reader] (typed : Bool) :
    TellsOnly (F.Has .item) (simpleStatement.unlessType typed reader) := by
  unfold simpleStatement.unlessType
  dsimp only
  infer_instance

instance (e : Expect) (typed : Bool) : TellsOnly (F.Has .item) (simpleStatement g e typed) := by
  unfold simpleStatement
  refine ⟨tells_peek_bind fun next => ?_⟩
  split
  case h_4 k _ _ _ hword =>
    have hname : next.is .name = true := by
      by_contra hother
      rw [if_neg hother] at hword
      cases hword
    have hother : TellsOnly (F.Has .item) (simpleStatement.unlessType typed <|
        if k == .kwType then
          both (liftM (typeAlias g e : Parser source Unit) : Branching source Unit)
            (expressionStatement g e)
        else expressionStatement g e) := inferInstance
    exact tells_ite (fun _ => tells_step (tells_plainStatement hname e k)) fun _ => hother.from _
  all_goals exact TellsOnly.from inferInstance _

theorem tellsOnly_layoutMark {m : Type → Type} [Monad m] [Reading source m] [Outcomes source m]
    {K : Tree → Prop} [HasGaps K] (hmark : K (.leaf .layout [])) (e : Expect) :
    TellsOnly K (layoutMark e .lineEnd : m Unit) :=
  ⟨(tells_layoutMark e .lineEnd rfl).mono (fun _ h => h) fun _ _ _ h => forall_of_lexed hmark h⟩

instance {m : Type → Type} [Monad m] [Reading source m] [Outcomes source m] (e : Expect) :
    TellsOnly (F.Has .item) (layoutMark e .lineEnd : m Unit) :=
  tellsOnly_layoutMark (F.separator .mark) e

instance {m : Type → Type} [Monad m] [Reading source m] [Outcomes source m] (e : Expect) :
    TellsOnly IsLine (layoutMark e .lineEnd : m Unit) :=
  tellsOnly_layoutMark .mark e

theorem tells_semicolon {next : Next} {rest : Branching source Bool} (h : next.isSign [';'] = true)
    (hrest : TellsOnly (F.Has .item) rest) :
    Tells (facing next) (take .sign >>= fun _ => rest) fun _ _ ts => ∀ t ∈ ts, F.Has .item t := by
  obtain ⟨-, htext⟩ := (isSign_iff next [';']).mp h
  refine tells_only_bind (fun _ => anywhere) ?_ fun _ => hrest.tells
  refine (tells_only_take ?_).mono (fun _ h => h) fun _ _ _ h => ⟨trivial, h⟩
  rw [htext]
  exact F.separator .semicolon

theorem tellsOnly_moreStatements : TellsOnly (F.Has .item) (repeated do
    if !(← peek simpleEnd).isSign [';'] then return false
    take .sign
    let following := operandStart.union simpleEnd
    if (← peek following).is .lineEnd then return false
    simpleStatement g following false
    return true : Branching source Unit) := by
  refine ⟨tells_repeated (tells_peek_bind fun next => tells_ite (fun _ => ?_) fun h => ?_)⟩
  · exact tells_only_pure false
  · exact tells_semicolon (by simpa using h) inferInstance

instance (e : Expect) (typed : Bool) : TellsOnly (F.Has .item) (simpleStatements g e typed) := by
  unfold simpleStatements
  have hmore := tellsOnly_moreStatements (F := F) (g := g)
  infer_instance

end

section

variable {m : Type → Type} [Monad m] [Reading source m] [Outcomes source m] {β : Type}

/-- A reader that tells a construct first if no gap is ahead. -/
class TellsLed (x : m α) : Prop where
  tells (next : Next) : Tells (facing (bare next)) x fun _ _ ts => IsLed ts

theorem tellsLed_node {kind : Kind} {e : Expect} {body : m α} {K : Tree → Prop}
    (hbody : TellsOnly K body) :
    TellsLed (node kind e body) := by
  refine ⟨fun next => (tells_node_after (P := (· = [])) (tells_passGaps_bare e next)
    (hbody.from (facing (bare next)))).mono (fun _ h => h) ?_⟩
  rintro _ _ _ ⟨_, children, rfl, -, rfl⟩
  exact ⟨kind, children, [], rfl⟩

instance {kind : Kind} (e : Expect) {body : m α} [hbody : TellsOnly (formed.Has .component) body] :
    TellsLed (node kind e body) :=
  tellsLed_node hbody

instance {x : m α} {f : α → m β} [hx : TellsLed x] [hf : ∀ a, TellsOnly (formed.Has .item) (f a)] :
    TellsLed (x >>= f) := by
  refine ⟨fun next => tells_bind (hx.tells next) fun a ts c hc hts way hway => ?_⟩
  obtain ⟨us, htold, -⟩ := (hf a).tells c hc trivial way hway
  exact ⟨us, htold, hts.append us⟩

theorem TellsLed.after {x : m α} {f : α → m β} [hflush : TellsFlush x]
    [hx : TellsOnly (fun _ => False) x]
    (hf : ∀ a, TellsLed (f a)) : TellsLed (x >>= f) := by
  refine ⟨fun next => tells_bind ((hflush.begins next).and (hx.from _)) fun a ts => ?_⟩
  rintro c hc ⟨⟨rfl, hfacing⟩ | ⟨hne, -⟩, hnone⟩ way hway
  · exact (hf a).tells next c hc hfacing way hway
  · exact absurd (List.eq_nil_iff_forall_not_mem.mpr hnone) hne

instance {x : m α} {f : α → m β} [TellsFlush x] [TellsOnly (fun _ => False) x]
    [hf : ∀ a, TellsLed (f a)] :
    TellsLed (x >>= f) :=
  .after hf

instance {x : m α} {y : m β} [TellsFlush x] [TellsOnly (fun _ => False) x] [hy : TellsLed y] :
    TellsLed (x >>= fun _ => y) :=
  .after fun _ => hy

instance {p : Prop} [Decidable p] {x y : m α} [hx : TellsLed x] [hy : TellsLed y] :
    TellsLed (if p then x else y) :=
  ⟨fun next => tells_ite (fun _ => hx.tells next) fun _ => hy.tells next⟩

theorem tellsLed_mark_bind {P : List Tree → Prop} {e : Expect} {f : Nat → m α} (hP : P [])
    (hf : ∀ since, TellsSince since P IsLed (f since)) : TellsLed (mark e >>= f) := by
  refine ⟨fun next => ?_⟩
  have hgaps : Tells (facing (bare next)) (passGaps e : Parser source Unit) fun _ c ts =>
      ts = [] ∧ ∃ next, facing (bare next) c :=
    (tells_passGaps_bare e next).mono (fun _ h => h) fun _ _ _ h => ⟨h.1, next, h.2⟩
  refine tells_bind (tells_mark_after hgaps) fun since gaps => ?_
  rintro c hc ⟨rfl, _, -, rfl⟩ way hway
  obtain ⟨hvalid, us, hlog, hus⟩ := (hf c.log.length).keeps c.log rfl c hc [] rfl hP way hway
  exact ⟨us, ⟨hvalid, hlog⟩, hus⟩

instance {kind : Kind} {K : Tree → Prop} (since : Nat) :
    TellsSince since (All K) IsLed (wrap kind since : m Unit) :=
  tellsSince_wrap since fun children _ => ⟨kind, children, [], rfl⟩

end

instance {p : Parser source α} [hp : TellsLed p] : TellsLed (liftM p : Branching source α) :=
  ⟨fun next => tells_step (hp.tells next)⟩

instance {first second : Branching source α} [h₁ : TellsLed first] [h₂ : TellsLed second] :
    TellsLed (both first second) :=
  ⟨fun next => tells_both (h₁.tells next) (h₂.tells next)⟩

section

variable {g : Grammar source} [FlushGrammar g] [ShowingGrammar g]

instance (e : Expect) : TellsLed (assignment g e) := by
  unfold assignment
  infer_instance

instance (e : Expect) : TellsLed (valuesStatement g e) := by
  unfold valuesStatement
  infer_instance

instance (e : Expect) : TellsLed (expressionStatement g e) := by
  unfold expressionStatement
  infer_instance

instance (e : Expect) : TellsLed (importFrom e : Parser source Unit) := by
  unfold importFrom
  refine tellsLed_mark_bind (P := All IsNeat) (by simp [All]) fun since => ?_
  extract_lets ended names
  have hnames (u : Unit) : TellsSince since (All IsNeat) IsLed (names u) := by
    unfold names
    infer_instance
  clear_value names
  refine .after fun _ => .after fun next => ?_
  split <;> infer_instance

instance (e : Expect) (redirected : Bool) : TellsLed (printStatement g e redirected) := by
  unfold printStatement
  dsimp only
  infer_instance

instance (e : Expect) : TellsLed (execStatement g e) := by
  unfold execStatement
  dsimp only
  infer_instance

instance (e : Expect) : TellsLed (typeAlias g e) := by
  unfold typeAlias
  dsimp only
  infer_instance

instance (e : Expect) (k : Keyword) : TellsLed (plainStatement g e k) := by
  unfold plainStatement
  dsimp only
  split <;> infer_instance

instance {reader : Branching source Unit} [TellsLed reader] (typed : Bool) :
    TellsLed (simpleStatement.unlessType typed reader) := by
  unfold simpleStatement.unlessType
  dsimp only
  infer_instance

instance (e : Expect) (typed : Bool) : TellsLed (simpleStatement g e typed) := by
  unfold simpleStatement
  refine .after fun next => ?_
  split <;> infer_instance

instance (e : Expect) (typed : Bool) : TellsLed (simpleStatements g e typed) := by
  unfold simpleStatements
  have hmore := tellsOnly_moreStatements (F := formed) (g := g)
  infer_instance

end

/-- The reader of blocks tells statements, or the end of the block and nothing else. -/
class Completes (parts : Parts source) : Prop where
  block : ∀ next, Tells (facing (bare next)) parts.block fun _ _ ts => IsComplete ts

section

variable {parts : Parts source} [FlushGrammar parts.phrase] [ShowingGrammar parts.phrase]
  [hb : TellsOnly (F.Has .item) parts.block] [hc : Completes parts]

theorem tells_layout_bind {K : Tree → Prop} [HasGaps K] {next : Next} {rest : Branching source α}
    (h : isLayout next.lexeme.category = true) (hmark : K (.leaf .layout []))
    (hrest : TellsOnly K rest) :
    Tells (facing next) (take .layout >>= fun _ => rest) fun _ _ ts => ∀ t ∈ ts, K t :=
  tells_only_bind (fun _ => anywhere)
    ((tells_only_take_layout h hmark).mono (fun _ h => h) fun _ _ _ h => ⟨trivial, h⟩)
    fun _ => hrest.tells

theorem tellsOnly_emptyBlock {e : Expect} {next : Next} (h : isLayout next.lexeme.category = true) :
    Tells (facing next) (node .block e (take .layout) : Branching source Unit) fun _ _ ts =>
      ∀ t ∈ ts, F.Has .component t :=
  (tells_node_facing (tells_only_take_layout h (F.separator .mark))).mono (fun _ h => h)
    fun _ _ _ => forall_of_node fun _ => F.block

instance (typed : Bool) : TellsOnly (F.Has .component) (suite parts typed) := by
  unfold suite
  refine .bind fun _ => ⟨tells_peek_bind fun next => ?_⟩
  split
  · rename_i hindent
    exact tells_layout_bind (by rw [hindent]; rfl) F.mark inferInstance
  · rename_i hend
    exact tellsOnly_emptyBlock (by rw [hend]; rfl)
  · exact TellsOnly.from inferInstance _

omit hb in
instance (typed : Bool) : TellsThat IsSuite (suite parts typed) := by
  unfold suite
  refine tells_colon_bind fun _ => ⟨tells_peek_bind fun next => ?_⟩
  split
  · rename_i hindent
    exact tells_layout_block (by rw [hindent]; rfl) ⟨tells_block hc.block⟩
  · rename_i hend
    exact tells_emptyBlock (by rw [hend]; rfl)
  · refine tells_block fun next => ?_
    exact (TellsLed.tells next).mono (fun _ h => h) fun _ _ _ h => .inl h

instance (typed : Bool) : TellsThat (HasHead F) (suite parts typed) := by
  have hplaces : TellsOnly (F.Has .component) (suite parts typed) := inferInstance
  have hsuite : TellsThat IsSuite (suite parts typed) := inferInstance
  exact ⟨(hplaces.tells.and hsuite.tells).mono (fun _ h => h) fun _ _ _ h => ⟨h.1, h.2.isHeaded⟩⟩

instance (e : Expect) (k : Keyword) {body : Branching source Unit} [TellsThat (HasHead F) body] :
    TellsOnly (F.Has .component) (clause e k body) := by
  unfold clause
  infer_instance

instance (e : Expect) : TellsOnly (F.Has .component) (elseClause parts e) := by
  unfold elseClause
  infer_instance

instance (e : Expect) : TellsOnly (F.Has .component) (finallyClause parts e) := by
  unfold finallyClause
  infer_instance

instance : TellsThat (HasHead F) (guarded parts) := by
  unfold guarded
  infer_instance

instance (e : Expect) : TellsThat (HasHead F) (ifRest parts e) := by
  unfold ifRest
  infer_instance

instance (e : Expect) : TellsThat (HasHead F) (forRest parts e) := by
  unfold forRest
  infer_instance

instance {g : Grammar source} [FlushGrammar g] : TellsPhrases (contexts g) := by
  unfold contexts
  infer_instance

instance : TellsThat (HasHead F) (withRest parts) := by
  unfold withRest
  infer_instance

instance : TellsThat (HasHead F) (handler parts) := by
  unfold handler
  dsimp only
  infer_instance

instance : TellsThat (HasHead F) (groupHandler parts) := by
  unfold groupHandler
  infer_instance

instance {m : Type → Type} [Monad m] [Reading source m] [Outcomes source m] {K : Tree → Prop} :
    TellsOnly K (atGroup : m Bool) := by
  unfold atGroup
  infer_instance

instance (e : Expect) : TellsThat (HasHead F) (tryRest parts e) := by
  unfold tryRest
  have hhandler (ofGroups : Bool) :
      TellsThat (HasHead F) (if ofGroups = true then groupHandler parts else handler parts) :=
        inferInstance
  extract_lets handlers following rest
  have hrest (u : Unit) : TellsOnly (F.Has .component) (rest u) := by unfold rest; infer_instance
  clear_value rest
  infer_instance

instance : TellsOnly (F.Has .component) (functionRest parts) := by
  unfold functionRest
  extract_lets g rest
  have hrest (u : Unit) : TellsOnly (F.Has .component) (rest u) := by unfold rest; infer_instance
  clear_value rest
  infer_instance

omit hb in
instance : TellsThat IsDefinition (functionRest parts) := by
  unfold functionRest
  extract_lets g rest
  have hrest (u : Unit) : TellsThat IsSignature (rest u) := by unfold rest; infer_instance
  clear_value rest
  infer_instance

instance : TellsThat (HasHead F) (classRest parts) := by
  unfold classRest
  dsimp only
  infer_instance

instance : TellsOnly (F.Has .decorated) (asyncFunction parts) := by
  unfold asyncFunction
  infer_instance

instance : TellsOnly (F.Has .decorated) (decoratedRest parts) := by
  unfold decoratedRest
  infer_instance

instance : TellsThat (HasDecoration F) (decoratedRest parts) := by
  have hclass : TellsThat IsDecoration (node .compound {} (classRest parts)) :=
    tells_decorated .compound {} (.of_only (inferInstance : TellsOnly (F.Has .component) _))
  have hfunction : TellsThat IsDecoration (node .function {} (functionRest parts)) :=
    tells_decorated .function {} (inferInstance : TellsThat IsDefinition _)
  have hasync : TellsThat IsDecoration (asyncFunction parts) :=
    tells_decorated .function {} (inferInstance : TellsThat IsDefinition _)
  have hdecoration : TellsThat IsDecoration (decoratedRest parts) := by
    unfold decoratedRest
    infer_instance
  have hplaces : TellsOnly (F.Has .decorated) (decoratedRest parts) := inferInstance
  exact ⟨hplaces.tells.and hdecoration.tells⟩

instance : TellsOnly (F.Has .matchCase) (caseClause parts) := by
  unfold caseClause
  infer_instance

theorem isLayout_of_is {next : Next} {category : Category} (h : next.is category = true)
    (hcategory : isLayout category = true) : isLayout next.lexeme.category = true := by
  obtain rfl : next.lexeme.category = category := by simpa [Next.is] using h
  exact hcategory

theorem tells_cases {next : Next} (h : isLayout next.lexeme.category = true) :
    Tells (facing next) (node .block {} do
      take .layout
      repeated do
        if (← peek { dedent := true }).is .dedent then
          take .layout
          return false
        caseClause parts
        return true : Branching source Unit) fun _ _ ts => ∀ t ∈ ts, F.Has .component t := by
  have hmore : TellsOnly (F.Has .matchCase) (repeated do
      if (← peek { dedent := true }).is .dedent then
        take .layout
        return false
      caseClause parts
      return true : Branching source Unit) := by
    refine ⟨tells_repeated (tells_peek_bind fun next => tells_ite (fun h => ?_) fun _ => ?_)⟩
    · exact tells_layout_bind (isLayout_of_is h rfl) F.markBeforeCase inferInstance
    · exact TellsOnly.from inferInstance _
  exact (tells_node_facing (tells_layout_bind h F.markBeforeCase hmore)).mono (fun _ h => h)
    fun _ _ _ => forall_of_node fun _ => F.cases

variable (F parts) in
theorem tellsOnly_cases : TellsOnly (F.Has .component) (do
    match (← peek { lineEnd := true, indent := true }).lexeme.category with
    | .indent =>
      node .block {} do
        take .layout
        repeated do
          if (← peek { dedent := true }).is .dedent then
            take .layout
            return false
          caseClause parts
          return true
    | .lineEnd => node .block {} (take .layout)
    | _ => fail : Branching source Unit) := by
  refine ⟨tells_peek_bind fun next => ?_⟩
  split
  · rename_i hindent
    exact tells_cases (by rw [hindent]; rfl)
  · rename_i hend
    exact tellsOnly_emptyBlock (by rw [hend]; rfl)
  · exact tells_fail

instance (e : Expect) : TellsOnly (F.Has .item) (matchStatement parts e) := by
  unfold matchStatement
  have hblock := tellsOnly_cases F parts
  dsimp only
  infer_instance

instance {m : Type → Type} [Monad m] [Reading source m] [Outcomes source m] {K : Tree → Prop}
    (e : Expect) : TellsOnly K (asyncRest e : m (Option Keyword)) := by
  unfold asyncRest
  infer_instance

instance {m : Type → Type} [Monad m] [Reading source m] [Outcomes source m] (e : Expect) :
    TellsFlush (asyncRest e : m (Option Keyword)) := by
  unfold asyncRest
  infer_instance

instance (e : Expect) (k : Keyword) : TellsOnly (F.Has .item) (asyncStatement parts e k) := by
  unfold asyncStatement
  let P (ts : List Tree) : Prop := All IsNeat ts ∧ All IsBare ts
  refine tellsOnly_mark_bind (P := P) ⟨by simp [All], by simp [All]⟩ fun since => ?_
  have hword : TellsSince since P P (keyword e .kwAsync : Branching source Unit) := by
    have hneat : TellsPhrases (keyword e .kwAsync : Branching source Unit) := inferInstance
    have hbare : TellsOnly IsBare (keyword e .kwAsync : Branching source Unit) := inferInstance
    exact .of_tells since ((hneat.tells.and hbare.tells).mono (fun _ h => h)
      fun _ _ _ hus _ hts => ⟨forall_mem_append hts.1 hus.1, forall_mem_append hts.2 hus.2⟩)
  have hheaded {x : Branching source Unit} (hx : TellsThat (HasHead F) x) :
    TellsSince since P (HasHead F) x :=
    .of_tells since (hx.tells.mono (fun _ h => h) fun _ _ _ hus _ hts => Precedes.prepend hts.1 hus)
  refine hword.bind fun _ => ?_
  split
  · have hrest : TellsSince since P (HasDefinition F) (functionRest parts) := by
      have hdefinition : TellsThat (HasDefinition F) (functionRest parts) := inferInstance
      refine .of_tells since (hdefinition.tells.mono (fun _ h => h) fun _ _ _ hus ts hts => ?_)
      exact ⟨forall_mem_append (fun t ht => F.phrase (hts.1 t ht)) hus.1,
        Precedes.prepend hts.2 hus.2⟩
    exact hrest.bind fun _ => tellsSince_wrap since fun children h =>
      forall_of_node (fun _ h => F.function h.2 h.1) ⟨[], children, AreGaps.nil, h, rfl⟩
  · split
    · exact (hheaded inferInstance).bind fun _ => tellsSince_wrap since fun children h =>
        forall_of_node (fun _ h => F.branch .forLoop h.2 h.1) ⟨[], children, AreGaps.nil, h, rfl⟩
    · exact (hheaded inferInstance).bind fun _ => tellsSince_wrap since fun children h =>
        forall_of_node (fun _ h => F.branch .compound h.2 h.1) ⟨[], children, AreGaps.nil, h, rfl⟩

instance (inBlock : Bool) : TellsOnly (F.Has .item) (statement parts inBlock) := by
  unfold statement
  refine .bind fun next => ?_
  dsimp only
  split
  case h_9 =>
    refine .bind fun rest => ?_
    split <;> infer_instance
  all_goals infer_instance

instance : TellsOnly (F.Has .item) (blockBody parts) := by
  refine ⟨tells_repeated (tells_peek_bind fun next => tells_ite (fun h => ?_) fun _ => ?_)⟩
  · exact tells_layout_bind (isLayout_of_is h rfl) (F.separator .mark) inferInstance
  · exact TellsOnly.from inferInstance _

end

section

variable {parts : Parts source} [FlushGrammar parts.phrase] [ShowingGrammar parts.phrase]
  [TellsOnly (formed.Has .item) parts.block]
  [Completes parts]

instance (e : Expect) : TellsLed (matchStatement parts e) := by
  unfold matchStatement
  have hblock := tellsOnly_cases formed parts
  dsimp only
  infer_instance

instance (e : Expect) (k : Keyword) : TellsLed (asyncStatement parts e k) := by
  unfold asyncStatement
  refine tellsLed_mark_bind (P := All (formed.Has .component)) (by simp [All]) fun since => ?_
  infer_instance

instance (e : Expect) : TellsLed (node .decorated e (decoratedRest parts)) :=
  tellsLed_node (inferInstance : TellsOnly (formed.Has .decorated) _)

instance (inBlock : Bool) : TellsLed (statement parts inBlock) := by
  unfold statement
  refine .after fun next => ?_
  dsimp only
  split
  case h_9 =>
    refine .after fun rest => ?_
    split <;> infer_instance
  all_goals infer_instance

theorem complete_blockBody (next : Next) :
    Tells (facing (bare next)) (blockBody parts) fun _ _ ts => IsComplete ts := by
  let within (more : Bool) (ts : List Tree) : Prop :=
    if more then IsLed ts else IsComplete ts
  have hled : TellsLed (statement parts true) := inferInstance
  have hstatement : TellsOnly (formed.Has .item) (statement parts true) := inferInstance
  have hkept {more : Bool} {ts : List Tree} (hts : within true ts) (us : List Tree) :
      within more (ts ++ us) := by
    have hfirst : IsLed ts := hts
    cases more with
    | false => exact .inl (hfirst.append us)
    | true => exact hfirst.append us
  have hloop : Tells (facing (bare next)) (blockBody parts) fun _ _ ts =>
    ∃ more, within more ts := by
    unfold blockBody
    refine tells_repeated_first (tells_peek_bind_facing (tells_ite (fun h => ?_) fun _ => ?_)) ?_
    · exact tells_bind (tells_take_mark (isLayout_of_is h rfl)) fun _ _ =>
        tells_pure fun _ hts => by
        simpa [within] using .inr hts
    · exact tells_bind (hled.tells next) fun _ _ => tells_pure fun _ hts =>
        by simpa [within] using hts
    · intro ts hts
      refine tells_peek_bind fun next => tells_ite (fun _ => ?_) fun _ => ?_
      · exact tells_bind (tells_take .layout) fun _ _ => tells_pure fun _ _ => hkept hts _
      · exact tells_bind (hstatement.from _) fun _ _ => tells_pure fun _ _ => hkept hts _
  refine hloop.mono (fun _ h => h) ?_
  rintro _ _ _ ⟨more, h⟩
  cases more with
  | false => exact h
  | true => exact .inl h

end

instance (depth : Nat) : FlushGrammar (parts source depth).phrase := by
  cases depth <;> exact inferInstanceAs (FlushGrammar (Source.Syntax.phrase _))

instance (depth : Nat) : ShowingGrammar (parts source depth).phrase := by
  cases depth <;> exact inferInstanceAs (ShowingGrammar (Source.Syntax.phrase _))

theorem completes_parts (depth : Nat) :
    TellsOnly (formed.Has .item) (parts source depth).block ∧ Completes (parts source depth) := by
  induction depth with
  | zero =>
      exact ⟨inferInstanceAs (TellsOnly _ (fail : Branching source Unit)), ⟨fun _ => tells_fail⟩⟩
  | succ depth ih =>
      obtain ⟨hitems, hcomplete⟩ := ih
      exact ⟨inferInstanceAs (TellsOnly _ (blockBody (parts source depth))),
        ⟨complete_blockBody⟩⟩

instance (depth : Nat) : Completes (parts source depth) :=
  (completes_parts depth).2

instance (depth : Nat) : TellsOnly (F.Has .item) (parts source depth).block := by
  induction depth with
  | zero => exact inferInstanceAs (TellsOnly _ (fail : Branching source Unit))
  | succ depth ih => exact inferInstanceAs (TellsOnly _ (blockBody (parts source depth)))

instance : TellsOnly (F.Has .item) (statements source) := by
  unfold statements
  infer_instance

theorem told_begin (source : List Char) :
    ∃ ts, Told (Cursor.start source) (begin source) ts ∧ AreGaps ts := by
  unfold begin
  dsimp only
  split
  · rename_i hmark
    refine ⟨_, told_shift_gap (valid_start source) .blank 1, AreGaps.cons ?_ AreGaps.nil⟩
    obtain ⟨rest, rfl⟩ : ∃ rest, source = '\ufeff' :: rest := by
      simpa [List.head?_eq_some_iff] using hmark
    exact Blanks.space (by decide) .nil
  · exact ⟨[], Told.refl (valid_start source), AreGaps.nil⟩

theorem has_of_ofSource (F : Family) {trees : List Tree} (h : ofSource source = .ok trees) :
    ∀ t ∈ trees, F.Has .item t := by
  dsimp only [ofSource] at h
  split at h
  · rename_i c hc
    obtain rfl : ofEvents c.log.reverse = trees := Except.ok.inj h
    obtain ⟨before, hbefore, hgaps⟩ := told_begin source
    have htells : TellsOnly (F.Has .item) (statements source) := inferInstance
    obtain ⟨ts, htold, hts⟩ :=
      htells.tells (begin source) hbefore.valid trivial ((), c) (List.mem_of_find?_eq_some hc)
    have hlog : c.log = (eventsOfAll (before ++ ts)).reverse := by
      simpa [Cursor.start] using (hbefore.trans htold).log
    rw [hlog, List.reverse_reverse, ofEvents_eventsOfAll]
    exact forall_mem_append (forall_of_areGaps hgaps) hts
  · cases h

theorem formed_of_ofSource {trees : List Tree} (h : ofSource source = .ok trees) :
    ∀ t ∈ trees, Formed .item t :=
  has_of_ofSource formed h

end Cythonizer.Proofs.Source.Statements
