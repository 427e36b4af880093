import Mathlib.Data.List.TakeDrop
import Cythonizer.Proofs.Outline.Pieces

namespace Cythonizer.Proofs.Outline.Defects

open Cythonizer.Outline.OfTree
open Cythonizer.Source.Gaps
open Cythonizer.Source.Syntax
open Cythonizer.Source.Trees
open Cythonizer.Proofs.Outline.Pieces
open Cythonizer.Proofs.Outline.Segments
open Cythonizer.Proofs.Source.Contents
open Cythonizer.Proofs.Source.Parameters
open Cythonizer.Proofs.Source.Phrasing
open Cythonizer.Proofs.Source.Shapes
open Cythonizer.Proofs.Source.Statements

mutual

/-- The definitions of functions in a tree that stand in no other function and in no loop, each by
its children, in the order of the source. -/
def definitionsIn : Tree → List (List Tree)
  | .gap _ _ => []
  | .leaf _ _ => []
  | .node .function children => [children]
  | .node .forLoop _ => []
  | .node _ children => definitionsAmong children

def definitionsAmong : List Tree → List (List Tree)
  | [] => []
  | t :: rest => definitionsIn t ++ definitionsAmong rest

end

/-- Whether a definition has a block without statements. -/
def lacksStatements (children : List Tree) : Bool :=
  children.any fun t => isNode .block t && !(childrenOf t).any isConstruct

theorem definitionsAmong_eq (ts : List Tree) : definitionsAmong ts = ts.flatMap definitionsIn := by
  induction ts with
  | nil => rfl
  | cons t rest ih => rw [definitionsAmong, ih, List.flatMap_cons]

theorem definitionsAmong_eq_nil {ts : List Tree} (h : ∀ t ∈ ts, definitionsIn t = []) :
    definitionsAmong ts = [] := by
  rw [definitionsAmong_eq, List.flatMap_eq_nil_iff]
  exact h

theorem definitionsIn_node {kind : Kind} (hfunction : kind ≠ .function) (hloop : kind ≠ .forLoop)
    (children : List Tree) : definitionsIn (.node kind children) = definitionsAmong children := by
  rw [definitionsIn]
  · exact hfunction
  · exact hloop

theorem definitionsIn_of_not_isConstruct {t : Tree} (h : isConstruct t = false) :
    definitionsIn t = [] := by
  cases t with
  | gap g text => rw [definitionsIn]
  | leaf l text => rw [definitionsIn]
  | node kind children => cases h

theorem definitionsIn_of_isPhrase {t : Tree} (h : IsPhrase t) : definitionsIn t = [] := by
  induction h with
  | gap _ => rw [definitionsIn]
  | leaf _ => rw [definitionsIn]
  | node hkind _ ih =>
      rw [definitionsIn_node, definitionsAmong_eq_nil ih]
      all_goals
        rintro rfl
        cases hkind

theorem definitionsIn_of_isLine {t : Tree} (h : IsLine t) : definitionsIn t = [] := by
  cases h with
  | phrase h => exact definitionsIn_of_isPhrase h.isPhrase
  | mark => rw [definitionsIn]

theorem definitionsIn_of_isAbove {t : Tree} (h : IsAbove t) : definitionsIn t = [] := by
  cases h with
  | gap _ => rw [definitionsIn]
  | decorator h =>
      rw [definitionsIn_node (by decide) (by decide),
        definitionsAmong_eq_nil fun t ht => definitionsIn_of_isLine (h t ht)]

theorem isConstruct_of_isPart {t : Tree} (h : isPart t = false) : isConstruct t = false := by
  cases t with
  | gap g text => rfl
  | leaf l text => rfl
  | node kind children => cases h

theorem definitionsAmong_items (ts : List Tree) :
    definitionsAmong ts = (ts.filter isPart).flatMap definitionsIn := by
  induction ts with
  | nil => rfl
  | cons t rest ih =>
      rw [definitionsAmong, ih]
      by_cases h : isPart t
      · simp [h]
      · have hnone : definitionsIn t = [] :=
          definitionsIn_of_not_isConstruct (isConstruct_of_isPart (by simpa using h))
        simp [h, hnone]

theorem definitionsAmong_blockParts {ts : List Tree} (h : ∀ t ∈ ts, Cuttable t) :
    definitionsAmong ts = (blockParts ts).flatMap definitionsIn := by
  induction ts using trees_induction with
  | nil => simp [definitionsAmong, blockParts]
  | gap g text rest ih =>
      obtain ⟨-, hrest⟩ := List.forall_mem_cons.mp h
      rw [definitionsAmong, definitionsIn, blockParts, ih hrest, List.nil_append]
  | leaf l text rest ih =>
      obtain ⟨-, hrest⟩ := List.forall_mem_cons.mp h
      rw [definitionsAmong, definitionsIn, blockParts, ih hrest, List.nil_append]
  | block children rest ih =>
      obtain ⟨-, hrest⟩ := List.forall_mem_cons.mp h
      rw [definitionsAmong, definitionsIn_node (by decide) (by decide), definitionsAmong_items,
        blockParts, List.flatMap_append, ih hrest]
  | node kind children rest hblock ihchildren ih =>
      obtain ⟨hfirst, hrest⟩ := List.forall_mem_cons.mp h
      obtain _ | _ | _ | ⟨-, hfunction, -, hloop, hchildren⟩ := hfirst
      · exact absurd rfl hblock
      · rw [definitionsAmong, definitionsIn_node hfunction hloop, blockParts_node hblock,
          List.flatMap_append, ihchildren hchildren, ih hrest]

/-- A tree in which every definition and every decorated statement has its parts, and every phrase
begins and ends with lexemes. -/
inductive Sound : Tree → Prop
  | gap (g : Gap) (text : List Char) : Sound (.gap g text)
  | leaf (l : Leaf) (text : List Char) : Sound (.leaf l text)
  | node {kind : Kind} {children : List Tree} (hfunction : kind = .function → IsDefinition children)
      (hdecorated : kind = .decorated → IsDecoration children)
      (hphrase : FlushKind kind → Flush children)
      (h : ∀ t ∈ children, Sound t) : Sound (.node kind children)

theorem Sound.plain {kind : Kind} {children : List Tree} (hfunction : kind ≠ .function)
    (hdecorated : kind ≠ .decorated) (hphrase : ¬FlushKind kind) (h : ∀ t ∈ children, Sound t) :
    Sound (.node kind children) :=
  .node (fun heq => absurd heq hfunction) (fun heq => absurd heq hdecorated)
    (fun h => absurd h hphrase) h

theorem sound_of_isNeat {t : Tree} (h : IsNeat t) : Sound t := by
  induction h with
  | gap _ => exact .gap _ _
  | leaf _ => exact .leaf _ _
  | node hkind hflush _ ih => refine .node ?_ ?_ (fun _ => hflush) ih <;> rintro rfl <;> cases hkind
  | string _ ih => exact .plain nofun nofun nofun ih

theorem sound_of_isLine {t : Tree} (h : IsLine t) : Sound t := by
  cases h with
  | phrase h => exact sound_of_isNeat h
  | mark => exact .leaf _ _

def sound : Family where
  Has _ := Sound
  separator h := by cases h <;> constructor
  simple h _ hchildren := by
    have hsound := fun t ht => sound_of_isNeat (hchildren t ht)
    cases h <;> exact .plain nofun nofun nofun hsound
  branch h _ hchildren := by cases h <;> exact .plain nofun nofun nofun hchildren
  function h hchildren := .node (fun _ => h) nofun nofun hchildren
  decorated h hchildren := .node nofun (fun _ => h) nofun hchildren
  gapBeforeCase _ := .gap _ _
  markBeforeCase := .leaf _ _
  matchCase _ := .plain nofun nofun nofun
  phrase := sound_of_isNeat
  mark := .leaf _ _
  clause _ := .plain nofun nofun nofun
  block := .plain nofun nofun nofun
  cases := .plain nofun nofun nofun
  gapBeforeDefinition _ := .gap _ _
  decorator hchildren := .plain nofun nofun nofun fun t ht => sound_of_isLine (hchildren t ht)
  decoratedFunction h hchildren := .node (fun _ => h) nofun nofun hchildren
  decoratedClass _ := .plain nofun nofun nofun

theorem Sound.definition {children : List Tree} (h : Sound (.node .function children)) :
    IsDefinition children := by
  obtain _ | _ | ⟨hfunction, -, -, -⟩ := h
  exact hfunction rfl

theorem Sound.decoration {children : List Tree} (h : Sound (.node .decorated children)) :
    IsDecoration children := by
  obtain _ | _ | ⟨-, hdecorated, -, -⟩ := h
  exact hdecorated rfl

theorem Sound.flush {kind : Kind} {children : List Tree} (h : Sound (.node kind children))
    (hkind : FlushKind kind) : Flush children := by
  obtain _ | _ | ⟨-, -, hphrase, -⟩ := h
  exact hphrase hkind

theorem Sound.children {t : Tree} (h : Sound t) : ∀ c ∈ childrenOf t, Sound c := by
  cases h with
  | gap g text => simp [childrenOf]
  | leaf l text => simp [childrenOf]
  | node _ _ _ h => exact h

theorem inherits_sound : Inherits Sound :=
  fun _ h => h.children

/-- What is reported of definitions: the first one without statements. -/
def verdict : List (List Tree) → Except Defect Unit
  | [] => .ok ()
  | children :: rest =>
    if lacksStatements children then .error (.emptyBody (nameOf children)) else verdict rest

theorem verdict_append (a b : List (List Tree)) :
    verdict (a ++ b) = verdict a >>= fun _ => verdict b := by
  induction a with
  | nil => rfl
  | cons children rest ih =>
      by_cases h : lacksStatements children
      · rw [List.cons_append, verdict, verdict, if_pos h, if_pos h]
        rfl
      · rw [List.cons_append, verdict, verdict, if_neg h, if_neg h, ih]

theorem verdict_eq_error {definitions : List (List Tree)} {defect : Defect} :
    verdict definitions = .error defect ↔
      ∃ children, definitions.find? lacksStatements = some children ∧
        defect = .emptyBody (nameOf children) := by
  induction definitions with
  | nil => simp [verdict]
  | cons children rest ih =>
      by_cases h : lacksStatements children
      · simp [verdict, h, eq_comm]
      · simpa [verdict, h] using ih

theorem verdict_eq_ok {definitions : List (List Tree)} :
    verdict definitions = .ok () ↔ ∀ children ∈ definitions, lacksStatements children = false := by
  induction definitions with
  | nil => simp [verdict]
  | cons children rest ih =>
      by_cases h : lacksStatements children
      · simp [verdict, h]
      · simpa [verdict, h] using ih

/-- A computation that goes through definitions: it succeeds if all of them have statements, and
else reports the first one that has none. -/
def Decides {α : Type} (x : Except Defect α) (definitions : List (List Tree)) : Prop :=
  (x >>= fun _ => pure ()) = verdict definitions

section

variable {α β : Type} {a b : List (List Tree)}

theorem decides_pure (v : α) : Decides (pure v) [] := rfl

theorem decides_bind {x : Except Defect α} {f : α → Except Defect β} (hx : Decides x a)
    (hf : ∀ v, Decides (f v) b) : Decides (x >>= f) (a ++ b) := by
  rw [Decides, verdict_append, ← hx]
  cases x with
  | error defect => rfl
  | ok v => exact hf v

theorem decides_bind_pure {x : Except Defect α} (f : α → β) (hx : Decides x a) :
    Decides (do return f (← x)) a := by
  simpa using decides_bind hx fun v => decides_pure (f v)

theorem decides_map {x : Except Defect α} (f : α → β) (hx : Decides x a) : Decides (f <$> x) a := by
  rw [map_eq_pure_bind]
  exact decides_bind_pure f hx

end

theorem name?_append {first : List Tree} (h : All IsBare first) (name : List Char)
    (rest : List Tree) :
    name? (first ++ .leaf .name name :: rest) = some (String.ofList name) := by
  induction first with
  | nil => rfl
  | cons t first ih =>
      obtain ⟨ht, hfirst⟩ := List.forall_mem_cons.mp h
      cases ht <;> exact ih hfirst

theorem find?_append {kind : Kind} {before : List Tree} (h : ∀ t ∈ before, isNode kind t = false)
    (children rest : List Tree) :
      find? kind (before ++ .node kind children :: rest) = some children := by
  have hbefore : before.find? (isNode kind) = none := by simpa using h
  simp [find?, List.find?_append, hbefore, isNode, childrenOf]

theorem takeWhile_append {kind : Kind} {before : List Tree}
    (h : ∀ t ∈ before, isNode kind t = false)
    (children rest : List Tree) :
    List.takeWhile (fun t => !isNode kind t) (before ++ .node kind children :: rest) = before := by
  have hbefore : ∀ t ∈ before, (!isNode kind t) = true := fun t ht => by simp [h t ht]
  rw [List.takeWhile_append_of_pos hbefore, List.takeWhile_cons_of_neg (by simp [isNode]),
    List.append_nil]

theorem isNode_of_isBare {t : Tree} (h : IsBare t) {kind : Kind} (hkind : kind ≠ .typeParameters) :
    isNode kind t = false := by
  cases h with
  | gap _ => rfl
  | word => rfl
  | typeParameters _ => simpa [isNode] using hkind.symm

theorem isNode_block_of_isPhrase {t : Tree} (h : IsPhrase t) : isNode .block t = false := by
  cases h with
  | gap _ => rfl
  | leaf _ => rfl
  | node hkind _ => cases hkind <;> rfl

theorem isNode_block_of_not_mem {ts : List Tree} (h : ∀ children, .node .block children ∉ ts) :
    ∀ t ∈ ts, isNode .block t = false := by
  intro t ht
  cases t with
  | gap g text => rfl
  | leaf l text => rfl
  | node kind children =>
      have hkind : kind ≠ .block := fun heq => h children (heq ▸ ht)
      simpa [isNode] using hkind

/-- A definition up to its parameters. -/
def heading (first second parameters : List Tree) (name : List Char) : List Tree :=
  first ++ .leaf .name name :: (second ++ [.node .parameters parameters])

section

variable {first second : List Tree} (hfirst : All IsBare first) (hsecond : All IsBare second)
  (parameters : List Tree) (name : List Char)

include hfirst hsecond

theorem forall_heading {P : Tree → Prop} (hbare : ∀ t, IsBare t → P t)
    (hname : P (.leaf .name name)) (hparameters : P (.node .parameters parameters)) :
    ∀ t ∈ heading first second parameters name, P t := by
  have hbehind : ∀ t ∈ second ++ [.node .parameters parameters], P t :=
    forall_mem_append (fun t ht => hbare t (hsecond t ht)) (by simpa using hparameters)
  exact forall_mem_append (fun t ht => hbare t (hfirst t ht))
    (List.forall_mem_cons.mpr ⟨hname, hbehind⟩)

theorem parameters_heading (rest : List Tree) :
    find? .parameters (heading first second parameters name ++ rest) = some parameters := by
  have hbefore : ∀ t ∈ first ++ .leaf .name name :: second, isNode .parameters t = false :=
    forall_mem_append (fun t ht => isNode_of_isBare (hfirst t ht) (by decide))
      (List.forall_mem_cons.mpr ⟨rfl, fun t ht => isNode_of_isBare (hsecond t ht) (by decide)⟩)
  simpa [heading] using find?_append hbefore parameters rest

end

theorem exists_colon (before between : List Tree) :
    ∃ front back, before ++ .leaf .sign [':'] :: between = front ++ .leaf .sign [':'] :: back ∧
      ∀ t ∈ front, isLeaf .sign [':'] t = false := by
  induction before with
  | nil => exact ⟨[], between, rfl, by simp⟩
  | cons t before ih =>
      by_cases h : isLeaf .sign [':'] t = true
      · obtain rfl : t = .leaf .sign [':'] := by
          cases t <;> simp_all [isLeaf]
        exact ⟨[], _, rfl, by simp⟩
      · obtain ⟨front, back, heq, hfront⟩ := ih
        exact ⟨t :: front, back, by rw [List.cons_append, heq, List.cons_append],
          List.forall_mem_cons.mpr ⟨by simpa using h, hfront⟩⟩

/-- The parts of a definition: what stands before its colon, between the colon and the block, and in
the block. -/
structure Splits (children front between block : List Tree) : Prop where
  eq : children = front ++ .leaf .sign [':'] :: (between ++ [.node .block block])
  header : header children = (front, .leaf .sign [':'] :: between)
  name : name? front = some (nameOf children)
  parameters : ∃ parameters, find? .parameters front = some parameters ∧ IsParameterList parameters
  found : find? .block children = some block
  complete : IsComplete block
  lacks : lacksStatements children = !block.any isConstruct

theorem lacksStatements_append {ahead : List Tree} (h : ∀ t ∈ ahead, isNode .block t = false)
    (block : List Tree) :
    lacksStatements (ahead ++ [.node .block block]) = !block.any isConstruct := by
  have hahead : (ahead.any fun t => isNode .block t && !(childrenOf t).any isConstruct) = false :=
    List.any_eq_false.mpr fun t ht => by simp [h t ht]
  rw [lacksStatements, List.any_append, hahead]
  simp [isNode, childrenOf]

theorem span_colon {front : List Tree} (h : ∀ t ∈ front, isLeaf .sign [':'] t = false)
    (back : List Tree) :
    (front ++ .leaf .sign [':'] :: back).span (fun t => !isLeaf .sign [':'] t) =
      (front, .leaf .sign [':'] :: back) := by
  have hfront : ∀ t ∈ front, (!isLeaf .sign [':'] t) = true := fun t ht => by simp [h t ht]
  rw [List.span_eq_takeWhile_dropWhile, List.takeWhile_append_of_pos hfront,
    List.dropWhile_append_of_pos hfront]
  simp [isLeaf]

theorem splits_of_isDefinition {children : List Tree} (h : IsDefinition children) :
    ∃ front between block, Splits children front between block := by
  obtain @⟨first, second, _, parameters, name, hfirst, hsecond, hparameters, hsuite⟩ := h
  obtain @⟨before, between, block, hbefore, hbetween, hcomplete⟩ := hsuite
  let start := heading first second parameters name
  obtain ⟨front, back, heq, hfront⟩ := exists_colon before between
  have hstart : ∀ t ∈ start, isLeaf .sign [':'] t = false ∧ isNode .block t = false :=
    forall_heading hfirst hsecond parameters name (fun t ht => by cases ht <;> exact ⟨rfl, rfl⟩)
      ⟨rfl, rfl⟩ ⟨rfl, rfl⟩
  have hcolon : ∀ t ∈ before ++ .leaf .sign [':'] :: between, isNode .block t = false :=
    forall_mem_append (fun t ht => isNode_block_of_isPhrase (hbefore t ht).isPhrase)
      (List.forall_mem_cons.mpr ⟨rfl, isNode_block_of_not_mem hbetween⟩)
  rw [heq] at hcolon
  have hahead : ∀ t ∈ start ++ front ++ .leaf .sign [':'] :: back, isNode .block t = false := by
    rw [List.append_assoc]
    exact forall_mem_append (fun t ht => (hstart t ht).2) hcolon
  have hsplit : first ++ .leaf .name name :: (second ++ .node .parameters parameters ::
      (before ++ .leaf .sign [':'] :: (between ++ [.node .block block]))) =
        start ++ front ++ .leaf .sign [':'] :: back ++ [.node .block block] := by
    have hbody : before ++ .leaf .sign [':'] :: (between ++ [.node .block block]) =
        front ++ .leaf .sign [':'] :: back ++ [.node .block block] := by
      rw [← heq]
      simp
    rw [hbody]
    simp [start, heading]
  refine ⟨start ++ front, back, block, by rw [hsplit]; simp, ?_, ?_,
    ⟨parameters, parameters_heading hfirst hsecond parameters name front, hparameters⟩,
      ?_, hcomplete, ?_⟩
  · rw [hsplit, header, takeWhile_append hahead]
    exact span_colon (forall_mem_append (fun t ht => (hstart t ht).1) hfront) back
  · rw [nameOf, name?_append hfirst]
    simpa [start, heading] using name?_append hfirst name _
  · rw [hsplit]
    exact find?_append hahead block []
  · rw [hsplit]
    exact lacksStatements_append hahead block

theorem drop_takeWhile (p : Tree → Bool) (ts : List Tree) :
    ts.drop (ts.takeWhile p).length = ts.dropWhile p := by
  calc
    ts.drop (ts.takeWhile p).length =
        (ts.takeWhile p ++ ts.dropWhile p).drop (ts.takeWhile p).length := by
      rw [List.takeWhile_append_dropWhile]
    _ = ts.dropWhile p := List.drop_left

theorem isEmpty_of_isComplete {block : List Tree} (h : IsComplete block) :
    (block.drop (block.takeWhile fun t => !isPart t).length).isEmpty = !block.any isConstruct := by
  rcases h with ⟨kind, children, rest, rfl⟩ | rfl
  · simp [isPart, isConstruct]
  · rfl

theorem require_some {α : Type} (defect : Defect) (a : α) : require defect (some a) = pure a := rfl

theorem functionOf_decides {outer line : List Char} {decorators : List String}
    {children : List Tree}
    (h : IsDefinition children) :
      Decides (functionOf outer line decorators children) [children] := by
  obtain ⟨front, between, block, hsplits⟩ := splits_of_isDefinition h
  obtain ⟨parameters, hparameters, -⟩ := hsplits.parameters
  unfold functionOf
  simp only [hsplits.header, hsplits.name, hparameters, hsplits.found,
    List.tail?_cons, require_some,
    pure_bind]
  rw [Decides, verdict, hsplits.lacks, ← isEmpty_of_isComplete hsplits.complete]
  split <;> rfl

/-- What holds of a tree that may stand for a part of a block in the source. -/
def IsSoundItem (t : Tree) : Prop :=
  IsItem t ∧ Sound t

theorem isSoundItem_of_ofSource {source : List Char} {trees : List Tree} {t : Tree}
    (h : ofSource source = .ok trees) (ht : t ∈ trees) : IsSoundItem t :=
  ⟨.inl (formed_of_ofSource h t ht), has_of_ofSource sound h t ht⟩

theorem isSoundItem_of_mem_blockParts {p t : Tree} (h : IsSoundItem t) (hcut : isCut t = true)
    (hp : p ∈ blockParts (childrenOf t)) : IsSoundItem p :=
  ⟨isItem_of_mem_blockParts _ (cuttable_children h.1 hcut) hp,
    inherits_sound.of_mem_blockParts h.2.children hp⟩

theorem decides_mapM {segments : List Segment}
    (h : ∀ part ∈ partsIn segments, Decides (statementOf part.1 part.2) (definitionsIn part.2)) :
    Decides (segments.mapM resolve) ((partsIn segments).flatMap fun part =>
      definitionsIn part.2) := by
  induction segments with
  | nil => exact decides_pure _
  | cons segment rest ih =>
      rw [List.mapM_cons]
      cases segment with
      | text t =>
          have hrest : Decides (rest.mapM resolve) _ := ih h
          exact decides_bind (decides_pure _) fun _ => decides_bind_pure _ hrest
      | part line t =>
          obtain ⟨hfirst, hrest⟩ := List.forall_mem_cons.mp h
          have hpart : Decides (resolve (.part line t)) (definitionsIn t) :=
            decides_bind_pure _ hfirst
          exact decides_bind hpart fun _ => decides_bind_pure _ (ih hrest)

theorem decides_fragmentsOf {line : List Char} {ts : List Tree} (hts : ∀ t ∈ ts, Cuttable t)
    (h : ∀ p ∈ blockParts ts, ∀ line, Decides (statementOf line p) (definitionsIn p)) :
    Decides (fragmentsOf line ts) (definitionsAmong ts) := by
  rw [fragmentsOf_eq, definitionsAmong_blockParts hts, ← partsIn_segments line, List.flatMap_map]
  exact decides_map _ (decides_mapM fun part hpart => h _ (mem_blockParts_of_mem_segments hpart) _)

section

variable {above : List Tree} (h : All IsAbove above) (definition : List Tree)

include h

theorem isNode_function_of_isAbove : ∀ t ∈ above, isNode .function t = false := by
  intro t ht
  cases h t ht <;> rfl

theorem find?_function :
    find? .function (above ++ [.node .function definition]) = some definition :=
  find?_append (isNode_function_of_isAbove h) definition []

theorem definitionsAmong_function :
    definitionsAmong (above ++ [.node .function definition]) = [definition] := by
  have hnone : above.flatMap definitionsIn = [] :=
    List.flatMap_eq_nil_iff.mpr fun t ht => definitionsIn_of_isAbove (h t ht)
  rw [definitionsAmong_eq, List.flatMap_append, hnone]
  simp [definitionsIn]

end

theorem decoration_cases {children : List Tree} (h : IsDecoration children) :
    (∃ above definition, All IsAbove above ∧ children = above ++ [.node .function definition]) ∨
      (find? .function children = none ∧ children.any (isNode .compound) = true) := by
  obtain @⟨above, children, kind, habove, hkind⟩ := h
  cases hkind with
  | function => exact .inl ⟨above, children, habove, rfl⟩
  | compound =>
      have hlast : find? .function (above ++ [.node .compound children]) = none := by
        simpa [find?, isNode] using isNode_function_of_isAbove habove
      exact .inr ⟨hlast, by simp [isNode]⟩

section

variable {line : List Char} {t : Tree}

theorem definitionsIn_of_isCut (h : isCut t = true) :
    definitionsIn t = definitionsAmong (childrenOf t) := by
  obtain ⟨children, rfl, -⟩ | ⟨kind, children, rfl, hkind⟩ := cut_cases h
  · exact definitionsIn_node (by decide) (by decide) children
  · refine definitionsIn_node ?_ ?_ children <;> rintro rfl <;> simp at hkind

theorem statementOf_of_sound (h : Sound t) (hcut : isCut t = true) :
    statementOf line t = (do return ofFragments (← fragmentsOf line (childrenOf t))) := by
  obtain ⟨children, rfl, hnone⟩ | ⟨kind, children, rfl, hkind⟩ := cut_cases hcut
  · obtain ⟨above, definition, habove, rfl⟩ | ⟨-, hclass⟩ := decoration_cases h.decoration
    · rw [find?_function habove] at hnone
      cases hnone
    · rw [statementOf, hnone, childrenOf]
      exact if_pos hclass
  · rw [statementOf, childrenOf]
    all_goals
      rintro rfl
      simp at hkind

theorem definitionsIn_of_import {kind : Kind} {children : List Tree}
    (h : IsItem (.node kind children)) (hkind : kind = .importNames ∨ kind = .importFrom) :
    definitionsIn (.node kind children) = [] := by
  rcases h with h | h
  · cases h with
    | separator h => cases h
    | simple _ hchildren =>
        rw [definitionsIn_node, definitionsAmong_eq_nil fun t ht =>
          definitionsIn_of_isPhrase (hchildren t ht)]
        all_goals
          rintro rfl
          simp at hkind
    | compound h _ => rcases hkind with rfl | rfl <;> cases h
    | decorated _ => simp at hkind
  · cases h
    simp at hkind

theorem decides_of_not_cut (h : IsSoundItem t) (hcut : isCut t = false) :
    Decides (statementOf line t) (definitionsIn t) := by
  obtain ⟨hitem, hsound⟩ := h
  unfold isCut at hcut
  split at hcut
  · rw [statementOf, definitionsIn_of_import hitem (.inl rfl)]
    exact decides_pure _
  · rw [statementOf, definitionsIn_of_import hitem (.inr rfl)]
    exact decides_pure _
  · rw [statementOf, definitionsIn]
    exact decides_bind_pure _ (functionOf_decides hsound.definition)
  · obtain ⟨above, definition, habove, rfl⟩ | ⟨hnone, -⟩ := decoration_cases hsound.decoration
    · have hdefinition : Sound (.node .function definition) :=
        hsound.children _ (by simp [childrenOf])
      rw [statementOf, find?_function habove, definitionsIn_node (by decide) (by decide),
        definitionsAmong_function habove]
      exact decides_bind_pure _ (functionOf_decides hdefinition.definition)
    · simp [hnone] at hcut
  · rw [statementOf, definitionsIn]
    exact decides_pure _
  · cases hcut
  · rw [statementOf, definitionsIn]
    exact decides_pure _
  · rw [statementOf, definitionsIn]
    exact decides_pure _

end

theorem statementOf_decides {line : List Char} {t : Tree} (h : IsSoundItem t) :
    Decides (statementOf line t) (definitionsIn t) := by
  by_cases hcut : isCut t = true
  · rw [statementOf_of_sound h.2 hcut, definitionsIn_of_isCut hcut]
    have hparts : ∀ p ∈ blockParts (childrenOf t), ∀ line,
        Decides (statementOf line p) (definitionsIn p) := fun p hp _ =>
      statementOf_decides (isSoundItem_of_mem_blockParts h hcut hp)
    exact decides_bind_pure _ (decides_fragmentsOf (cuttable_children h.1 hcut) hparts)
  · exact decides_of_not_cut h (by simpa using hcut)
termination_by sizeOf t
decreasing_by exact sizeOf_lt_of_mem_children hp

theorem statementsOf_decides {line : List Char} {trees : List Tree}
    (h : ∀ t ∈ trees, IsSoundItem t) :
    Decides (statementsOf line trees) (definitionsAmong trees) := by
  induction trees generalizing line with
  | nil => exact decides_pure _
  | cons t rest ih =>
      obtain ⟨hfirst, hrest⟩ := List.forall_mem_cons.mp h
      rw [statementsOf, definitionsAmong]
      by_cases hpart : isPart t
      · rw [if_pos hpart]
        exact decides_bind (statementOf_decides hfirst) fun _ => decides_bind_pure _ (ih hrest)
      · have hnone : definitionsIn t = [] :=
          definitionsIn_of_not_isConstruct (isConstruct_of_isPart (by simpa using hpart))
        rw [if_neg hpart, hnone, List.nil_append]
        exact ih hrest

theorem ofTrees_decides {source : List Char} {trees : List Tree} (h : ofSource source = .ok trees) :
    Decides (ofTrees trees) (definitionsAmong trees) :=
  decides_bind_pure _ (statementsOf_decides fun _ => isSoundItem_of_ofSource h)

end Cythonizer.Proofs.Outline.Defects
