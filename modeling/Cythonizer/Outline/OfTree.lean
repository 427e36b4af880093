import Cythonizer.Outline.Basic
import Cythonizer.Source.Trees
import Cythonizer.Text.Blank

/-!
The outline of a syntax tree. Text is cut where the statements of the tree begin and end, so that an
outline spells what its tree spells except for white space at the ends of statements.
-/

namespace Cythonizer.Outline.OfTree

open Cythonizer.Outline.Basic
open Cythonizer.Source.Trees
open Cythonizer.Text.Blank

/-- Why a tree has no outline: a construct lacks a part. -/
inductive Defect
  | noDefinition
  | noName
  | noParameters (name : String)
  | noBody (name : String)
  | noColon (name : String)
  /-- The block of a function holds no statement. -/
  | emptyBody (name : String)
  deriving DecidableEq, Repr

def Defect.message : Defect → String
  | .noDefinition => "decorated statement without a definition"
  | .noName => "function without a name"
  | .noParameters name => "function '" ++ name ++ "' has no parameter list"
  | .noBody name => "function '" ++ name ++ "' has no body"
  | .noColon name => "function '" ++ name ++ "' header has no ':'"
  | .emptyBody name => "function '" ++ name ++ "' has an empty body"

def textOf (trees : List Tree) : String :=
  String.ofList (spellAll trees)

def trimmedTextOf (trees : List Tree) : String :=
  String.ofList (trimEnd (spellAll trees))

/-- The characters of the current line after a text, given those before it. -/
def lineAfter (line text : List Char) : List Char :=
  if text.contains '\n' then (text.reverse.takeWhile (· != '\n')).reverse else line ++ text

/-- The white space that lines a statement up with another one that begins after `line`. -/
def indentOf (line : List Char) : List Char :=
  if line.all fun c => c == ' ' || c == '\t' then line else List.replicate line.length ' '

/-- Whether a tree counts as a part of the construct it stands in. Comments and signs do not. -/
def isPart : Tree → Bool
  | .gap .continuation _ => true
  | .gap _ _ => false
  | .leaf _ _ => false
  | .node _ _ => true

def isGap : Tree → Bool
  | .gap _ _ => true
  | _ => false

def isNode (kind : Kind) : Tree → Bool
  | .node k _ => k == kind
  | _ => false

def isLeaf (leaf : Leaf) (text : List Char) : Tree → Bool
  | .leaf l t => l == leaf && t == text
  | _ => false

def childrenOf : Tree → List Tree
  | .node _ children => children
  | _ => []

def find? (kind : Kind) (trees : List Tree) : Option (List Tree) :=
  (trees.find? (isNode kind)).map childrenOf

def hintOf (children : List Tree) : Hint :=
  match children with
  | [.node .expression [.leaf .name text]] => .name (String.ofList text)
  | [.leaf .name text] => .name (String.ofList text)
  | _ => .expression (textOf children)

/-- The name that comes first among trees. -/
def name? : List Tree → Option String
  | [] => none
  | .leaf .name text :: _ => some (String.ofList text)
  | _ :: rest => name? rest

def nameOf (trees : List Tree) : String :=
  (name? trees).getD ""

/-- The parameters of a list. From the first star on they are kept as they were written. -/
def parametersOf : Bool → List Tree → List Parameter
  | _, [] => []
  | keywordOnly, t :: rest =>
    match t with
    | .gap .continuation text => .verbatim (String.ofList text) :: parametersOf keywordOnly rest
    | .node .slash _ => .positionalOnlyMarker :: parametersOf keywordOnly rest
    | .node .star children => .verbatim (textOf children) :: parametersOf true rest
    | .node .named children =>
      let parameter :=
        if keywordOnly then Parameter.verbatim (textOf children)
        else
          .positional (nameOf children) ((find? .hint children).map hintOf)
            ((find? .default children).map textOf)
      parameter :: parametersOf keywordOnly rest
    | .node _ children => .verbatim (textOf children) :: parametersOf keywordOnly rest
    | .gap _ _ => parametersOf keywordOnly rest
    | .leaf _ _ => parametersOf keywordOnly rest

/-- The trees before the block up to the colon, and those from the colon on. -/
def header (children : List Tree) : List Tree × List Tree :=
  (children.takeWhile fun t => !isNode .block t).span fun t => !isLeaf .sign [':'] t

/-- The value, or the defect if there is none. -/
def require {α : Type} (defect : Defect) : Option α → Except Defect α
  | some a => .ok a
  | none => .error defect

/-- A function from the children of its definition. `line` stands before its first character and
`outer` before the statement it is part of. -/
def functionOf (outer line : List Char) (decorators : List String) (children : List Tree) :
    Except Defect Function := do
  let (front, back) := header children
  let name ← require .noName (name? front)
  let parameters ← require (.noParameters name) (find? .parameters front)
  let block ← require (.noBody name) (find? .block children)
  let between ← require (.noColon name) back.tail?
  let before := block.takeWhile fun t => !isPart t
  let statements := block.drop before.length
  if statements.isEmpty then throw (.emptyBody name)
  let leading := spellAll between ++ spellAll before
  let inline := !leading.contains '\n'
  let firstLine := lineAfter (lineAfter line (spellAll front ++ [':'])) leading
  return {
    name
    isAsync := front.any (isLeaf .word ['a', 's', 'y', 'n', 'c'])
    decorators
    typeParameters := (find? .typeParameters front).map textOf
    parameters := parametersOf false parameters
    returns := (find? .hint front).map hintOf
    body := {
      inline
      outerIndent := String.ofList (indentOf outer)
      leading := if inline then "" else String.ofList leading
      indent := if inline then "" else String.ofList (indentOf firstLine)
      text := trimmedTextOf statements
      injected := [] } }

def decoratorsOf (trees : List Tree) : List String :=
  (trees.filter (isNode .decorator)).map fun t =>
    match (childrenOf t).find? isPart with
    | some part => String.ofList (spell part)
    | none => ""

mutual

/-- Take the brackets off an expression: the text before it, the expression and the text after it.
-/
def unbracketed (expression : List Tree) : List Char × List Tree × List Char :=
  match expression with
  | [.node .parenthesized inner] =>
    match inner.filter isPart, unbracketedIn inner with
    | [_], some found => found
    | _, _ => ([], expression, [])
  | _ => ([], expression, [])

/-- The first expression among the trees in brackets without the brackets around it. -/
def unbracketedIn : List Tree → Option (List Char × List Tree × List Char)
  | [] => none
  | .node .expression inner :: rest =>
    let (before, expression, after) := unbracketed inner
    some (before, expression, after ++ spellAll rest)
  | t :: rest =>
    (unbracketedIn rest).map fun (before, expression, after) =>
      (spell t ++ before, expression, after)

end

def iterableOf (expression : List Tree) : Iterable :=
  match expression with
  | [.node .call (.leaf .name callee :: rest)] =>
    if rest.all fun t => isGap t || isNode .arguments t then
      .call (String.ofList callee) (textOf rest)
    else .other (textOf expression)
  | _ => .other (textOf expression)

/-- What a loop iterates over: the text before its expression, the expression and the text after it.
-/
def iterated (iterable : List Tree) : List Char × List Tree × List Char :=
  match iterable with
  | [.node .expression inner] => unbracketed inner
  | _ => ([], iterable, [])

def loopOf (children : List Tree) : Loop :=
  let front := children.takeWhile fun t => !isNode .iterable t
  let iterable := (find? .iterable children).getD []
  let back := children.drop (front.length + 1)
  let (before, expression, after) := iterated iterable
  { head := String.ofList (spellAll front ++ before)
    iterable := iterableOf expression
    tail := String.ofList (trimEnd (after ++ spellAll back)) }

/-- Put text in front of fragments, none if it is empty. -/
def consText (text : List Char) (fragments : List Fragment) : List Fragment :=
  match text, fragments with
  | [], _ => fragments
  | _, .text more :: rest => .text (String.ofList text ++ more) :: rest
  | _, _ => .text (String.ofList text) :: fragments

/-- The fragments without white space at the end of the last text. -/
def trimLast : List Fragment → List Fragment
  | [] => []
  | [.text text] =>
    match trimEnd text.toList with
    | [] => []
    | trimmed => [.text (String.ofList trimmed)]
  | fragment :: rest => fragment :: trimLast rest

/-- A statement of fragments: text alone is no compound. -/
def ofFragments (fragments : List Fragment) : Statement :=
  match trimLast fragments with
  | [] => .other ""
  | [.text text] => .other text
  | trimmed => .compound trimmed

mutual

/-- The statement of a tree. `line` holds the characters before it on its line. -/
def statementOf (line : List Char) : Tree → Except Defect Statement
  | .gap _ text => return .other (String.ofList (trimEnd text))
  | .leaf _ text => return .other (String.ofList (trimEnd text))
  | .node kind children =>
    match kind with
    | .importNames => return .importNames (trimmedTextOf children)
    | .importFrom => return .importFrom (trimmedTextOf children)
    | .function => return .function (← functionOf line line [] children)
    | .decorated =>
      match find? .function children with
      | some definition => do
        let before := children.takeWhile fun t => !isNode .function t
        let start := lineAfter line (spellAll before)
        return .function (← functionOf line start (decoratorsOf children) definition)
      | none =>
        if children.any (isNode .compound) then return ofFragments (← fragmentsOf line children)
        else throw .noDefinition
    | .forLoop => return .loop (loopOf children)
    | _ => return ofFragments (← fragmentsOf line children)

/-- The fragments of trees: the statements of their blocks and the text among them. -/
def fragmentsOf (line : List Char) : List Tree → Except Defect (List Fragment)
  | [] => return []
  | t :: rest => do
    let next := lineAfter line (spell t)
    match t with
    | .node .block children =>
      let inner ← blockFragments line children
      let outer ← fragmentsOf next rest
      return inner.foldr joined outer
    | .node _ children =>
      let inner ← fragmentsOf line children
      let outer ← fragmentsOf next rest
      return inner.foldr joined outer
    | .gap _ text => return consText text (← fragmentsOf next rest)
    | .leaf _ text => return consText text (← fragmentsOf next rest)

def blockFragments (line : List Char) : List Tree → Except Defect (List Fragment)
  | [] => return []
  | t :: rest => do
    let next := lineAfter line (spell t)
    if isPart t then
      let statement ← statementOf line t
      return .statement statement :: (← blockFragments next rest)
    else return consText (spell t) (← blockFragments next rest)

def joined (fragment : Fragment) (fragments : List Fragment) : List Fragment :=
  match fragment with
  | .text text => consText text.toList fragments
  | .statement _ => fragment :: fragments

end

def statementsOf (line : List Char) : List Tree → Except Defect (List Statement)
  | [] => return []
  | t :: rest => do
    let next := lineAfter line (spell t)
    if isPart t then
      let statement ← statementOf line t
      return statement :: (← statementsOf next rest)
    else statementsOf next rest

def ofTrees (trees : List Tree) : Except Defect Outline := do
  return { statements := ← statementsOf [] trees }

end Cythonizer.Outline.OfTree
