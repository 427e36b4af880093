import Cythonizer.Proofs.Source.Contents

namespace Cythonizer.Proofs.Source.Phrasing

open Cythonizer.Source.Reader
open Cythonizer.Source.Gaps
open Cythonizer.Source.Trees
open Cythonizer.Proofs.Source.Contents
open Cythonizer.Proofs.Source.Gaps
open Cythonizer.Proofs.Source.Telling

variable {source : List Char} {α : Type}

/-- The constructs without statements. -/
class inductive PhraseKind : Kind → Prop
  | typeParameters : PhraseKind .typeParameters
  | parameters : PhraseKind .parameters
  | named : PhraseKind .named
  | star : PhraseKind .star
  | slash : PhraseKind .slash
  | special : PhraseKind .special
  | hint : PhraseKind .hint
  | default : PhraseKind .default
  | iterable : PhraseKind .iterable
  | expression : PhraseKind .expression
  | call : PhraseKind .call
  | arguments : PhraseKind .arguments
  | parenthesized : PhraseKind .parenthesized
  | string : PhraseKind .string

attribute [instance] PhraseKind.typeParameters PhraseKind.parameters
    PhraseKind.named PhraseKind.star
  PhraseKind.slash PhraseKind.special PhraseKind.hint PhraseKind.default PhraseKind.iterable
  PhraseKind.expression PhraseKind.call PhraseKind.arguments PhraseKind.parenthesized
  PhraseKind.string

/-- A tree of a phrase: no statement, block or clause stands in it. -/
inductive IsPhrase : Tree → Prop
  | gap {g : Gap} {text : List Char} (h : Spells g text) : IsPhrase (.gap g text)
  | leaf {l : Leaf} {text : List Char} (h : l ≠ .layout) : IsPhrase (.leaf l text)
  | node {kind : Kind} {children : List Tree} (h : PhraseKind kind)
      (hchildren : ∀ t ∈ children, IsPhrase t) : IsPhrase (.node kind children)

/-- Trees that do not begin with a gap. -/
def Begins (ts : List Tree) : Prop :=
  ∀ g text, ts.head? ≠ some (.gap g text)

/-- Trees that do not end with a gap. -/
def Ends (ts : List Tree) : Prop :=
  ∀ g text, ts.getLast? ≠ some (.gap g text)

theorem begins_nil : Begins [] := by
  simp [Begins]

theorem ends_nil : Ends [] := by
  simp [Ends]

theorem Begins.append {ts : List Tree} (h : Begins ts) (hne : ts ≠ []) (us : List Tree) :
    Begins (ts ++ us) := by
  simpa [Begins, hne] using h

theorem Ends.prepend {us : List Tree} (h : Ends us) (hne : us ≠ []) (ts : List Tree) :
    Ends (ts ++ us) := by
  simpa [Ends, hne] using h

theorem Ends.append {ts us : List Tree} (hts : Ends ts) (hus : Ends us) : Ends (ts ++ us) := by
  by_cases hne : us = []
  · simpa [hne] using hts
  · exact hus.prepend hne ts

structure Flush (ts : List Tree) : Prop where
  begins : Begins ts
  ends : Ends ts

/-- The phrases that begin and end with lexemes of their own. -/
class inductive FlushKind : Kind → Prop
  | typeParameters : FlushKind .typeParameters
  | parameters : FlushKind .parameters
  | named : FlushKind .named
  | star : FlushKind .star
  | slash : FlushKind .slash
  | special : FlushKind .special
  | hint : FlushKind .hint
  | default : FlushKind .default
  | iterable : FlushKind .iterable
  | expression : FlushKind .expression
  | call : FlushKind .call
  | arguments : FlushKind .arguments
  | parenthesized : FlushKind .parenthesized

attribute [instance] FlushKind.typeParameters FlushKind.parameters FlushKind.named FlushKind.star
  FlushKind.slash FlushKind.special FlushKind.hint FlushKind.default FlushKind.iterable
  FlushKind.expression FlushKind.call FlushKind.arguments FlushKind.parenthesized

/-- A tree of a phrase in which gaps stand between lexemes only. What stands between the quotes of a
string literal is cut in its own way. -/
inductive IsNeat : Tree → Prop
  | gap {g : Gap} {text : List Char} (h : Spells g text) : IsNeat (.gap g text)
  | leaf {l : Leaf} {text : List Char} (h : IsLexeme l text) : IsNeat (.leaf l text)
  | node {kind : Kind} {children : List Tree} (h : FlushKind kind) (hflush : Flush children)
      (hchildren : ∀ t ∈ children, IsNeat t) : IsNeat (.node kind children)
  | string {children : List Tree} (hchildren : ∀ t ∈ children, IsNeat t) :
      IsNeat (.node .string children)

theorem IsNeat.isPhrase {t : Tree} (h : IsNeat t) : IsPhrase t := by
  induction h with
  | gap h => exact .gap h
  | leaf h => exact .leaf h.layout
  | node h _ _ ih => exact .node (by cases h <;> constructor) ih
  | string _ ih => exact .node .string ih

instance : HasLeaves IsNeat where
  gap := .gap
  leaf := .leaf

instance : Builds .string IsNeat IsNeat where
  node := .string

abbrev TellsPhrases {m : Type → Type} [Monad m] [Reading source m] [Outcomes source m] (x : m α) :
    Prop :=
  TellsOnly IsNeat x

end Cythonizer.Proofs.Source.Phrasing
