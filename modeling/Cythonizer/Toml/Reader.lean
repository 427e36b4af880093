import Cythonizer.Toml.Scalar

namespace Cythonizer.Toml.Reader

open Cythonizer.Toml.Blank
open Cythonizer.Toml.Quoted
open Cythonizer.Toml.Scalar
open Cythonizer.Toml.Tables
open Cythonizer.Toml.Values

def elements (item : List Char → Option (Value × List Char)) :
    Nat → List Char → Option (List Value × List Char)
  | 0, _ => none
  | fuel + 1, text => do
    match ← skipLines text with
    | ']' :: rest => return ([], rest)
    | text =>
      let (v, rest) ← item text
      match ← skipLines rest with
      | ']' :: rest => return ([v], rest)
      | ',' :: rest =>
        let (vs, rest) ← elements item fuel rest
        return (v :: vs, rest)
      | _ => none

def assignment (item : List Char → Option (Value × List Char)) (text : List Char) :
    Option ((Key × Value) × List Char) := do
  let (key, rest) ← key text
  match rest with
  | '=' :: rest =>
    let (value, rest) ← item (skipBlanks rest)
    return ((key, value), rest)
  | _ => none

/-- The keys and values between braces, up to the closing one. -/
def assignments (item : List Char → Option (Value × List Char)) :
    Nat → List Char → Option (List (Key × Value) × List Char)
  | 0, _ => none
  | fuel + 1, text => do
    let (pair, rest) ← assignment item text
    match skipBlanks rest with
    | '\x7d' :: rest => return ([pair], rest)
    | ',' :: rest =>
      let (pairs, rest) ← assignments item fuel rest
      return (pair :: pairs, rest)
    | _ => none

/-- A value in which brackets and braces go at most `depth` deep. -/
def value : Nat → List Char → Option (Value × List Char)
  | 0, text => scalar text
  | depth + 1, text =>
    match text with
    | '[' :: rest => do
      let (vs, rest) ← elements (value depth) (rest.length + 1) rest
      return (.array vs, rest)
    | '\x7b' :: rest =>
      match skipBlanks rest with
      | '\x7d' :: rest => some (.table [], rest)
      | _ => do
        let (pairs, rest) ← assignments (value depth) (rest.length + 1) rest
        return (.table (← inlineFields pairs), rest)
    | _ => scalar text

inductive Line
  /-- A key in brackets. -/
  | header (key : Key)
  /-- A key in double brackets. -/
  | element (key : Key)
  | assignment (key : Key) (value : Value)

def line : List Char → Option (Line × List Char)
  | '[' :: '[' :: rest => do
    match ← key rest with
    | (key, ']' :: ']' :: rest) => return (.element key, ← lineEnd? rest)
    | _ => none
  | '[' :: rest => do
    match ← key rest with
    | (key, ']' :: rest) => return (.header key, ← lineEnd? rest)
    | _ => none
  | text => do
    let ((key, value), rest) ← assignment (value maxDepth) text
    return (.assignment key value, ← lineEnd? rest)

def lines : Nat → List Char → Option (List Line)
  | 0, _ => none
  | fuel + 1, text =>
    match skipBlanks text with
    | [] => some []
    | c :: rest =>
      if c = '#' ∨ c = '\n' ∨ c = '\r' then do lines fuel (← lineEnd? (c :: rest))
      else do
        let (found, rest) ← line (c :: rest)
        return found :: (← lines fuel rest)

/-- A document that is being read, and the path of the table that is open in it. -/
structure Draft where
  root : Table := .empty .defined
  open? : List String := []

def Draft.add (d : Draft) : Line → Option Draft
  | .header key => do
    let root ← d.root.change .passed (·.openTable key.name) key.path
    return { root, open? := key.path ++ [key.name] }
  | .element key => do
    let root ← d.root.change .passed (·.openElement key.name) key.path
    return { root, open? := key.path ++ [key.name] }
  | .assignment key value => do
    return { d with root := ← d.root.change .passed (·.assign key value) d.open? }

/-- The document that a text spells. A byte order mark at its start does not count. -/
def read (text : List Char) : Option (List Field) := do
  let text := if text.head? = some '\ufeff' then text.tail else text
  let found ← lines (text.length + 1) text
  let draft ← found.foldlM Draft.add {}
  return draft.root.fields

end Cythonizer.Toml.Reader
