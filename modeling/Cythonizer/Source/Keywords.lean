namespace Cythonizer.Source.Keywords

inductive Keyword
  | kwAnd
  | kwAs
  | kwAssert
  | kwAsync
  | kwAwait
  | kwBreak
  | kwCase
  | kwClass
  | kwContinue
  | kwDef
  | kwDel
  | kwElif
  | kwElse
  | kwExcept
  | kwExec
  | kwFalse
  | kwFinally
  | kwFor
  | kwFrom
  | kwGlobal
  | kwIf
  | kwImport
  | kwIn
  | kwIs
  | kwLambda
  | kwMatch
  | kwNone
  | kwNonlocal
  | kwNot
  | kwOr
  | kwPass
  | kwPrint
  | kwRaise
  | kwReturn
  | kwTrue
  | kwTry
  | kwType
  | kwWhile
  | kwWith
  | kwYield
  | kwFuture
  deriving DecidableEq, Repr

open Keyword

def ofSpelling? : List Char → Option Keyword
  | ['a', 'n', 'd'] => some .kwAnd
  | ['a', 's'] => some .kwAs
  | ['a', 's', 's', 'e', 'r', 't'] => some .kwAssert
  | ['a', 's', 'y', 'n', 'c'] => some .kwAsync
  | ['a', 'w', 'a', 'i', 't'] => some .kwAwait
  | ['b', 'r', 'e', 'a', 'k'] => some .kwBreak
  | ['c', 'a', 's', 'e'] => some .kwCase
  | ['c', 'l', 'a', 's', 's'] => some .kwClass
  | ['c', 'o', 'n', 't', 'i', 'n', 'u', 'e'] => some .kwContinue
  | ['d', 'e', 'f'] => some .kwDef
  | ['d', 'e', 'l'] => some .kwDel
  | ['e', 'l', 'i', 'f'] => some .kwElif
  | ['e', 'l', 's', 'e'] => some .kwElse
  | ['e', 'x', 'c', 'e', 'p', 't'] => some .kwExcept
  | ['e', 'x', 'e', 'c'] => some .kwExec
  | ['F', 'a', 'l', 's', 'e'] => some .kwFalse
  | ['f', 'i', 'n', 'a', 'l', 'l', 'y'] => some .kwFinally
  | ['f', 'o', 'r'] => some .kwFor
  | ['f', 'r', 'o', 'm'] => some .kwFrom
  | ['g', 'l', 'o', 'b', 'a', 'l'] => some .kwGlobal
  | ['i', 'f'] => some .kwIf
  | ['i', 'm', 'p', 'o', 'r', 't'] => some .kwImport
  | ['i', 'n'] => some .kwIn
  | ['i', 's'] => some .kwIs
  | ['l', 'a', 'm', 'b', 'd', 'a'] => some .kwLambda
  | ['m', 'a', 't', 'c', 'h'] => some .kwMatch
  | ['N', 'o', 'n', 'e'] => some .kwNone
  | ['n', 'o', 'n', 'l', 'o', 'c', 'a', 'l'] => some .kwNonlocal
  | ['n', 'o', 't'] => some .kwNot
  | ['o', 'r'] => some .kwOr
  | ['p', 'a', 's', 's'] => some .kwPass
  | ['p', 'r', 'i', 'n', 't'] => some .kwPrint
  | ['r', 'a', 'i', 's', 'e'] => some .kwRaise
  | ['r', 'e', 't', 'u', 'r', 'n'] => some .kwReturn
  | ['T', 'r', 'u', 'e'] => some .kwTrue
  | ['t', 'r', 'y'] => some .kwTry
  | ['t', 'y', 'p', 'e'] => some .kwType
  | ['w', 'h', 'i', 'l', 'e'] => some .kwWhile
  | ['w', 'i', 't', 'h'] => some .kwWith
  | ['y', 'i', 'e', 'l', 'd'] => some .kwYield
  | ['_', '_', 'f', 'u', 't', 'u', 'r', 'e', '_', '_'] => some .kwFuture
  | _ => none

end Cythonizer.Source.Keywords
