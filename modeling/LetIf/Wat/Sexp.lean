/-
S-expressions of the text format, put together from tokens by keeping the lists that are still
open on a stack.
-/
import LetIf.Wat.Token

namespace LetIf.Wat

inductive Sexp where
  | atom (offset : Nat) (text : Text)
  | string (offset : Nat) (bytes : Text)
  | list (offset : Nat) (items : List Sexp)
  deriving Repr

namespace Sexp

def offset : Sexp → Nat
  | .atom o _ | .string o _ | .list o _ => o

/-- The text of an atom or a string; none for a list. -/
def word? : Sexp → Option Text
  | .atom _ t | .string _ t => some t
  | .list .. => none

/-- The atom at the front of a list, empty if there is none. -/
def head : Sexp → Text
  | .list _ (.atom _ t :: _) => t
  | _ => []

/-- What stands behind the front of a list. -/
def arguments : Sexp → List Sexp
  | .list _ (_ :: rest) => rest
  | _ => []

/-- A list that is still open: where it starts, and its items so far, the latest first. -/
structure Open where
  offset : Nat
  items : List Sexp

/-- Reads one s-expression inside the open lists `opened`, the innermost first. -/
def read (ending : Ending) : (opened : List Open) → List Token →
    Except ParseError (Sexp × List Token)
  | opened, [] =>
    match ending, opened with
    | .fault _ e, _ => .error e
    | .endOfInput _, inner :: _ => .error ⟨.unclosed, inner.offset⟩
    | .endOfInput off, [] => .error ⟨.endOfInput, off⟩
  | opened, ⟨form, off⟩ :: rest =>
    -- what a complete s-expression leads to
    let finish (s : Sexp) (opened : List Open) : Except ParseError (Sexp × List Token) :=
      match opened with
      | [] => .ok (s, rest)
      | inner :: outer => read ending (⟨inner.offset, s :: inner.items⟩ :: outer) rest
    match form with
    | .opening => read ending (⟨off, []⟩ :: opened) rest
    | .closing =>
      match opened with
      | [] => .error ⟨.unexpectedClosing, off⟩
      | inner :: outer => finish (.list inner.offset inner.items.reverse) outer
    | .string bytes => finish (.string off bytes) opened
    | .atom text => finish (.atom off text) opened

/-- The s-expression that the tokens spell; nothing may follow it. -/
def ofTokens (ts : Tokens) : Except ParseError Sexp := do
  let (s, rest) ← read ts.ending [] ts.list
  match rest, ts.ending with
  | [], .endOfInput _ => return s
  | [], .fault start _ => throw ⟨.trailing, start⟩
  | t :: _, _ => throw ⟨.trailing, t.offset⟩

end Sexp

end LetIf.Wat
