/-
Tokens of the WebAssembly text format: parentheses, strings and atoms. Blanks and comments, which
reach from two semicolons between tokens to the end of the line, separate them. A byte in a string
may be written as a backslash and two hexadecimal digits.
-/
import LetIf.Code.Validate
import LetIf.Read
import LetIf.Text.Quoted

namespace LetIf.Wat

open Text

inductive Problem where
  | endOfInput
  | unclosed
  | unexpectedClosing
  | unterminated
  | truncatedEscape
  | invalidEscape (a b : UInt8)
  | trailing
  | noModule
  | noFunc
  | noExport
  | noResult
  | localType
  | constForm
  | invalidConst (t : Text)
  | selectForm
  | slotForm (operation : Text)
  | invalidSlot (t : Text)
  | ifForm
  | unsupported (head : Text)
  | invalid (e : ValidationError)
  deriving DecidableEq, Repr

def Problem.message : Problem → Text
  | .endOfInput => "unexpected end of input"
  | .unclosed => "unclosed parenthesis"
  | .unexpectedClosing => "unexpected )"
  | .unterminated => "unterminated string"
  | .truncatedEscape => "truncated escape"
  | .invalidEscape a b => "invalid escape \\" ++ [a, b]
  | .trailing => "trailing input after module"
  | .noModule => "expected (module (func ...))"
  | .noFunc => "expected (func ...)"
  | .noExport => "expected (export \"name\")"
  | .noResult => "expected (result i32)"
  | .localType => "only i32 locals are supported"
  | .constForm => "expected (i32.const N)"
  | .invalidConst t => "invalid i32 " ++ quoted t
  | .selectForm => "expected (select)"
  | .slotForm operation => "expected (" ++ operation ++ " N)"
  | .invalidSlot t => "invalid local index " ++ quoted t
  | .ifForm => "expected (if (result i32) (then ...) (else ...))"
  | .unsupported head => "unsupported instruction " ++ quoted head
  | .invalid _ => "parsed module is invalid"

/-- A problem and the offset at which it shows. -/
structure ParseError where
  problem : Problem
  offset : Nat
  deriving DecidableEq, Repr

def ParseError.report (e : ParseError) : Report :=
  .ofCodec "wat" e.offset e.problem.message
    (match e.problem with
    | .invalid cause => some cause.report
    | _ => none)

inductive Token.Form where
  | opening
  | closing
  | string (bytes : Text)
  | atom (text : Text)
  deriving DecidableEq, Repr

/-- A token and the offset of its first byte. -/
structure Token where
  form : Token.Form
  offset : Nat
  deriving DecidableEq, Repr

/-- What stands behind the last token: the end of the text, or a string with a mistake. -/
inductive Ending where
  | endOfInput (offset : Nat)
  | fault (start : Nat) (e : ParseError)
  deriving DecidableEq, Repr

structure Tokens where
  list : List Token
  ending : Ending
  deriving DecidableEq, Repr

def Tokens.cons (t : Token) (ts : Tokens) : Tokens := { ts with list := t :: ts.list }

def isSpace (b : UInt8) : Bool := b == 32 || b == 9 || b == 10 || b == 13

/-- The bytes that end an atom. -/
def endsAtom (b : UInt8) : Bool := isSpace b || b == byte '(' || b == byte ')' || b == byte '"'

/-- Reads a string from behind its opening quote, which stands at `start`. -/
def string (start : Nat) (off : Nat) :
    (src : Text) → Except ParseError (Read (Text × Nat) src)
  | [] => .error ⟨.unterminated, start⟩
  | c :: rest =>
    if c == byte '"' then .ok ⟨([], off + 1), rest, Read.tail_lt⟩
    else if c == byte '\\' then
      match rest with
      | a :: b :: rest =>
        match hexValue? a, hexValue? b with
        | some x, some y =>
          (string start (off + 3) rest).map fun r =>
            ⟨((x * 16 + y).toUInt8 :: r.result.1, r.result.2), r.rest,
              Nat.lt_of_lt_of_le r.shorter (by simp only [List.length_cons]; omega)⟩
        | _, _ => .error ⟨.invalidEscape a b, off + 1⟩
      | _ => .error ⟨.truncatedEscape, off + 1⟩
    else
      (string start (off + 1) rest).map fun r =>
        ⟨(c :: r.result.1, r.result.2), r.rest, Nat.lt_succ_of_lt r.shorter⟩

theorem length_dropWhile_le (p : UInt8 → Bool) (t : Text) : (t.dropWhile p).length ≤ t.length :=
  (List.dropWhile_suffix p).length_le

/-- Whether a text starts a comment. -/
def startsComment : Text → Bool
  | a :: b :: _ => a == byte ';' && b == byte ';'
  | _ => false

/-- The tokens of a text whose first byte is at offset `off`. -/
def tokensFrom (off : Nat) (src : Text) : Tokens :=
  match src with
  | [] => ⟨[], .endOfInput off⟩
  | c :: rest =>
    if isSpace c then tokensFrom (off + 1) rest
    else if startsComment (c :: rest) then
      let skipped := rest.takeWhile (· != 10)
      tokensFrom (off + 1 + skipped.length) (rest.dropWhile (· != 10))
    else if c == byte '(' then (tokensFrom (off + 1) rest).cons ⟨.opening, off⟩
    else if c == byte ')' then (tokensFrom (off + 1) rest).cons ⟨.closing, off⟩
    else if c == byte '"' then
      match string off (off + 1) rest with
      | .error e => ⟨[], .fault off e⟩
      | .ok ⟨(bytes, off'), later, _⟩ => (tokensFrom off' later).cons ⟨.string bytes, off⟩
    else
      let text := c :: rest.takeWhile (!endsAtom ·)
      (tokensFrom (off + text.length) (rest.dropWhile (!endsAtom ·))).cons ⟨.atom text, off⟩
termination_by src.length
decreasing_by
  · simp
  · exact Nat.lt_succ_of_le (length_dropWhile_le _ _)
  · simp
  · simp
  · simp only [List.length_cons]; omega
  · exact Nat.lt_succ_of_le (length_dropWhile_le _ _)

/-- The tokens of a text. -/
def tokens (src : Text) : Tokens := tokensFrom 0 src

end LetIf.Wat
