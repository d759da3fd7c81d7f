/-
The grammar of expressions, read from tokens without looking back:

  expr := INT | True | False | IDENT | ( expr )
        | if expr then expr else expr
        | let IDENT = expr in expr

A conditional is annotated with the position of its `if`, a binding with that of its `let`, and
parentheses leave no trace.
-/
import LetIf.Text.Basic
import LetIf.Source.Token
import LetIf.Expr.Basic
import LetIf.Read

namespace LetIf.Source

/-- A reader of tokens. -/
abbrev Reader (α : Type) := (ts : List Token) → Except SyntaxError (Read α ts)

/-- The error at the first of `ts` when `wanted` was to be there. -/
def unexpected (ending : Ending) (wanted : Wanted) : List Token → SyntaxError
  | t :: _ => ⟨.unexpected wanted t, t.pos⟩
  | [] =>
    match ending with
    | .endOfInput pos => ⟨.unexpected wanted ⟨.endOfInput, [], pos⟩, pos⟩
    | .fault e => e

/-- Takes one token that satisfies `p`. -/
def take (ending : Ending) (wanted : Wanted) (p : Token → Bool) : Reader Token
  | [] => .error (unexpected ending wanted [])
  | t :: rest =>
    if p t then .ok ⟨t, rest, Read.tail_lt⟩
    else .error (unexpected ending wanted (t :: rest))

def takeKeyword (ending : Ending) (w : Text) : Reader Token :=
  take ending (.keyword w) fun t => t.kind = .word && t.text == w

/-- The identifier that a word token names. -/
def identOf (t : Token) : Except SyntaxError Ident :=
  match Ident.ofText t.text with
  | .ok x => .ok x
  | .error (.reserved w) => .error ⟨.reservedWord w, t.pos⟩
  | .error (.invalid w) => .error ⟨.invalidIdentifier w, t.pos⟩

def takeIdent (ending : Ending) : Reader Ident := fun ts => do
  let word ← take ending .identifier (fun t => t.kind = .word) ts
  let x ← identOf word.result
  return ⟨x, word.rest, word.shorter⟩

/-- The value of an integer token: at most ten digits, at most `2 ^ 31 - 1`. -/
def intOf (t : Token) : Except SyntaxError Value :=
  if t.text.length > maxDigits then .error ⟨.tooManyDigits t.text, t.pos⟩
  else
    let n := Text.decimalValue t.text
    if n < Bits.span 31 then .ok (.int (Int32.ofNat n)) else .error ⟨.tooLarge t.text, t.pos⟩

/-- Reads one expression. -/
def expr (ending : Ending) : Reader (Expr Position)
  | [] => .error (unexpected ending .expression [])
  | t :: rest =>
    match t.kind with
    | .integer => do
      let v ← intOf t
      return ⟨.lit t.pos (some v), rest, Read.tail_lt⟩
    | .opening => do
      let ⟨e, r₁, h₁⟩ ← expr ending rest
      let ⟨_, r₂, h₂⟩ ← take ending .closing (fun t => t.kind = .closing) r₁
      return ⟨e, r₂, by simp only [List.length_cons]; omega⟩
    | .word =>
      if t.text == "True" then .ok ⟨.lit t.pos (some (.bool true)), rest, Read.tail_lt⟩
      else if t.text == "False" then
        .ok ⟨.lit t.pos (some (.bool false)), rest, Read.tail_lt⟩
      else if t.text == "if" then do
        let ⟨c, r₁, h₁⟩ ← expr ending rest
        let ⟨_, r₂, h₂⟩ ← takeKeyword ending "then" r₁
        let ⟨y, r₃, h₃⟩ ← expr ending r₂
        let ⟨_, r₄, h₄⟩ ← takeKeyword ending "else" r₃
        let ⟨n, r₅, h₅⟩ ← expr ending r₄
        return ⟨.cond t.pos c y n, r₅, by simp only [List.length_cons]; omega⟩
      else if t.text == "let" then do
        let ⟨x, r₁, h₁⟩ ← takeIdent ending rest
        let ⟨_, r₂, h₂⟩ ← take ending .equals (fun t => t.kind = .equals) r₁
        let ⟨b, r₃, h₃⟩ ← expr ending r₂
        let ⟨_, r₄, h₄⟩ ← takeKeyword ending "in" r₃
        let ⟨k, r₅, h₅⟩ ← expr ending r₄
        return ⟨.bind t.pos x b k, r₅, by simp only [List.length_cons]; omega⟩
      else do
        let x ← identOf t
        return ⟨.var t.pos x, rest, Read.tail_lt⟩
    | _ => .error (unexpected ending .expression (t :: rest))
termination_by ts => ts.length
decreasing_by all_goals simp only [List.length_cons]; omega

/-- The expression that a sequence of tokens spells. -/
def exprOfTokens (ts : Tokens) : Except SyntaxError (Expr Position) := do
  let read ← expr ts.ending ts.list
  match read.rest, ts.ending with
  | [], .endOfInput _ => return read.result
  | rest, ending => throw (unexpected ending .endOfInput rest)

/-- The expression that a source spells. -/
def parse (src : Text) : Except SyntaxError (Expr Position) := exprOfTokens (tokens src)

end LetIf.Source
