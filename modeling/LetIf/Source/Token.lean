/-
Tokens of a source. A source is cut from the left into integers, words and the signs for equality
and parentheses, each as long as it can be; space, tab, carriage return and line feed separate
them. Cutting ends at the end of the source or at the first byte that belongs to no token.
-/
import LetIf.Report
import LetIf.Ident

namespace LetIf

/-- The position after a byte: a line feed starts a line, any other byte takes a column. -/
def Position.after (p : Position) (b : UInt8) : Position :=
  if b == 10 then ⟨p.line + 1, 1⟩ else ⟨p.line, p.column + 1⟩

/-- The position `n` bytes later on the same line. -/
def Position.along (p : Position) (n : Nat) : Position := ⟨p.line, p.column + n⟩

def Position.start : Position := ⟨1, 1⟩

namespace Source

open Text

inductive Token.Kind where
  | endOfInput
  | integer
  | word
  | equals
  | opening
  | closing
  deriving DecidableEq, Repr

def Token.Kind.name : Token.Kind → Text
  | .endOfInput => "end of input"
  | .integer => "integer"
  | .word => "word"
  | .equals => "\"=\""
  | .opening => "\"(\""
  | .closing => "\")\""

def Token.Kind.ofCode? : UInt8 → Option Token.Kind
  | 0 => some .endOfInput
  | 1 => some .integer
  | 2 => some .word
  | 3 => some .equals
  | 4 => some .opening
  | 5 => some .closing
  | _ => none

/-- The name of a token kind by its number. -/
def Token.Kind.nameOfCode (code : UInt8) : Text :=
  match ofCode? code with
  | some k => k.name
  | none => "tokenKind(" ++ Text.ofNat code.toNat ++ ")"

/-- A token with the position of its first byte. -/
structure Token where
  kind : Token.Kind
  text : Text
  pos : Position
  deriving DecidableEq, Repr

/-- A token as a message shows it. -/
def Token.shown (t : Token) : Text :=
  if t.kind = .endOfInput then t.kind.name else quoted t.text

/-- What the grammar would have taken at some point. -/
inductive Wanted where
  | expression
  | identifier
  | equals
  | closing
  | keyword (w : Text)
  | endOfInput
  deriving DecidableEq, Repr

def Wanted.name : Wanted → Text
  | .expression => "expression"
  | .identifier => "identifier"
  | .equals => "\"=\""
  | .closing => "\")\""
  | .keyword w => "\"" ++ w ++ "\""
  | .endOfInput => "end of input"

inductive Problem where
  | unexpectedByte (b : UInt8)
  | letterInInteger
  | tooManyDigits (digits : Text)
  | tooLarge (digits : Text)
  | reservedWord (w : Text)
  | invalidIdentifier (w : Text)
  | unexpected (wanted : Wanted) (found : Token)
  deriving DecidableEq, Repr

/-- The most digits an integer may have. -/
def maxDigits : Nat := 10

def Problem.message : Problem → Text
  | .unexpectedByte b => "unexpected character " ++ quotedChar (Char.ofNat b.toNat)
  | .letterInInteger => "unexpected letter in integer literal"
  | .tooManyDigits d =>
    "integer literal " ++ d ++ " has more than " ++ Text.ofNat maxDigits ++ " digits"
  | .tooLarge d => "integer literal " ++ d ++ " does not fit in 32 bits"
  | .reservedWord w => "reserved word " ++ quoted w ++ " cannot be used as an identifier"
  | .invalidIdentifier w => "invalid identifier " ++ quoted w
  | .unexpected wanted found => "expected " ++ wanted.name ++ ", found " ++ found.shown

end Source

/-- Why a source is no program, and where that shows first. -/
structure SyntaxError where
  problem : Source.Problem
  pos : Position
  deriving DecidableEq, Repr

def SyntaxError.report (e : SyntaxError) : Report := .ofSyntax e.problem.message e.pos

namespace Source

open Text

/-- How the cutting of a source ends. -/
inductive Ending where
  | endOfInput (pos : Position)
  | fault (e : SyntaxError)
  deriving DecidableEq, Repr

/-- The tokens of a source up to its ending. -/
structure Tokens where
  list : List Token
  ending : Ending
  deriving DecidableEq, Repr

def Tokens.cons (t : Token) (ts : Tokens) : Tokens := { ts with list := t :: ts.list }

def isSpace (b : UInt8) : Bool := b == 32 || b == 9 || b == 13 || b == 10

/-- The sign tokens. -/
def sign? (b : UInt8) : Option Token.Kind :=
  if b == byte '=' then some .equals
  else if b == byte '(' then some .opening
  else if b == byte ')' then some .closing
  else none

/-- Whether a text starts with a byte that would continue a word. -/
def startsInWord : Text → Bool
  | [] => false
  | b :: _ => isWordByte b

theorem length_dropWhile_le {α : Type} (p : α → Bool) (l : List α) :
    (l.dropWhile p).length ≤ l.length :=
  (List.dropWhile_suffix p).length_le

/-- The tokens of `src`, whose first byte stands at `pos`. -/
def tokensFrom (pos : Position) (src : Text) : Tokens :=
  match src with
  | [] => ⟨[], .endOfInput pos⟩
  | b :: rest =>
    if isSpace b then tokensFrom (pos.after b) rest
    else match sign? b with
      | some kind => (tokensFrom (pos.along 1) rest).cons ⟨kind, [b], pos⟩
      | none =>
        if isDigit b then
          let digits := b :: rest.takeWhile isDigit
          let later := rest.dropWhile isDigit
          let next := pos.along digits.length
          if startsInWord later then ⟨[], .fault ⟨.letterInInteger, next⟩⟩
          else (tokensFrom next later).cons ⟨.integer, digits, pos⟩
        else if isLetter b then
          let word := b :: rest.takeWhile isWordByte
          let later := rest.dropWhile isWordByte
          (tokensFrom (pos.along word.length) later).cons ⟨.word, word, pos⟩
        else ⟨[], .fault ⟨.unexpectedByte b, pos⟩⟩
termination_by src.length
decreasing_by
  · simp
  · simp
  · exact Nat.lt_succ_of_le (length_dropWhile_le _ _)
  · exact Nat.lt_succ_of_le (length_dropWhile_le _ _)

/-- The tokens of a source. -/
def tokens (src : Text) : Tokens := tokensFrom .start src

end Source

end LetIf
