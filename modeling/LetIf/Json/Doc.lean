/-
JSON documents. A document is read byte by byte by an automaton with a stack of the lists and
objects that are open, so a fault is known at the first byte that no document can have there.
Every value remembers the offset at which a complaint about it points: behind a scalar, and behind
the bracket that opens a list or an object.
-/
import LetIf.Text.Utf8

namespace LetIf.Json

open Text

inductive Doc where
  | null (mark : Nat)
  | bool (mark : Nat) (b : Bool)
  | number (mark : Nat) (literal : Text)
  | string (mark : Nat) (text : Text)
  | list (mark : Nat) (items : List Doc)
  | object (mark : Nat) (members : List (Text × Doc))

def Doc.mark : Doc → Nat
  | .null m | .bool m _ | .number m _ | .string m _ | .list m _ | .object m _ => m

/-- Why no document could be read. -/
inductive Fault where
  /-- There is nothing but blanks. -/
  | nothing
  /-- The text ends inside the document. -/
  | cut
  /-- The text up to this offset is the start of no document. -/
  | bad (offset : Nat)
  deriving DecidableEq, Repr

/-- The deepest nesting of lists and objects. -/
def maxDepth : Nat := 10000

/-! ## Strings -/

/-- What a string is made of before it is put together: bytes, and units of an escape. -/
inductive Part where
  | byte (b : UInt8)
  | unit (n : Nat)
  deriving DecidableEq, Repr

def isHighSurrogate (n : Nat) : Bool := 0xD800 ≤ n && n < 0xDC00

def isLowSurrogate (n : Nat) : Bool := 0xDC00 ≤ n && n < 0xE000

/-- The character of a unit; a surrogate on its own is replaced. -/
def unitChar (n : Nat) : Char := if n.isValidChar then Char.ofNat n else Char.ofNat 0xFFFD

/-- The bytes of the parts. Two units that are a surrogate pair make one character. -/
def assemble : List Part → Text
  | [] => []
  | .byte b :: rest => b :: assemble rest
  | .unit m :: .unit n :: rest =>
    if isHighSurrogate m && isLowSurrogate n then
      String.utf8EncodeChar (Char.ofNat (0x10000 + (m - 0xD800) * 0x400 + (n - 0xDC00))) ++
        assemble rest
    else String.utf8EncodeChar (unitChar m) ++ assemble (.unit n :: rest)
  | .unit m :: rest => String.utf8EncodeChar (unitChar m) ++ assemble rest

/-- A text with every stray byte replaced. -/
def sanitize (t : Text) : Text := ofChars ((pieces t).map Piece.toChar)

/-- The byte that an escape of one letter stands for. -/
def escaped? (b : UInt8) : Option UInt8 :=
  if b == byte '"' || b == byte '\\' || b == byte '/' then some b
  else if b == byte 'b' then some 8
  else if b == byte 'f' then some 12
  else if b == byte 'n' then some 10
  else if b == byte 'r' then some 13
  else if b == byte 't' then some 9
  else none

/-! ## The automaton -/

inductive Literal where
  | null
  | true
  | false
  deriving DecidableEq, Repr

def Literal.doc (mark : Nat) : Literal → Doc
  | .null => .null mark
  | .true => .bool mark Bool.true
  | .false => .bool mark Bool.false

/-- How far a number has been read. -/
inductive Phase where
  | minus
  | zero
  | digits
  | point
  | fraction
  | mark
  | markSign
  | exponent
  deriving DecidableEq, Repr

/-- Where a number may end. -/
def Phase.isComplete : Phase → Bool
  | .zero | .digits | .fraction | .exponent => true
  | .minus | .point | .mark | .markSign => false

/-- The phase after one more byte of a number. -/
def Phase.next? (p : Phase) (b : UInt8) : Option Phase :=
  let digit := isDigit b
  let e := b == byte 'e' || b == byte 'E'
  match p with
  | .minus => if b == byte '0' then some .zero else if digit then some .digits else none
  | .zero => if b == byte '.' then some .point else if e then some .mark else none
  | .digits =>
    if digit then some .digits else if b == byte '.' then some .point
    else if e then some .mark else none
  | .point => if digit then some .fraction else none
  | .fraction => if digit then some .fraction else if e then some .mark else none
  | .mark =>
    if digit then some .exponent
    else if b == byte '+' || b == byte '-' then some .markSign else none
  | .markSign => if digit then some .exponent else none
  | .exponent => if digit then some .exponent else none

/-- How far an escape in a string has been read. -/
inductive Escape where
  | none
  | started
  /-- Behind the `u`: where the escape starts, how many digits are still to come, and their value
  so far. -/
  | hex (start more value : Nat)
  deriving DecidableEq, Repr

inductive Mode where
  /-- A value has to come. -/
  | value
  /-- A value has to come, or the end of a list. -/
  | firstItem
  /-- A key has to come, or the end of an object. -/
  | firstKey
  | key
  | colon
  /-- A comma has to come, or the end of the list or object. -/
  | next
  /-- Inside a string, which may be a key; the parts so far, the latest first. -/
  | string (isKey : Bool) (parts : List Part) (escape : Escape)
  /-- Inside a number; its bytes so far, the latest first. -/
  | number (literal : Text) (phase : Phase)
  /-- Inside a literal; its bytes still to come. -/
  | literal (which : Literal) (left : Text)

/-- A list or an object that is open; its contents so far, the latest first. -/
inductive Frame where
  | list (mark : Nat) (items : List Doc)
  | object (mark : Nat) (members : List (Text × Doc)) (key : Text)

structure State where
  mode : Mode
  stack : List Frame

def State.start : State := ⟨.value, []⟩

inductive Progress where
  | more (s : State)
  /-- The document ends with the byte. -/
  | done (d : Doc)
  /-- The document ends before the byte. -/
  | before (d : Doc)
  /-- The byte cannot stand here. -/
  | bad
  /-- The letter of an escape cannot stand here. -/
  | badLetter
  /-- The escape of a unit that starts here has a byte that is no digit. -/
  | badEscape (start : Nat)

def isSpace (b : UInt8) : Bool := b == 32 || b == 9 || b == 10 || b == 13

/-- What a complete value leads to. -/
def accept (d : Doc) : List Frame → Progress
  | [] => .done d
  | .list mark items :: outer => .more ⟨.next, .list mark (d :: items) :: outer⟩
  | .object mark members key :: outer =>
    .more ⟨.next, .object mark ((key, d) :: members) key :: outer⟩

/-- The end of the innermost list or object. -/
def close (b : UInt8) : List Frame → Progress
  | .list mark items :: outer =>
    if b == byte ']' then accept (.list mark items.reverse) outer else .bad
  | .object mark members _ :: outer =>
    if b == byte '\x7d' then accept (.object mark members.reverse) outer else .bad
  | [] => .bad

/-- The first byte of a value. -/
def startValue (off : Nat) (stack : List Frame) (b : UInt8) : Progress :=
  if b == byte '"' then .more ⟨.string false [] .none, stack⟩
  else if b == byte '-' then .more ⟨.number [b] .minus, stack⟩
  else if b == byte '0' then .more ⟨.number [b] .zero, stack⟩
  else if isDigit b then .more ⟨.number [b] .digits, stack⟩
  else if b == byte 'n' then .more ⟨.literal .null "ull", stack⟩
  else if b == byte 't' then .more ⟨.literal .true "rue", stack⟩
  else if b == byte 'f' then .more ⟨.literal .false "alse", stack⟩
  else if b == byte '[' then
    if maxDepth ≤ stack.length then .bad
    else .more ⟨.firstItem, .list (off + 1) [] :: stack⟩
  else if b == byte '\x7b' then
    if maxDepth ≤ stack.length then .bad
    else .more ⟨.firstKey, .object (off + 1) [] [] :: stack⟩
  else .bad

/-- A byte between the parts of a document. -/
def stepBetween (off : Nat) (mode : Mode) (stack : List Frame) (b : UInt8) : Progress :=
  if isSpace b then .more ⟨mode, stack⟩
  else match mode, stack with
    | .value, _ => startValue off stack b
    | .firstItem, _ => if b == byte ']' then close b stack else startValue off stack b
    | .firstKey, _ =>
      if b == byte '"' then .more ⟨.string true [] .none, stack⟩ else close b stack
    | .key, _ => if b == byte '"' then .more ⟨.string true [] .none, stack⟩ else .bad
    | .colon, _ => if b == byte ':' then .more ⟨.value, stack⟩ else .bad
    | .next, .list .. :: _ => if b == byte ',' then .more ⟨.value, stack⟩ else close b stack
    | .next, .object .. :: _ => if b == byte ',' then .more ⟨.key, stack⟩ else close b stack
    | _, _ => .bad

/-- The end of a string. -/
def endString (off : Nat) (isKey : Bool) (parts : List Part) (stack : List Frame) : Progress :=
  let text := sanitize (assemble parts.reverse)
  if isKey then
    match stack with
    | .object mark members _ :: outer => .more ⟨.colon, .object mark members text :: outer⟩
    | _ => .bad
  else accept (.string (off + 1) text) stack

/-- A byte inside a string. -/
def stepString (off : Nat) (isKey : Bool) (parts : List Part) (escape : Escape)
    (stack : List Frame) (b : UInt8) : Progress :=
  match escape with
  | .none =>
    if b == byte '"' then endString off isKey parts stack
    else if b == byte '\\' then .more ⟨.string isKey parts .started, stack⟩
    else if b < 32 then .bad
    else .more ⟨.string isKey (.byte b :: parts) .none, stack⟩
  | .started =>
    if b == byte 'u' then .more ⟨.string isKey parts (.hex (off - 1) 4 0), stack⟩
    else match escaped? b with
      | some c => .more ⟨.string isKey (.byte c :: parts) .none, stack⟩
      | none => .badLetter
  | .hex start more value =>
    match hexValue? b with
    | none => .badEscape start
    | some d =>
      let value := value * 16 + d
      if more ≤ 1 then .more ⟨.string isKey (.unit value :: parts) .none, stack⟩
      else .more ⟨.string isKey parts (.hex start (more - 1) value), stack⟩

/-- A byte inside or behind a number. -/
def stepNumber (off : Nat) (literal : Text) (phase : Phase) (stack : List Frame) (b : UInt8) :
    Progress :=
  match phase.next? b with
  | some phase => .more ⟨.number (b :: literal) phase, stack⟩
  | none =>
    if phase.isComplete then
      match accept (.number off literal.reverse) stack with
      | .more s => stepBetween off s.mode s.stack b
      | .done d => .before d
      | p => p
    else .bad

/-- One byte at offset `off`. -/
def step (off : Nat) (s : State) (b : UInt8) : Progress :=
  match s.mode with
  | .string isKey parts escape => stepString off isKey parts escape s.stack b
  | .number literal phase => stepNumber off literal phase s.stack b
  | .literal which left =>
    match left with
    | c :: left =>
      if b ≠ c then .bad
      else if left.isEmpty then accept (which.doc (off + 1)) s.stack
      else .more ⟨.literal which left, s.stack⟩
    | [] => .bad
  | mode => stepBetween off mode s.stack b

/-- What the end of the text means in a state. -/
def atEnd (off : Nat) (s : State) : Except Fault Doc :=
  match s.mode, s.stack with
  | .value, [] => .error .nothing
  | .number literal phase, [] =>
    if phase.isComplete then .ok (.number off literal.reverse) else .error .cut
  | _, _ => .error .cut

/-- The number of bytes of the character, or the stray byte, at the start of a text. -/
def widthOfFirst (t : Text) : Nat :=
  match char? t with
  | some (_, rest) => t.length - rest.length
  | none => 1

/-- A document, the offset behind it, and what follows it. -/
structure Taken where
  doc : Doc
  offset : Nat
  rest : Text

/-- Reads a document from a state on. -/
def run (off : Nat) (s : State) : Text → Except Fault Taken
  | [] => (atEnd off s).map fun d => ⟨d, off, []⟩
  | b :: rest =>
    match step off s b with
    | .more s => run (off + 1) s rest
    | .done d => .ok ⟨d, off + 1, rest⟩
    | .before d => .ok ⟨d, off, b :: rest⟩
    | .bad => .error (.bad (off + widthOfFirst (b :: rest)))
    | .badLetter => .error (.bad (off + 1))
    | .badEscape start => .error (.bad (min (start + 6) (off + 1 + rest.length)))

/-- Reads the document at the start of a text. -/
def read (t : Text) : Except Fault Taken := run 0 .start t

/-! ## Writing strings -/

/-- A character inside a written string. -/
def escapeChar (c : Char) : Text :=
  let n := c.toNat
  if c = '"' ∨ c = '\\' then [byte '\\', byte c]
  else if n = 8 then "\\b"
  else if n = 9 then "\\t"
  else if n = 10 then "\\n"
  else if n = 12 then "\\f"
  else if n = 13 then "\\r"
  else if n < 32 ∨ c = '<' ∨ c = '>' ∨ c = '&' ∨ n = 0x2028 ∨ n = 0x2029 then "\\u" ++ hex 4 n
  else String.utf8EncodeChar c

/-- How the replacement character is spelled that stands for a stray byte: by an escape, or as it is. Both
are in use, and readers take them for the same. -/
class Replacement where
  isEscaped : Bool

/-- What is written inside a string for a character or a stray byte. -/
def escapePiece [Replacement] : Piece → Text
  | .char c => escapeChar c
  | .stray b => if Replacement.isEscaped then "\\ufffd" else escapeChar (Piece.stray b).toChar

/-- A text as a string that is also safe inside markup. A stray byte is replaced. -/
def quotedString [Replacement] (t : Text) : Text :=
  byte '"' :: (pieces t).flatMap escapePiece ++ [byte '"']

end LetIf.Json
