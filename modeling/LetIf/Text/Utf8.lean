/-
UTF-8. A byte text is read as characters and stray bytes: a stray byte is one at which no
well-formed sequence in shortest form starts. Reading loses nothing, and a text is valid when it
has no stray byte. White space and case are those of characters, never of bytes.
-/
import LetIf.Text.Basic

namespace LetIf.Text

/-- What a byte text consists of. -/
inductive Piece where
  | char (c : Char)
  | stray (b : UInt8)
  deriving DecidableEq, Repr

def Piece.bytes : Piece → Text
  | .char c => String.utf8EncodeChar c
  | .stray b => [b]

/-- Reads `more` continuation bytes onto the leading bits `n`. The result has to be a scalar value
that fits no shorter form. -/
def charWith? (least : Nat) : (more n : Nat) → Text → Option (Char × Text)
  | 0, n, rest => if least ≤ n ∧ n.isValidChar then some (Char.ofNat n, rest) else none
  | _ + 1, _, [] => none
  | more + 1, n, b :: rest =>
    if b.toNat / 64 = 2 then charWith? least more (n * 64 + b.toNat % 64) rest else none

/-- The character at the start of a text and what follows it. -/
def char? : Text → Option (Char × Text)
  | [] => none
  | b :: rest =>
    let n := b.toNat
    if n < 0x80 then some (Char.ofNat n, rest)
    else if n / 32 = 6 then charWith? 0x80 1 (n % 32) rest
    else if n / 16 = 14 then charWith? 0x800 2 (n % 16) rest
    else if n / 8 = 30 then charWith? 0x10000 3 (n % 8) rest
    else none

theorem charWith?_length {least more n : Nat} {t rest : Text} {c : Char}
    (h : charWith? least more n t = some (c, rest)) : rest.length ≤ t.length := by
  fun_induction charWith? least more n t with
  | case1 => cases h; exact Nat.le_refl _
  | case2 => cases h
  | case3 => cases h
  | case4 _ _ _ _ _ ih => exact Nat.le_succ_of_le (ih h)
  | case5 => cases h

/-- A character takes at least one byte. -/
theorem char?_length {t rest : Text} {c : Char} (h : char? t = some (c, rest)) :
    rest.length < t.length := by
  unfold char? at h
  split at h
  · cases h
  · dsimp only at h
    split at h
    · cases h; exact Nat.lt_succ_self _
    · apply Nat.lt_succ_of_le
      split at h
      · exact charWith?_length h
      · split at h
        · exact charWith?_length h
        · split at h
          · exact charWith?_length h
          · cases h

/-- The characters and stray bytes of a text, from the left. -/
def pieces (t : Text) : List Piece :=
  match _h : char? t with
  | some (c, rest) => .char c :: pieces rest
  | none =>
    match t with
    | [] => []
    | b :: rest => .stray b :: pieces rest
termination_by t.length
decreasing_by
  · exact char?_length ‹_›
  · simp

/-- A text without stray bytes. -/
def isUtf8 (t : Text) : Bool :=
  match _h : char? t with
  | some (_, rest) => isUtf8 rest
  | none => t.isEmpty
termination_by t.length
decreasing_by exact char?_length ‹_›

/-- The replacement character stands for every stray byte. -/
def Piece.toChar : Piece → Char
  | .char c => c
  | .stray _ => Char.ofNat 0xFFFD

/-- The UTF-8 bytes of a sequence of characters. -/
def ofChars (cs : List Char) : Text := cs.flatMap String.utf8EncodeChar

/-! ## White space -/

/-- The characters with the Unicode property White_Space. -/
def isBlank (c : Char) : Bool :=
  let n := c.toNat
  (9 ≤ n && n ≤ 13) || n == 0x20 || n == 0x85 || n == 0xA0 || n == 0x1680 ||
    (0x2000 ≤ n && n ≤ 0x200A) || n == 0x2028 || n == 0x2029 || n == 0x202F || n == 0x205F ||
    n == 0x3000

/-- A stray byte is never blank. -/
def Piece.isBlank : Piece → Bool
  | .char c => Text.isBlank c
  | .stray _ => false

/-- A text without the blanks at its two ends. -/
def trimBlank (t : Text) : Text :=
  let inner := (pieces t).dropWhile Piece.isBlank
  (inner.reverse.dropWhile Piece.isBlank).reverse.flatMap Piece.bytes

/-! ## Case

Two characters are the same name character when simple case folding takes them to the same character.
The names compared here are ASCII, and besides the two cases of a letter only the long s and the Kelvin
sign fold to an ASCII letter. Lower case is another map: it takes the dotted capital I and the Kelvin
sign to ASCII letters and leaves the long s alone. -/

/-- Simple case folding, as far as it leads to ASCII. -/
def foldChar (c : Char) : Char :=
  if c.toNat = 0x17F then 's'
  else if c.toNat = 0x212A then 'k'
  else c.toLower

/-- Whether `t` spells the ASCII name `name` in any case. -/
def sameName (name t : Text) : Bool :=
  (pieces t).map (fun p => foldChar p.toChar) == (pieces name).map (fun p => foldChar p.toChar)

/-- The lower case of a character, as far as it leads to ASCII. -/
def lowerChar (c : Char) : Char :=
  if c.toNat = 0x130 then 'i'
  else if c.toNat = 0x212A then 'k'
  else c.toLower

/-- A text in lower case, exact where the result is ASCII. -/
def lowerCase (t : Text) : Text := ofChars ((pieces t).map fun p => lowerChar p.toChar)

end LetIf.Text
