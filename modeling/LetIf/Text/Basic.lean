/-
Byte text. Sources, names and messages are sequences of bytes that need not be valid UTF-8,
so every text of the library is a list of bytes; string literals stand for their UTF-8 bytes.
Before it, how many words there are of a width.
-/

namespace LetIf

namespace Bits

/-- How many words there are of a width in bits: two to the power of it. -/
def span (width : Nat) : Nat := Nat.pow 2 width

theorem span_add (m n : Nat) : span (m + n) = span m * span n := Nat.pow_add 2 m n

theorem span_pos (n : Nat) : 0 < span n := Nat.pow_pos (by decide)

theorem span_le_span {m n : Nat} (h : m ≤ n) : span m ≤ span n := Nat.pow_le_pow_right (by decide) h

end Bits

/-- Text as its bytes. -/
abbrev Text := List UInt8

namespace Text

/-- The UTF-8 bytes of a string. -/
def ofString (s : String) : Text := s.toUTF8.data.toList

instance : Coe String Text := ⟨ofString⟩

/-- One byte given by an ASCII character. -/
def byte (c : Char) : UInt8 := c.toNat.toUInt8

/-! ## Byte classes -/

def isDigit (b : UInt8) : Bool := 48 ≤ b && b ≤ 57

def isLetter (b : UInt8) : Bool := (97 ≤ b && b ≤ 122) || (65 ≤ b && b ≤ 90)

/-- The bytes of a word: letters, digits and the underscore. -/
def isWordByte (b : UInt8) : Bool := isLetter b || isDigit b || b == 95

/-- A text with its ASCII capitals in lower case. -/
def lowerAscii (t : Text) : Text :=
  t.map fun b => if 65 ≤ b && b ≤ 90 then b + 32 else b

/-! ## Numbers -/

/-- The digits of a number in base `base`, most significant first, in front of `acc`. -/
def digitsOnto (base : Nat) (h : 1 < base) (n : Nat) (acc : List Nat) : List Nat :=
  if n < base then n :: acc
  else digitsOnto base h (n / base) (n % base :: acc)
termination_by n
decreasing_by exact Nat.div_lt_self (by omega) h

/-- The character of a digit below 36, in lower case. -/
def digitByte (d : Nat) : UInt8 := if d < 10 then (48 + d).toUInt8 else (87 + d).toUInt8

def upperDigitByte (d : Nat) : UInt8 := if d < 10 then (48 + d).toUInt8 else (55 + d).toUInt8

theorem one_lt_ten : 1 < 10 := by decide

theorem one_lt_sixteen : 1 < 16 := by decide

/-- The digits of a number in decimal, the most significant first. -/
def decimalDigits (n : Nat) : List Nat := digitsOnto 10 one_lt_ten n []

/-- The digits of a number in hexadecimal, the most significant first. -/
def hexDigits (n : Nat) : List Nat := digitsOnto 16 one_lt_sixteen n []

/-- A natural number in decimal, without leading zeros. -/
def ofNat (n : Nat) : Text := (decimalDigits n).map digitByte

/-- An integer in decimal, a minus sign before a negative one. -/
def ofInt : Int → Text
  | .ofNat n => ofNat n
  | .negSucc n => byte '-' :: ofNat (n + 1)

/-- A number in lower case hexadecimal, padded with zeros to `width` digits. -/
def hex (width n : Nat) : Text :=
  let digits := (hexDigits n).map digitByte
  List.replicate (width - digits.length) (byte '0') ++ digits

/-- A byte as two lower case hexadecimal digits. -/
def hexByte (b : UInt8) : Text := [digitByte (b.toNat / 16), digitByte (b.toNat % 16)]

def upperHexByte (b : UInt8) : Text :=
  [upperDigitByte (b.toNat / 16), upperDigitByte (b.toNat % 16)]

/-- The value of a hexadecimal digit of either case. -/
def hexValue? (b : UInt8) : Option Nat :=
  if isDigit b then some (b.toNat - 48)
  else if 97 ≤ b && b ≤ 102 then some (b.toNat - 87)
  else if 65 ≤ b && b ≤ 70 then some (b.toNat - 55)
  else none

/-- The value of a sequence of decimal digits, read from the left. -/
def decimalValue (digits : Text) : Nat :=
  digits.foldl (fun n d => 10 * n + (d.toNat - 48)) 0

/-- A non-empty sequence of decimal digits. -/
def nat? (t : Text) : Option Nat :=
  if !t.isEmpty && t.all isDigit then some (decimalValue t) else none

/-- Decimal digits behind an optional sign. -/
def int? : Text → Option Int
  | [] => none
  | b :: rest =>
    if b == byte '-' then (nat? rest).map fun n => -(n : Int)
    else if b == byte '+' then (nat? rest).map fun n => (n : Int)
    else (nat? (b :: rest)).map fun n => (n : Int)

/-! ## Cutting -/

/-- Joins texts with a separator between neighbours. -/
def join (sep : Text) : List Text → Text
  | [] => []
  | [t] => t
  | t :: rest => t ++ sep ++ join sep rest

/-- Removes the bytes that satisfy `p` from both ends. -/
def trimBoth (p : UInt8 → Bool) (t : Text) : Text :=
  ((t.dropWhile p).reverse.dropWhile p).reverse

/-- Removes the bytes that satisfy `p` from the end. -/
def trimEnd (p : UInt8 → Bool) (t : Text) : Text :=
  (t.reverse.dropWhile p).reverse

/-- Removes one occurrence of `suffix` from the end, if it is there. -/
def dropSuffix (suffix t : Text) : Text :=
  if suffix.isSuffixOf t then t.take (t.length - suffix.length) else t

theorem le_length_dropSuffix (suffix t : Text) :
    t.length - suffix.length ≤ (dropSuffix suffix t).length := by
  unfold dropSuffix
  by_cases h : suffix.isSuffixOf t = true
  · rw [if_pos h, List.length_take]; omega
  · rw [if_neg h]; omega

/-- Splits before the first byte that satisfies `p`. -/
def splitAtFirst (p : UInt8 → Bool) (t : Text) : Text × Text :=
  t.span fun b => !p b

/-- The parts between the occurrences of one byte: one more part than there are occurrences. -/
def splitOn (sep : UInt8) (t : Text) : List Text :=
  let step (b : UInt8) : List Text → List Text
    | [] => [[b]]
    | part :: parts => if b == sep then [] :: part :: parts else (b :: part) :: parts
  t.foldr step [[]]

end Text

end LetIf
