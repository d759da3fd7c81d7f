/-
LEB128 numbers: groups of seven bits, the lowest first, all but the last marked in the eighth bit.
A signed number is extended from the highest bit of its last group. Writing takes the fewest
groups; reading puts the groups together in a 64-bit word, where bits beyond the word are lost,
and refuses numbers that do not fit a given width.
-/
import LetIf.Text.Basic
import LetIf.Read

namespace LetIf.Wasm.Leb128

/-- The shortest form of an unsigned number. -/
def unsigned (n : Nat) : Text :=
  if n < 128 then [n.toUInt8]
  else (n % 128 + 128).toUInt8 :: unsigned (n / 128)
termination_by n
decreasing_by omega

/-- The shortest form of a signed number. -/
def signed (n : Int) : Text :=
  if -64 ≤ n ∧ n < 64 then [(n % 128).toNat.toUInt8]
  else (n % 128 + 128).toNat.toUInt8 :: signed (n / 128)
termination_by n.natAbs
decreasing_by omega

/-- The seven bits of a group. -/
def bits (b : UInt8) : Nat := b.toNat % 128

/-- Whether a group is the last. -/
def isLast (b : UInt8) : Bool := b.toNat < 128

/-- Reads groups from bit `shift` on into the word `v`. -/
def groups (width shift v : Nat) : (src : Text) → Option (Read (Nat × Nat × UInt8) src)
  | [] => none
  | b :: rest =>
    if width ≤ shift then none
    else
      let v := v + bits b * Bits.span shift % Bits.span 64
      if isLast b then some ⟨(v, shift + 7, b), rest, Read.tail_lt⟩
      else (groups width (shift + 7) v rest).map fun r => r.after (Nat.le_succ _)

/-- An unsigned number of at most `width` bits. -/
def unsigned? (width : Nat) (src : Text) : Option (Read Nat src) := do
  let r ← groups width 0 0 src
  let (v, _, _) := r.result
  if width < 64 ∧ Bits.span width ≤ v then none else some (r.map fun _ => v)

/-- The number that a 64-bit word stands for in two's complement. -/
def ofWord (v : Nat) : Int := if v < Bits.span 63 then v else (v : Int) - Bits.span 64

/-- The signed number of a word filled up to bit `shift`, whose last group is `last`. -/
def extended (v shift : Nat) (last : UInt8) : Int :=
  if shift < 64 then
    if bits last < 64 then v else (v : Int) - Bits.span shift
  else ofWord v

/-- A signed number of at most `width` bits. -/
def signed? (width : Nat) (src : Text) : Option (Read Int src) := do
  let r ← groups width 0 0 src
  let (v, shift, last) := r.result
  let n := extended v shift last
  if width < 64 ∧ (n < -Bits.span (width - 1) ∨ Bits.span (width - 1) ≤ n) then none
  else some (r.map fun _ => n)

end LetIf.Wasm.Leb128
