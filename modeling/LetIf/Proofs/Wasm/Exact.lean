/-
The readers of numbers against arithmetic. The number at the front of a text ends with its first byte below
128; its value is the sum of the lower seven bits of its bytes in places of seven bits, and its signed value
the same bits in two's complement. Below 64 bits a number is read exactly when it has no more bytes than the
width needs and its value fits the width, and what is read is that value. Ten bytes reach beyond a word. At 64
bits a number of ten bytes is read whether its value fits or not, as what is left of it in a word.
-/
import LetIf.Proofs.Wasm.Widths
import Mathlib.Algebra.BigOperators.Fin

namespace LetIf.Wasm.Leb128

open Bits

/-! ## The value of a number -/

/-- The text starts with the bytes `bs` of a number, of which only the last is below 128, and `rest` is what is
behind it. -/
def StartsWith (bs rest src : Text) : Prop :=
  ∃ marked last, bs = marked ++ [last] ∧ src = bs ++ rest ∧ (∀ b ∈ marked, 128 ≤ b.toNat) ∧ last.toNat < 128

/-- The lower seven bits of each byte in places of seven bits, the lowest first. -/
def sum (bs : Text) : Nat := ∑ i : Fin bs.length, bs[i].toNat % 128 * span (7 * i)

/-- The same bits, seven of each byte, in two's complement. -/
def twos (bs : Text) : Int := (sum bs : Int).bmod (span (7 * bs.length))

theorem isNumber_iff {bs : Text} :
    isNumber bs = true ↔ ∃ marked last, bs = marked ++ [last] ∧ (∀ b ∈ marked, 128 ≤ b.toNat) ∧ last.toNat < 128 := by
  constructor
  · intro h
    induction bs with
    | nil => cases h
    | cons b bs ih =>
      rcases isNumber_cons.1 h with ⟨hlast, rfl⟩ | ⟨hmore, hbs⟩
      · exact ⟨[], b, rfl, List.forall_mem_nil _, of_decide_eq_true hlast⟩
      · obtain ⟨marked, last, rfl, hmarked, hlast⟩ := ih hbs
        have hb : 128 ≤ b.toNat := Nat.le_of_not_lt (of_decide_eq_false hmore)
        exact ⟨b :: marked, last, rfl, List.forall_mem_cons.2 ⟨hb, hmarked⟩, hlast⟩
  · rintro ⟨marked, last, rfl, hmarked, hlast⟩
    induction marked with
    | nil => exact isNumber_cons.2 (.inl ⟨decide_eq_true hlast, rfl⟩)
    | cons b marked ih =>
      obtain ⟨hb, hmarked⟩ := List.forall_mem_cons.1 hmarked
      exact isNumber_cons.2 (.inr ⟨decide_eq_false (Nat.not_lt.2 hb), ih hmarked⟩)

theorem startsWith_iff {bs rest src : Text} :
    StartsWith bs rest src ↔ src = bs ++ rest ∧ isNumber bs = true := by
  rw [isNumber_iff]
  constructor
  · rintro ⟨marked, last, hbs, hsrc, hmarked, hlast⟩
    exact ⟨hsrc, marked, last, hbs, hmarked, hlast⟩
  · rintro ⟨hsrc, marked, last, hbs, hmarked, hlast⟩
    exact ⟨marked, last, hbs, hsrc, hmarked, hlast⟩

theorem sum_cons (b : UInt8) (bs : Text) : sum (b :: bs) = bits b + 128 * sum bs := by
  have hplace (i : Fin bs.length) : bs[i].toNat % 128 * span (7 * (i + 1)) =
      128 * (bs[i].toNat % 128 * span (7 * i)) := by
    rw [Nat.mul_add, Nat.mul_one, span_add_seven, Nat.mul_left_comm]
  unfold sum
  rw [Finset.mul_sum, ← Finset.sum_congr rfl fun i _ => hplace i]
  refine (Fin.sum_univ_succ (n := bs.length) _).trans ?_
  exact congrArg (· + _) (Nat.mul_one _)

theorem natValue_eq_sum : ∀ bs : Text, natValue bs = sum bs
  | [] => rfl
  | b :: bs => by rw [natValue, natValue_eq_sum bs, sum_cons]

theorem intValue_eq_twos (bs : Text) : intValue bs = twos bs := by
  have hlt := natValue_lt bs
  unfold intValue twos
  rw [← natValue_eq_sum, Int.bmod_def, Int.emod_eq_of_lt (by omega) (by omega)]
  split <;> split <;> omega

/-! ## What is left of a number in a word -/

section Words

variable {α : Type} {write : α → Text} {read : Nat → (src : Text) → Option (Read α src)} {Fits : Nat → α → Prop}
  {value : Text → α} {cut : α → α}

/-- What `cut` leaves of a value is held by a word, which holds all of any other than a ten-byte number. -/
structure Cuts (value : Text → α) (cut : α → α) (Fits : Nat → α → Prop) : Prop where
  word (v : α) : Fits 64 (cut v)
  kept {v : α} : Fits 64 v → cut v = v
  short {bs : Text} : 7 * bs.length < 64 → Fits 64 (value bs)

/-- Of the numbers that are read only those of ten bytes can be cut, and only at 64 bits. -/
theorem Groups.read_iff (hg : Groups write read Fits fun bs => cut (value bs)) (hc : Cuts value cut Fits)
    {width : Nat} (hw : width ≤ 64) {src rest : Text} {n : α} {h : rest.length < src.length} :
    read width src = some ⟨n, rest, h⟩ ↔ ∃ bs, StartsWith bs rest src ∧ bs.length ≤ (width + 6) / 7 ∧
      (Fits width (value bs) ∧ n = value bs ∨
        width = 64 ∧ bs.length = 10 ∧ ¬ Fits 64 (value bs) ∧ n = cut (value bs)) := by
  rw [hg.read hw]
  constructor
  · rintro ⟨bs, hsrc, hbs, hlen, rfl, hfits⟩
    refine ⟨bs, startsWith_iff.2 ⟨hsrc, hbs⟩, by omega, ?_⟩
    by_cases hword : Fits 64 (value bs)
    · rw [hc.kept hword] at hfits ⊢
      exact .inl ⟨hfits, rfl⟩
    · have hlong : ¬ 7 * bs.length < 64 := fun hshort => hword (hc.short hshort)
      exact .inr ⟨by omega, by omega, hword, rfl⟩
  · rintro ⟨bs, hstarts, hlen, ⟨hfits, rfl⟩ | ⟨rfl, -, -, rfl⟩⟩
    · obtain ⟨hsrc, hbs⟩ := startsWith_iff.1 hstarts
      have hkept := hc.kept (hg.mono hw hfits)
      exact ⟨bs, hsrc, hbs, by omega, hkept, hfits⟩
    · obtain ⟨hsrc, hbs⟩ := startsWith_iff.1 hstarts
      exact ⟨bs, hsrc, hbs, by omega, rfl, hc.word _⟩

theorem cuts_sum : Cuts sum (· % span 64) FitsNat where
  word _ := Nat.mod_lt _ (span_pos 64)
  kept hv := Nat.mod_eq_of_lt hv
  short {bs} hlen := by
    rw [← natValue_eq_sum]
    exact Nat.lt_of_lt_of_le (natValue_lt bs) (span_le_span (Nat.le_of_lt hlen))

theorem fitsInt_word {v : Int} : FitsInt 64 v ↔ v.bmod (span 64) = v := by
  have h64 : span 64 = 18446744073709551616 := rfl
  have h63 : span (64 - 1) = 9223372036854775808 := rfl
  unfold FitsInt
  rw [h63, h64]
  constructor
  · rintro ⟨hlo, hhi⟩
    exact Int.bmod_eq_of_le (by omega) (by omega)
  · intro hv
    have hlo := Int.le_bmod (x := v) (m := 18446744073709551616) (by decide)
    have hhi := Int.bmod_lt (x := v) (m := 18446744073709551616) (by decide)
    omega

theorem cuts_twos : Cuts twos (·.bmod (span 64)) FitsInt where
  word _ := fitsInt_word.2 Int.bmod_bmod
  kept := fitsInt_word.1
  short hlen := by
    rw [← intValue_eq_twos, fitsInt_word]
    exact intValue_bmod hlen

end Words

/-! ## Every width up to that of a word -/

/-- At every width up to 64 bits a number at the front of a text is read if it has no more bytes than the
width needs and its value fits the width, and what is read is that value. Nothing else is read below 64 bits;
at 64 bits also the numbers of ten bytes whose values do not fit are, as what a word holds of them. -/
theorem reads_sum {width : Nat} (hw : width ≤ 64) {src rest : Text} (h : rest.length < src.length) :
    (∀ n : Nat, unsigned? width src = some ⟨n, rest, h⟩ ↔
      ∃ bs, StartsWith bs rest src ∧ bs.length ≤ (width + 6) / 7 ∧
        (FitsNat width (sum bs) ∧ n = sum bs ∨
          width = 64 ∧ bs.length = 10 ∧ ¬ FitsNat 64 (sum bs) ∧ n = sum bs % span 64)) ∧
    ∀ n : Int, signed? width src = some ⟨n, rest, h⟩ ↔
      ∃ bs, StartsWith bs rest src ∧ bs.length ≤ (width + 6) / 7 ∧
        (FitsInt width (twos bs) ∧ n = twos bs ∨
          width = 64 ∧ bs.length = 10 ∧ ¬ FitsInt 64 (twos bs) ∧ n = (twos bs).bmod (span 64)) := by
  have hunsigned : Groups unsigned unsigned? FitsNat fun bs => sum bs % span 64 := by
    simpa only [natValue_eq_sum] using groups_unsigned
  have hsigned : Groups signed signed? FitsInt fun bs => (twos bs).bmod (span 64) := by
    simpa only [intValue_eq_twos] using groups_signed
  exact ⟨fun _ => hunsigned.read_iff cuts_sum hw, fun _ => hsigned.read_iff cuts_twos hw⟩

theorem StartsWith.unique {bs bs' rest rest' src : Text} (h : StartsWith bs rest src)
    (h' : StartsWith bs' rest' src) : bs = bs' := by
  obtain ⟨rfl, hbs⟩ := startsWith_iff.1 h
  obtain ⟨hsrc, hbs'⟩ := startsWith_iff.1 h'
  exact (number_append_inj hbs hbs' hsrc).1

/-- The lowest signed number of 33 bits, which takes 35 as an unsigned one. -/
def lowest : Text := [128, 128, 128, 128, 112]

theorem sum_lowest : sum lowest = 30064771072 := (natValue_eq_sum lowest).symm

theorem twos_lowest : twos lowest = -4294967296 := (intValue_eq_twos lowest).symm

theorem reads_sum_lowest : 33 ≤ 64 ∧ ([] : Text).length < lowest.length ∧
    (∀ n h, unsigned? 33 lowest ≠ some ⟨n, [], h⟩) ∧ ∃ h, signed? 33 lowest = some ⟨-4294967296, [], h⟩ := by
  have hwidth : 33 ≤ 64 := by decide
  have hlt : ([] : Text).length < lowest.length := by decide
  have hstarts : StartsWith lowest [] lowest := startsWith_iff.2 ⟨rfl, rfl⟩
  obtain ⟨hunsigned, hsigned⟩ := reads_sum hwidth hlt
  refine ⟨hwidth, hlt, fun n _ hn => ?_, hlt, (hsigned _).2 ⟨lowest, hstarts, by decide, .inl ⟨?_, ?_⟩⟩⟩
  · obtain ⟨bs, hbs, -, ⟨hfits, -⟩ | ⟨h64, -⟩⟩ := (hunsigned n).1 hn
    · rw [hbs.unique hstarts, sum_lowest, FitsNat] at hfits
      exact absurd hfits (by decide)
    · cases h64
  · rw [twos_lowest, FitsInt]
    decide
  · exact twos_lowest.symm

/-- Ten bytes with 65 bits set. -/
def overlong : Text := [255, 255, 255, 255, 255, 255, 255, 255, 255, 3]

/-- The highest of the 65 bits is lost without notice. -/
theorem reads_overlong :
    (∃ h, unsigned? 64 overlong = some ⟨span 64 - 1, [], h⟩) ∧ (∃ h, signed? 64 overlong = some ⟨-1, [], h⟩) ∧
      ∀ bs rest, StartsWith bs rest overlong → sum bs = span 65 - 1 ∧ ¬ FitsNat 64 (sum bs) ∧
        ¬ FitsInt 64 (twos bs) := by
  have hlt : ([] : Text).length < overlong.length := by decide
  have hstarts : StartsWith overlong [] overlong := startsWith_iff.2 ⟨rfl, rfl⟩
  have hsum : sum overlong = 36893488147419103231 := (natValue_eq_sum overlong).symm
  have htwos : twos overlong = 36893488147419103231 := (intValue_eq_twos overlong).symm
  refine ⟨⟨hlt, ?_⟩, ⟨hlt, ?_⟩, fun bs rest hbs => ?_⟩
  · exact (unsigned?_eq_some_word (Nat.le_refl 64)).2 ⟨overlong, rfl, rfl, by decide, by decide, by decide⟩
  · exact (signed?_eq_some_word (Nat.le_refl 64)).2 ⟨overlong, rfl, rfl, by decide, by decide, by decide⟩
  · rw [hbs.unique hstarts, hsum, htwos, FitsNat, FitsInt]
    decide

end LetIf.Wasm.Leb128
