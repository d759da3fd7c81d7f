/-
Numbers in the standard, in the reader of the built-in engine and in the reader of modules. The standard
gives a number by what is left of its width behind each byte; the reader of modules puts all groups together
and looks at their value. Below 64 bits the two accept the same bytes for the same numbers.
-/
import LetIf.Proofs.Engine.Standard
import LetIf.Proofs.Wasm.Grammar

namespace LetIf.Engine

open Bits (span)
open Wasm.Leb128 (isNumber natValue intValue bits isLast)

namespace Standard

/-! ## Groups -/

theorem bits_of_lt {b : UInt8} (h : b.toNat < 128) : bits b = b.toNat ∧ isLast b = true :=
  ⟨Nat.mod_eq_of_lt h, decide_eq_true h⟩

theorem bits_of_le {b : UInt8} (h : 128 ≤ b.toNat) : bits b = b.toNat - 128 ∧ isLast b = false := by
  have hlt := b.toNat_lt
  refine ⟨?_, decide_eq_false (by omega)⟩
  unfold bits
  omega

theorem span_sub_seven {width : Nat} (h : 7 ≤ width) : span width = 128 * span (width - 7) := by
  rw [← Wasm.Leb128.span_add_seven, Nat.sub_add_cancel h]

/-! ## Unsigned numbers -/

theorem isUnsigned_cons {width n : Nat} {b : UInt8} {bs : Text} : IsUnsigned width n (b :: bs) ↔
    b.toNat < 128 ∧ b.toNat < span width ∧ n = b.toNat ∧ bs = [] ∨
      128 ≤ b.toNat ∧ 7 < width ∧ ∃ m, IsUnsigned (width - 7) m bs ∧ n = 128 * m + (b.toNat - 128) := by
  constructor
  · intro h
    cases h with
    | last h₁ h₂ => exact .inl ⟨h₁, h₂, rfl, rfl⟩
    | more h₁ h₂ h₃ => exact .inr ⟨h₁, h₂, _, h₃, rfl⟩
  · rintro (⟨h₁, h₂, rfl, rfl⟩ | ⟨h₁, h₂, m, h₃, h⟩)
    · exact .last h₁ h₂
    · exact h ▸ .more h₁ h₂ h₃

/-- A number of a width is one whose groups end within the width and whose value fits it. -/
theorem isUnsigned_iff : ∀ {bs : Text} {width n : Nat}, 0 < width → (IsUnsigned width n bs ↔
    isNumber bs = true ∧ 7 * bs.length < width + 7 ∧ natValue bs = n ∧ n < span width)
  | [], _, _, _ => ⟨fun h => (by cases h), fun h => (by cases h.1)⟩
  | b :: bs, width, n, hw => by
    rw [isUnsigned_cons, Wasm.Leb128.isNumber_cons, natValue, List.length_cons]
    obtain hb | hb := Nat.lt_or_ge b.toNat 128
    · obtain ⟨hbits, hlast⟩ := bits_of_lt hb
      rw [hbits, hlast]
      constructor
      · rintro (⟨-, hfit, rfl, rfl⟩ | ⟨hge, -⟩)
        · exact ⟨.inl ⟨rfl, rfl⟩, by rw [List.length_nil]; omega, rfl, hfit⟩
        · omega
      · rintro ⟨⟨-, rfl⟩ | ⟨h, -⟩, -, rfl, hfit⟩
        · exact .inl ⟨hb, hfit, rfl, rfl⟩
        · cases h
    · obtain ⟨hbits, hlast⟩ := bits_of_le hb
      have hbyte := b.toNat_lt
      rw [hbits, hlast]
      constructor
      · rintro (⟨hlt, -⟩ | ⟨-, hseven, m, hm, h⟩)
        · omega
        · obtain ⟨hn, hlen, rfl, hfit⟩ := (isUnsigned_iff (by omega)).1 hm
          have hspan := span_sub_seven (Nat.le_of_lt hseven)
          exact ⟨.inr ⟨rfl, hn⟩, by omega, by omega, by omega⟩
      · rintro ⟨⟨h, -⟩ | ⟨-, hn⟩, hlen, rfl, hfit⟩
        · cases h
        · have hpos := List.length_pos_iff.2 (Wasm.Leb128.isNumber_ne_nil hn)
          have hspan := span_sub_seven (by omega : 7 ≤ width)
          refine .inr ⟨hb, by omega, natValue bs, ?_, by omega⟩
          exact (isUnsigned_iff (by omega)).2 ⟨hn, by omega, rfl, by omega⟩

theorem isUnsigned_of_isU32 {bs : Text} {n : UInt32} (h : Wasm.IsU32 bs n) : IsUnsigned 32 n.toNat bs := by
  obtain ⟨hn, hlen, hval⟩ := h
  exact (isUnsigned_iff (by decide)).2 ⟨hn, by omega, hval, n.toNat_lt⟩

/-! ## Signed numbers -/

theorem isSigned_cons {width : Nat} {n : Int} {b : UInt8} {bs : Text} : IsSigned width n (b :: bs) ↔
    b.toNat < 64 ∧ b.toNat < span (width - 1) ∧ n = b.toNat ∧ bs = [] ∨
      64 ≤ b.toNat ∧ b.toNat < 128 ∧ 128 - b.toNat ≤ span (width - 1) ∧ n = (b.toNat : Int) - 128 ∧ bs = [] ∨
      128 ≤ b.toNat ∧ 7 < width ∧ ∃ m, IsSigned (width - 7) m bs ∧ n = 128 * m + ((b.toNat : Int) - 128) := by
  constructor
  · intro h
    cases h with
    | positive h₁ h₂ => exact .inl ⟨h₁, h₂, rfl, rfl⟩
    | negative h₁ h₂ h₃ => exact .inr (.inl ⟨h₁, h₂, h₃, rfl, rfl⟩)
    | more h₁ h₂ h₃ => exact .inr (.inr ⟨h₁, h₂, _, h₃, rfl⟩)
  · rintro (⟨h₁, h₂, rfl, rfl⟩ | ⟨h₁, h₂, h₃, rfl, rfl⟩ | ⟨h₁, h₂, m, h₃, rfl⟩)
    · exact .positive h₁ h₂
    · exact .negative h₁ h₂ h₃
    · exact .more h₁ h₂ h₃

theorem isSigned_iff : ∀ {bs : Text} {width : Nat} {n : Int}, 0 < width → (IsSigned width n bs ↔
    isNumber bs = true ∧ 7 * bs.length < width + 7 ∧ intValue bs = n ∧
      -(span (width - 1) : Int) ≤ n ∧ n < span (width - 1))
  | [], _, _, _ => ⟨fun h => (by cases h), fun h => (by cases h.1)⟩
  | b :: bs, width, n, hw => by
    rw [isSigned_cons, Wasm.Leb128.isNumber_cons, List.length_cons]
    obtain hb | hb := Nat.lt_or_ge b.toNat 128
    · obtain ⟨hbits, hlast⟩ := bits_of_lt hb
      have hone := Wasm.Leb128.intValue_singleton b
      rw [hbits] at hone
      rw [hlast]
      constructor
      · rintro (⟨hlt, hfit, rfl, rfl⟩ | ⟨hge, -, hfit, rfl, rfl⟩ | ⟨hge, -⟩)
        · rw [if_pos hlt] at hone
          exact ⟨.inl ⟨rfl, rfl⟩, by rw [List.length_nil]; omega, hone, by omega, by omega⟩
        · rw [if_neg (by omega)] at hone
          exact ⟨.inl ⟨rfl, rfl⟩, by rw [List.length_nil]; omega, hone, by omega, by omega⟩
        · omega
      · rintro ⟨⟨-, rfl⟩ | ⟨h, -⟩, -, rfl, hlo, hhi⟩
        · rw [hone] at hlo hhi ⊢
          split at hlo
          · rename_i hlt
            rw [if_pos hlt] at hhi ⊢
            exact .inl ⟨hlt, by omega, rfl, rfl⟩
          · rename_i hge
            rw [if_neg hge]
            exact .inr (.inl ⟨by omega, hb, by omega, rfl, rfl⟩)
        · cases h
    · obtain ⟨hbits, hlast⟩ := bits_of_le hb
      have hbyte := b.toNat_lt
      rw [hlast]
      constructor
      · rintro (⟨hlt, -⟩ | ⟨-, hlt, -⟩ | ⟨-, hseven, m, hm, rfl⟩)
        · omega
        · omega
        · obtain ⟨hn, hlen, rfl, hlo, hhi⟩ := (isSigned_iff (by omega)).1 hm
          have hspan := span_sub_seven (by omega : 7 ≤ width - 1)
          rw [show width - 1 - 7 = width - 7 - 1 by omega] at hspan
          refine ⟨.inr ⟨rfl, hn⟩, by omega, ?_, by omega, by omega⟩
          rw [Wasm.Leb128.intValue_cons hn, hbits]
          omega
      · rintro ⟨⟨h, -⟩ | ⟨-, hn⟩, hlen, rfl, hlo, hhi⟩
        · cases h
        · have hpos := List.length_pos_iff.2 (Wasm.Leb128.isNumber_ne_nil hn)
          have hspan := span_sub_seven (by omega : 7 ≤ width - 1)
          rw [show width - 1 - 7 = width - 7 - 1 by omega] at hspan
          rw [Wasm.Leb128.intValue_cons hn, hbits] at hlo hhi ⊢
          refine .inr (.inr ⟨hb, by omega, intValue bs, ?_, by omega⟩)
          exact (isSigned_iff (by omega)).2 ⟨hn, by omega, rfl, by omega, by omega⟩

theorem isSigned_of_isS32 {bs : Text} {n : Int32} (h : Wasm.IsS32 bs n) : IsSigned 32 n.toInt bs := by
  obtain ⟨hn, hlen, hval⟩ := h
  have hlo := n.le_toInt
  have hhi := n.toInt_lt
  have hspan : span (32 - 1) = 2147483648 := rfl
  exact (isSigned_iff (by decide)).2 ⟨hn, by omega, hval, by omega, by omega⟩

end Standard

/-! ## Readers -/

open Standard (IsUnsigned IsSigned)

theorem unsigned_append {width n : Nat} {bs : Text} (hn : IsUnsigned width n bs) (rest : Text) :
    ∃ h, unsigned width (bs ++ rest) = some ⟨n, rest, h⟩ := by
  induction hn with
  | last h₁ h₂ =>
    exact ⟨Read.tail_lt, (if_pos h₁).trans (if_pos h₂)⟩
  | more h₁ h₂ _ ih =>
    obtain ⟨hlt, ih⟩ := ih
    refine ⟨Read.lt_cons hlt, (if_neg (by omega)).trans ((if_pos h₂).trans ?_)⟩
    exact Option.bind_eq_some_iff.2 ⟨_, ih, rfl⟩

theorem exists_of_unsigned : ∀ {src : Text} {width : Nat} {r : Read Nat src}, unsigned width src = some r →
    ∃ bs, src = bs ++ r.rest ∧ IsUnsigned width r.result bs
  | [], _, _, h => by cases h
  | b :: src, width, r, h => by
    rw [unsigned] at h
    split at h
    · rename_i h₁
      split at h
      · rename_i h₂
        cases h
        exact ⟨[b], rfl, .last h₁ h₂⟩
      · cases h
    · split at h
      · rename_i h₁ h₂
        obtain ⟨r', hr', h⟩ := Option.bind_eq_some_iff.1 h
        obtain ⟨bs, hsrc, hbs⟩ := exists_of_unsigned hr'
        obtain rfl := Option.some.inj h
        exact ⟨b :: bs, congrArg (b :: ·) hsrc, .more (by omega) h₂ hbs⟩
      · cases h

/-- The built-in engine reads the unsigned numbers of the standard. -/
theorem unsigned_eq_some {width n : Nat} {src rest : Text} {h : rest.length < src.length} :
    unsigned width src = some ⟨n, rest, h⟩ ↔ ∃ bs, src = bs ++ rest ∧ IsUnsigned width n bs := by
  constructor
  · exact exists_of_unsigned
  · rintro ⟨bs, rfl, hn⟩
    exact (unsigned_append hn rest).2

theorem signed_append {width : Nat} {n : Int} {bs : Text} (hn : IsSigned width n bs) (rest : Text) :
    ∃ h, signed width (bs ++ rest) = some ⟨n, rest, h⟩ := by
  induction hn with
  | positive h₁ h₂ =>
    exact ⟨Read.tail_lt, (if_pos h₁).trans (if_pos h₂)⟩
  | negative h₁ h₂ h₃ =>
    exact ⟨Read.tail_lt, (if_neg (by omega)).trans ((if_pos h₂).trans (if_pos h₃))⟩
  | more h₁ h₂ _ ih =>
    obtain ⟨hlt, ih⟩ := ih
    refine ⟨Read.lt_cons hlt, (if_neg (by omega)).trans ((if_neg (by omega)).trans ((if_pos h₂).trans ?_))⟩
    exact Option.bind_eq_some_iff.2 ⟨_, ih, rfl⟩

theorem exists_of_signed : ∀ {src : Text} {width : Nat} {r : Read Int src}, signed width src = some r →
    ∃ bs, src = bs ++ r.rest ∧ IsSigned width r.result bs
  | [], _, _, h => by cases h
  | b :: src, width, r, h => by
    rw [signed] at h
    split at h
    · rename_i h₁
      split at h
      · rename_i h₂
        cases h
        exact ⟨[b], rfl, .positive h₁ h₂⟩
      · cases h
    · rename_i h₁
      split at h
      · rename_i h₂
        split at h
        · rename_i h₃
          cases h
          exact ⟨[b], rfl, .negative (by omega) h₂ h₃⟩
        · cases h
      · rename_i h₂
        split at h
        · rename_i h₃
          obtain ⟨r', hr', h⟩ := Option.bind_eq_some_iff.1 h
          obtain ⟨bs, hsrc, hbs⟩ := exists_of_signed hr'
          obtain rfl := Option.some.inj h
          exact ⟨b :: bs, congrArg (b :: ·) hsrc, .more (by omega) h₃ hbs⟩
        · cases h

/-- The built-in engine reads the signed numbers of the standard. -/
theorem signed_eq_some {width : Nat} {n : Int} {src rest : Text} {h : rest.length < src.length} :
    signed width src = some ⟨n, rest, h⟩ ↔ ∃ bs, src = bs ++ rest ∧ IsSigned width n bs := by
  constructor
  · exact exists_of_signed
  · rintro ⟨bs, rfl, hn⟩
    exact (signed_append hn rest).2

section Agreement

variable {width : Nat} (hpos : 0 < width) (hw : width < 64) (src : Text)
include hpos hw

/-- Both readers of unsigned numbers read the same. -/
theorem unsigned_eq_unsigned? : unsigned width src = Wasm.Leb128.unsigned? width src := by
  refine Option.ext fun r => ?_
  obtain ⟨n, rest, h⟩ := r
  rw [unsigned_eq_some, Wasm.Leb128.unsigned?_eq_some hw]
  exact exists_congr fun bs => and_congr_right fun _ => Standard.isUnsigned_iff hpos

/-- Both readers of signed numbers read the same. -/
theorem signed_eq_signed? : signed width src = Wasm.Leb128.signed? width src := by
  refine Option.ext fun r => ?_
  obtain ⟨n, rest, h⟩ := r
  rw [signed_eq_some, Wasm.Leb128.signed?_eq_some hw]
  exact exists_congr fun bs => and_congr_right fun _ => Standard.isSigned_iff hpos

end Agreement

end LetIf.Engine
