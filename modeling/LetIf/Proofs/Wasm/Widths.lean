/-
Numbers of every width up to that of a word. The readers take back what the writers write, in front
of anything, as long as the number fits the width, which the extreme numbers of the width do and the
next ones do not; what is written is as short as anything that is read as the same number, and
nothing that breaks off inside a number is read. Both forms are the same argument about groups: a
number is told from what follows by its marks, and has at most as many groups as its width needs.
-/
import LetIf.Proofs.Wasm.Leb128

namespace LetIf.Wasm.Leb128

open Bits

/-! ## Where a number ends -/

/-- The marks say where a number ends, whatever follows. -/
theorem number_append_inj {rest rest' : Text} : ∀ {bs cs : Text}, isNumber bs = true → isNumber cs = true →
    bs ++ rest = cs ++ rest' → bs = cs ∧ rest = rest'
  | [], _, h, _, _ => by cases h
  | _, [], _, h, _ => by cases h
  | b :: bs, c :: cs, hb, hc, h => by
    rw [List.cons_append, List.cons_append, List.cons.injEq] at h
    obtain ⟨rfl, h⟩ := h
    rcases isNumber_cons.1 hb with ⟨hlast, rfl⟩ | ⟨hmore, hbs⟩
    · rcases isNumber_cons.1 hc with ⟨-, rfl⟩ | ⟨hmore, -⟩
      · exact ⟨rfl, h⟩
      · rw [hlast] at hmore
        cases hmore
    · rcases isNumber_cons.1 hc with ⟨hlast, -⟩ | ⟨-, hcs⟩
      · rw [hlast] at hmore
        cases hmore
      · obtain ⟨rfl, hrest⟩ := number_append_inj hbs hcs h
        exact ⟨rfl, hrest⟩

/-! ## Writers and readers -/

section Inverse

variable {α : Type} (write : α → Text) (read : Nat → (src : Text) → Option (Read α src))
  (Fits : Nat → α → Prop)

/-- Up to 64 bits a reader is the inverse of a writer. -/
structure Inverts : Prop where
  /-- A number that fits is read in front of anything. -/
  reads {width : Nat} {n : α} (rest : Text) : 1 ≤ width → width ≤ 64 → Fits width n →
    ∃ h, read width (write n ++ rest) = some ⟨n, rest, h⟩
  /-- Of the numbers of 64 bits no others are read. -/
  refuses {width : Nat} {n : α} (rest : Text) : 1 ≤ width → width ≤ 64 → Fits 64 n → ¬ Fits width n →
    read width (write n ++ rest) = none
  /-- What is read as a number has at least the bytes that are written for it. -/
  shortest {src : Text} {r : Read α src} : read 64 src = some r →
    (write r.result).length + r.rest.length ≤ src.length
  /-- What breaks off inside a number is not read. -/
  whole {width : Nat} {n : α} {src : Text} : 1 ≤ width → width ≤ 64 → src <+: write n → src ≠ write n →
    read width src = none

/-- What reader and writer have to do with the groups of a number, of which `value` is the value. -/
structure Groups (value : Text → α) : Prop where
  read {width : Nat} {src rest : Text} {n : α} {h : rest.length < src.length} : width ≤ 64 →
    (read width src = some ⟨n, rest, h⟩ ↔ ∃ bs, src = bs ++ rest ∧ isNumber bs = true ∧
      7 * bs.length < width + 7 ∧ value bs = n ∧ Fits width n)
  number (n : α) : isNumber (write n) = true
  value_write {n : α} : Fits 64 n → value (write n) = n
  mono {m width : Nat} {n : α} : m ≤ width → Fits m n → Fits width n
  length_lt {width : Nat} {n : α} : 1 ≤ width → Fits width n → 7 * (write n).length < width + 7
  length_le {bs : Text} : isNumber bs = true → 7 * bs.length < 64 + 7 →
    (write (value bs)).length ≤ bs.length

variable {write read Fits}

theorem Groups.inverts {value : Text → α} (h : Groups write read Fits value) : Inverts write read Fits where
  reads {width n} rest h₁ h₆₄ hfits := by
    have hpos := List.length_pos_iff.2 (isNumber_ne_nil (h.number n))
    have hlt : rest.length < (write n ++ rest).length := by
      rw [List.length_append]
      omega
    exact ⟨hlt, (h.read h₆₄).2 ⟨write n, rfl, h.number n, h.length_lt h₁ hfits, h.value_write (h.mono h₆₄ hfits), hfits⟩⟩
  refuses {width n} rest _ h₆₄ hword hfits := by
    cases hr : read width (write n ++ rest) with
    | none => rfl
    | some r =>
      obtain ⟨bs, hsrc, hbs, -, hvalue, hn⟩ := (h.read h₆₄).1 hr
      obtain ⟨rfl, -⟩ := number_append_inj (h.number n) hbs hsrc
      rw [← hvalue, h.value_write hword] at hn
      exact absurd hn hfits
  shortest {src r} hr := by
    obtain ⟨bs, hsrc, hbs, hlen, hvalue, -⟩ := (h.read (Nat.le_refl 64)).1 hr
    have hle := h.length_le hbs hlen
    have hsum := congrArg List.length hsrc
    rw [hvalue] at hle
    rw [List.length_append] at hsum
    omega
  whole {width n src} _ h₆₄ hprefix hne := by
    cases hr : read width src with
    | none => rfl
    | some r =>
      obtain ⟨bs, hsrc, hbs, -⟩ := (h.read h₆₄).1 hr
      obtain ⟨more, hmore⟩ := hprefix
      -- the number that is read is all of the number that was written
      have hwhole : bs ++ (r.rest ++ more) = write n ++ [] := by
        rw [← List.append_assoc, ← hsrc, hmore, List.append_nil]
      obtain ⟨-, hnil⟩ := number_append_inj hbs (h.number n) hwhole
      obtain ⟨-, rfl⟩ := List.append_eq_nil_iff.1 hnil
      rw [List.append_nil] at hmore
      exact absurd hmore hne

end Inverse

/-! ## Both forms -/

/-- The unsigned numbers of a width. -/
def FitsNat (width n : Nat) : Prop := n < span width

/-- The signed numbers of a width. -/
def FitsInt (width : Nat) (n : Int) : Prop := -span (width - 1) ≤ n ∧ n < span (width - 1)

theorem groups_unsigned : Groups unsigned unsigned? FitsNat fun bs => natValue bs % span 64 where
  read hw := unsigned?_eq_some_word hw
  number n := (unsigned_spec n).1
  value_write {n} hn := by
    rw [(unsigned_spec n).2]
    exact Nat.mod_eq_of_lt hn
  mono hle hn := Nat.lt_of_lt_of_le hn (span_le_span hle)
  length_lt {width n} h₁ hn := by
    have hwidth : width ≤ 7 * ((width - 1) / 7 + 1) := by omega
    have := unsigned_length (Nat.lt_of_lt_of_le hn (span_le_span hwidth))
    omega
  length_le hbs _ := unsigned_length_le hbs (Nat.mod_le _ _)

theorem groups_signed : Groups signed signed? FitsInt fun bs => (intValue bs).bmod (span 64) where
  read hw := signed?_eq_some_word hw
  number n := (signed_spec n).1
  value_write {n} hn := by
    have h64 : span 64 = 18446744073709551616 := rfl
    have h63 : span (64 - 1) = 9223372036854775808 := rfl
    obtain ⟨hlo, hhi⟩ := hn
    rw [h63] at hlo hhi
    rw [(signed_spec n).2, h64]
    exact Int.bmod_eq_of_le (by omega) (by omega)
  mono {m width n} hle hn := by
    have hspan : span (m - 1) ≤ span (width - 1) := span_le_span (by omega)
    obtain ⟨hlo, hhi⟩ := hn
    exact ⟨by omega, by omega⟩
  length_lt {width n} h₁ hn := by
    have hwidth : span (width - 1) ≤ span (7 * ((width - 1) / 7) + 6) := span_le_span (by omega)
    have h6 : span 6 = 64 := rfl
    rw [span_add, h6, Nat.mul_comm] at hwidth
    obtain ⟨hlo, hhi⟩ := hn
    have := signed_length (k := (width - 1) / 7) (n := n) (by omega) (by omega)
    omega
  length_le {bs} hbs hlen := by
    by_cases hs : 7 * bs.length < 64
    · rw [intValue_bmod hs]
      exact signed_length_le hbs
    · -- ten groups hold every word
      have hten : bs.length = 9 + 1 := by omega
      have h64 : span 64 = 18446744073709551616 := rfl
      have h63 : 64 * span (7 * 9) = 590295810358705651712 := rfl
      have hlo := Int.le_bmod (x := intValue bs) (span_pos 64)
      have hhi := Int.bmod_lt (x := intValue bs) (span_pos 64)
      rw [hten]
      exact signed_length (by omega) (by omega)

/-- At every width from 1 to 64 bits the readers are the inverses of the writers, on unsigned numbers
below the span of the width and on signed ones from minus half of it to below half of it. -/
theorem inverts_every_width : Inverts unsigned unsigned? FitsNat ∧ Inverts signed signed? FitsInt :=
  ⟨groups_unsigned.inverts, groups_signed.inverts⟩

end LetIf.Wasm.Leb128
