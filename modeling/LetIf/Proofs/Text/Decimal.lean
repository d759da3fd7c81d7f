/-
Numbers in digits: the digits that are written denote the number, there are no more of them than its
size asks for, and the first is not zero unless the number is. So numbers read back, with a sign and
without, and in hexadecimal.
-/
import LetIf.Text.Basic

namespace LetIf.Text

/-! ## Digits in any base -/

section Digits

variable {base : Nat} {h : 1 < base}

theorem digitsOnto_lt {n : Nat} {acc : List Nat} (hacc : ∀ d ∈ acc, d < base) :
    ∀ d ∈ digitsOnto base h n acc, d < base := by
  fun_induction digitsOnto base h n acc with
  | case1 n acc hn => exact List.forall_mem_cons.2 ⟨hn, hacc⟩
  | case2 n acc hn ih =>
    exact ih (List.forall_mem_cons.2 ⟨Nat.mod_lt n (by omega), hacc⟩)

/-- The digits that stand already are read on from the number that is still to be written. -/
theorem foldl_digitsOnto (n : Nat) (acc : List Nat) :
    (digitsOnto base h n acc).foldl (fun v d => base * v + d) 0 =
      acc.foldl (fun v d => base * v + d) n := by
  fun_induction digitsOnto base h n acc with
  | case1 n acc hn => rw [List.foldl_cons, Nat.mul_zero, Nat.zero_add]
  | case2 n acc hn ih => rw [ih, List.foldl_cons, Nat.div_add_mod]

theorem digitsOnto_ne_nil (n : Nat) (acc : List Nat) : digitsOnto base h n acc ≠ [] := by
  fun_induction digitsOnto base h n acc with
  | case1 n acc hn => exact List.cons_ne_nil _ _
  | case2 n acc hn ih => exact ih

/-- The first digit of a positive number is positive. -/
theorem exists_digitsOnto_eq_cons {n : Nat} (hn : 0 < n) (acc : List Nat) :
    ∃ d ds, digitsOnto base h n acc = d :: ds ∧ 0 < d := by
  fun_induction digitsOnto base h n acc with
  | case1 n acc hlt => exact ⟨n, acc, rfl, hn⟩
  | case2 n acc hge ih => exact ih (Nat.div_pos (by omega) (by omega))

theorem length_digitsOnto {n : Nat} {acc : List Nat} {k : Nat} (hn : n < Nat.pow base (k + 1)) :
    (digitsOnto base h n acc).length ≤ k + 1 + acc.length := by
  fun_induction digitsOnto base h n acc generalizing k with
  | case1 n acc hlt => rw [List.length_cons]; omega
  | case2 n acc hge ih =>
    cases k with
    | zero => exact absurd (show n < base by simpa [Nat.pow] using hn) hge
    | succ k =>
      have hdiv : n / base < Nat.pow base (k + 1) :=
        Nat.div_lt_of_lt_mul (by rw [Nat.mul_comm]; exact hn)
      have := ih hdiv
      rw [List.length_cons] at this
      omega

end Digits

/-! ## Decimal digits -/

theorem toNat_digitByte {d : Nat} (h : d < 10) : (digitByte d).toNat = 48 + d := by
  rw [digitByte, if_pos h, Nat.toUInt8_eq, UInt8.toNat_ofNat', Nat.mod_eq_of_lt (by omega)]

theorem isDigit_digitByte {d : Nat} (h : d < 10) : isDigit (digitByte d) = true := by
  simp only [isDigit, Bool.and_eq_true, decide_eq_true_eq, UInt8.le_iff_toNat_le, toNat_digitByte h,
    UInt8.reduceToNat]
  omega

theorem decimalDigits_lt (n : Nat) : ∀ d ∈ decimalDigits n, d < 10 :=
  digitsOnto_lt fun _ hd => absurd hd List.not_mem_nil

theorem decimalValue_map_digitByte {ds : List Nat} (h : ∀ d ∈ ds, d < 10) (v : Nat) :
    (ds.map digitByte).foldl (fun n d => 10 * n + (d.toNat - 48)) v =
      ds.foldl (fun v d => 10 * v + d) v := by
  induction ds generalizing v with
  | nil => rfl
  | cons d ds ih =>
    obtain ⟨hd, hds⟩ := List.forall_mem_cons.1 h
    rw [List.map_cons, List.foldl_cons, List.foldl_cons, ih hds, toNat_digitByte hd,
      Nat.add_sub_cancel_left]

/-- A number in decimal denotes the number. -/
theorem decimalValue_ofNat (n : Nat) : decimalValue (ofNat n) = n := by
  unfold decimalValue ofNat
  rw [decimalValue_map_digitByte (decimalDigits_lt n), decimalDigits, foldl_digitsOnto]
  rfl

theorem all_isDigit_ofNat (n : Nat) : (ofNat n).all isDigit = true := by
  rw [ofNat, List.all_map, List.all_eq_true]
  exact fun d hd => isDigit_digitByte (decimalDigits_lt n d hd)

theorem ofNat_ne_nil (n : Nat) : ofNat n ≠ [] := by
  rw [ofNat, ne_eq, List.map_eq_nil_iff]
  exact digitsOnto_ne_nil n []

theorem length_ofNat {n k : Nat} (h : n < Nat.pow 10 (k + 1)) : (ofNat n).length ≤ k + 1 := by
  rw [ofNat, List.length_map]
  exact length_digitsOnto h

/-! ## Reading back -/

theorem nat?_ofNat (n : Nat) : nat? (ofNat n) = some n := by
  have hne : (ofNat n).isEmpty = false := List.isEmpty_eq_false_iff.2 (ofNat_ne_nil n)
  rw [nat?, hne, all_isDigit_ofNat, decimalValue_ofNat]
  rfl

theorem ne_sign_of_isDigit {b : UInt8} (h : isDigit b = true) : b ≠ byte '-' ∧ b ≠ byte '+' := by
  constructor <;> rintro rfl <;> cases h

theorem int?_ofInt (z : Int) : int? (ofInt z) = some z := by
  cases z with
  | ofNat n =>
    have hdigits := all_isDigit_ofNat n
    have hread := nat?_ofNat n
    show int? (ofNat n) = _
    cases ht : ofNat n with
    | nil => exact absurd ht (ofNat_ne_nil n)
    | cons b t =>
      rw [ht] at hdigits hread
      rw [List.all_cons, Bool.and_eq_true] at hdigits
      obtain ⟨hminus, hplus⟩ := ne_sign_of_isDigit hdigits.1
      rw [int?, if_neg (by simpa using hminus), if_neg (by simpa using hplus), hread]
      rfl
  | negSucc n =>
    show int? (byte '-' :: ofNat (n + 1)) = _
    rw [int?, if_pos (by decide), nat?_ofNat]
    rfl

/-! ## Hexadecimal digits -/

theorem hexValue?_digitByte : ∀ d < 16, hexValue? (digitByte d) = some d := by decide

/-- A padded number is so many digits, which denote it. -/
theorem exists_digits_hex {width n : Nat} (h : n < Nat.pow 16 (width + 1)) :
    ∃ ds : List Nat, hex (width + 1) n = ds.map digitByte ∧ ds.length = width + 1 ∧ (∀ d ∈ ds, d < 16) ∧
      ds.foldl (fun v d => 16 * v + d) 0 = n := by
  have hlen : (hexDigits n).length ≤ width + 1 := length_digitsOnto h
  have hzero : digitByte 0 = byte '0' := by decide
  refine ⟨List.replicate (width + 1 - (hexDigits n).length) 0 ++ hexDigits n, ?_, ?_, ?_, ?_⟩
  · rw [hex, List.map_append, List.map_replicate, List.length_map, hzero]
  · rw [List.length_append, List.length_replicate]
    omega
  · intro d hd
    obtain hd | hd := List.mem_append.1 hd
    · rw [(List.mem_replicate.1 hd).2]; decide
    · exact digitsOnto_lt (fun _ hd => absurd hd List.not_mem_nil) d hd
  · have hpad : ∀ k, (List.replicate k 0).foldl (fun v d => 16 * v + d) 0 = 0 := by
      intro k
      induction k with
      | zero => rfl
      | succ k ih => exact ih
    rw [List.foldl_append, hpad, hexDigits, foldl_digitsOnto]
    rfl

end LetIf.Text
