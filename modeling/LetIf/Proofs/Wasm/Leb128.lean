/-
The LEB128 readers against the mathematical value of a number's groups. A number is any sequence of
marked groups with one unmarked group behind them, shortest or padded; its value is the sum of its
groups, and its signed value the same bits in two's complement. Below 64 bits the readers accept
exactly the numbers that start within the width and fit it, and the writers write such numbers, in
the fewest groups.
-/
import LetIf.Wasm.Leb128
import Mathlib.Tactic.Ring

namespace LetIf.Wasm.Leb128

open Bits

theorem span_add_seven (n : Nat) : span (n + 7) = 128 * span n := by
  rw [span_add, Nat.mul_comm]; rfl

/-! ## Numbers as groups -/

/-- The groups of one number: all but the last are marked. -/
def isNumber : Text → Bool
  | [] => false
  | b :: bs => if isLast b then bs.isEmpty else isNumber bs

/-- The value of a sequence of groups, the lowest first. -/
def natValue : Text → Nat
  | [] => 0
  | b :: bs => bits b + 128 * natValue bs

/-- The same bits in two's complement. -/
def intValue (bs : Text) : Int :=
  if 2 * natValue bs < span (7 * bs.length) then natValue bs
  else natValue bs - span (7 * bs.length)

theorem bits_lt (b : UInt8) : bits b < 128 := Nat.mod_lt _ (by decide)

theorem isNumber_ne_nil {bs : Text} (h : isNumber bs = true) : bs ≠ [] := by
  rintro rfl; cases h

theorem isNumber_cons {b : UInt8} {bs : Text} :
    isNumber (b :: bs) = true ↔ isLast b = true ∧ bs = [] ∨ isLast b = false ∧ isNumber bs = true := by
  rw [isNumber]
  cases isLast b with
  | true => simp
  | false => simp

theorem span_groups (b : UInt8) (bs : Text) :
    span (7 * (b :: bs).length) = 128 * span (7 * bs.length) :=
  span_add_seven (7 * bs.length)

/-- The last group alone decides the sign. -/
theorem two_mul_natValue_lt : ∀ {bs : Text}, isNumber bs = true →
    (2 * natValue bs < span (7 * bs.length) ↔ bits (bs.getLastD 0) < 64)
  | [b], _ => by
    have h1 : span (7 * [b].length) = 128 := rfl
    rw [h1, natValue, natValue, List.getLastD_cons, List.getLastD_nil]
    omega
  | b :: c :: cs, h => by
    rcases isNumber_cons.1 h with ⟨-, hnil⟩ | ⟨-, h⟩
    · cases hnil
    · have ih := two_mul_natValue_lt h
      have hb := bits_lt b
      rw [List.getLastD_cons] at ih ⊢
      rw [natValue, span_groups, List.getLastD_cons, ← ih]
      -- the span of the groups above is even, so the lowest group cannot bridge the gap to it
      rw [span_groups]
      omega

theorem intValue_singleton (b : UInt8) :
    intValue [b] = if bits b < 64 then (bits b : Int) else (bits b : Int) - 128 := by
  have h1 : span (7 * [b].length) = 128 := rfl
  unfold intValue
  rw [h1, natValue, natValue]
  split <;> split <;> omega

theorem intValue_cons {b : UInt8} {bs : Text} (h : isNumber bs = true) :
    intValue (b :: bs) = bits b + 128 * intValue bs := by
  have hb := bits_lt b
  obtain ⟨c, cs, rfl⟩ := List.exists_cons_of_ne_nil (isNumber_ne_nil h)
  unfold intValue
  rw [natValue, span_groups, span_groups]
  split <;> split <;> omega

/-! ## Reading -/

/-- What is lost of a group beyond the word is what is lost of the sum. -/
theorem add_mul_span_mod {v a shift : Nat} (hv : v < span shift) (h : shift ≤ 64) :
    v + a * span shift % span 64 = (v + a * span shift) % span 64 := by
  have hs : span 64 = span shift * span (64 - shift) := by
    rw [← span_add, Nat.add_sub_cancel' h]
  rw [hs, Nat.mul_comm a, Nat.mul_mod_mul_left, Nat.mod_mul, Nat.add_mul_mod_self_left,
    Nat.mod_eq_of_lt hv, Nat.add_mul_div_left _ _ (span_pos shift), Nat.div_eq_of_lt hv, Nat.zero_add]

/-- A group leaves the word below what is above the group. -/
theorem add_mul_span_lt {v shift : Nat} (b : UInt8) (hv : v < span shift) :
    v + bits b * span shift % span 64 < span (shift + 7) := by
  have hb : bits b * span shift ≤ 127 * span shift :=
    Nat.mul_le_mul_right _ (Nat.le_of_lt_succ (bits_lt b))
  have hmod := Nat.mod_le (bits b * span shift) (span 64)
  rw [span_add_seven shift]
  omega

/-- A word with the groups above it. -/
theorem word_cons {v shift : Nat} (b : UInt8) (bs : Text) (hv : v < span shift) (h : shift ≤ 64) :
    (v + bits b * span shift % span 64 + natValue bs * span (shift + 7)) % span 64 =
      (v + natValue (b :: bs) * span shift) % span 64 := by
  rw [add_mul_span_mod hv h, Nat.mod_add_mod, natValue, span_add_seven shift]
  congr 1
  ring

/-- What is read are the groups of one number, of which the last starts within the width; their value
is cut to the word. -/
theorem groups_eq_some {width : Nat} (hw : width ≤ 64) : ∀ {src : Text} {shift v : Nat}
    {r : Read (Nat × Nat × UInt8) src}, v < span shift → groups width shift v src = some r →
    ∃ bs, src = bs ++ r.rest ∧ isNumber bs = true ∧ shift + 7 * bs.length < width + 7 ∧
      r.result = ((v + natValue bs * span shift) % span 64, shift + 7 * bs.length, bs.getLastD 0)
  | [], _, _, _, _, h => by simp [groups] at h
  | b :: src, shift, v, r, hv, h => by
    rw [groups] at h
    split at h
    · cases h
    · rename_i hs
      dsimp only at h
      split at h
      · rename_i hb
        cases h
        refine ⟨[b], rfl, by simp [isNumber, hb], ?_, ?_⟩
        · simp only [List.length_cons, List.length_nil]
          omega
        · simp [natValue, add_mul_span_mod hv (Nat.le_of_lt (by omega : shift < 64))]
      · rename_i hb
        obtain ⟨r', hr', rfl⟩ := Option.map_eq_some_iff.1 h
        obtain ⟨bs, hsrc, hbs, hlen, hres⟩ := groups_eq_some hw (add_mul_span_lt b hv) hr'
        refine ⟨b :: bs, congrArg (b :: ·) hsrc, by simp [isNumber, hb, hbs], ?_, ?_⟩
        · rw [List.length_cons]; omega
        · obtain ⟨c, cs, rfl⟩ := List.exists_cons_of_ne_nil (isNumber_ne_nil hbs)
          rw [word_cons b _ hv (by omega)] at hres
          simp only [Read.after, hres, List.length_cons, List.getLastD_cons]
          refine Prod.ext rfl (Prod.ext ?_ rfl)
          dsimp only; omega

theorem groups_append {width : Nat} (hw : width ≤ 64) (rest : Text) : ∀ {bs : Text} (shift v : Nat),
    v < span shift → isNumber bs = true → shift + 7 * bs.length < width + 7 →
    ∃ h, groups width shift v (bs ++ rest) =
      some ⟨((v + natValue bs * span shift) % span 64, shift + 7 * bs.length, bs.getLastD 0), rest, h⟩
  | [], _, _, _, hn, _ => by cases hn
  | b :: bs, shift, v, hv, hn, hlen => by
    rw [List.length_cons] at hlen
    rw [List.cons_append, groups, if_neg (by omega)]
    dsimp only
    rcases isNumber_cons.1 hn with ⟨hb, rfl⟩ | ⟨hb, hbs⟩
    · rw [if_pos hb]
      exact ⟨by simp, by simp [natValue, add_mul_span_mod hv (by omega : shift ≤ 64)]⟩
    · obtain ⟨h, hg⟩ := groups_append hw rest (shift + 7) _ (add_mul_span_lt b hv) hbs (by omega)
      rw [if_neg (by simp [hb]), hg, Option.map_some, word_cons b bs hv (by omega)]
      refine ⟨Nat.lt_succ_of_lt h, congrArg some ?_⟩
      obtain ⟨c, cs, rfl⟩ := List.exists_cons_of_ne_nil (isNumber_ne_nil hbs)
      simp only [Read.after, List.length_cons, List.getLastD_cons, Read.mk.injEq, Prod.mk.injEq, and_true,
        true_and]
      omega

theorem groups_zero_eq_some {width : Nat} (hw : width ≤ 64) {src rest : Text} {v shift : Nat} {last : UInt8}
    {h : rest.length < src.length} : groups width 0 0 src = some ⟨(v, shift, last), rest, h⟩ ↔
      ∃ bs, src = bs ++ rest ∧ isNumber bs = true ∧ 7 * bs.length < width + 7 ∧
        v = natValue bs % span 64 ∧ shift = 7 * bs.length ∧ last = bs.getLastD 0 := by
  have h0 : span 0 = 1 := rfl
  constructor
  · intro hg
    obtain ⟨bs, hsrc, hbs, hlen, hres⟩ := groups_eq_some hw (span_pos 0) hg
    simp only [h0, Nat.zero_add, Nat.mul_one, Prod.mk.injEq] at hlen hres
    exact ⟨bs, hsrc, hbs, hlen, hres⟩
  · rintro ⟨bs, rfl, hbs, hlen, rfl, rfl, rfl⟩
    obtain ⟨h', hg⟩ := groups_append hw rest 0 0 (span_pos 0) hbs (by omega)
    simp only [h0, Nat.zero_add, Nat.mul_one] at hg
    exact hg

theorem natValue_lt : ∀ bs : Text, natValue bs < span (7 * bs.length)
  | [] => by rw [natValue]; exact span_pos 0
  | b :: bs => by
    have hb := bits_lt b
    have ih := natValue_lt bs
    rw [natValue, span_groups]
    omega

theorem natValue_mod {bs : Text} (hlen : 7 * bs.length < 64) : natValue bs % span 64 = natValue bs :=
  Nat.mod_eq_of_lt (Nat.lt_of_lt_of_le (natValue_lt bs) (span_le_span (Nat.le_of_lt hlen)))

theorem intValue_lt (bs : Text) :
    -(span (7 * bs.length) : Int) ≤ 2 * intValue bs ∧ 2 * intValue bs < span (7 * bs.length) := by
  have hlt := natValue_lt bs
  unfold intValue
  split <;> omega

theorem intValue_bmod {bs : Text} (hlen : 7 * bs.length < 64) :
    (intValue bs).bmod (span 64) = intValue bs := by
  have h64 : span 64 = 18446744073709551616 := rfl
  have hle : span (7 * bs.length) ≤ span 64 := span_le_span (Nat.le_of_lt hlen)
  obtain ⟨hlo, hhi⟩ := intValue_lt bs
  rw [h64] at hle ⊢
  exact Int.bmod_eq_of_le (by omega) (by omega)

/-- What a word is taken for: the signed value of its groups, as far as a word holds it. -/
theorem extended_natValue {bs : Text} (h : isNumber bs = true) (hlen : 7 * bs.length < 71) :
    extended (natValue bs % span 64) (7 * bs.length) (bs.getLastD 0) = (intValue bs).bmod (span 64) := by
  unfold extended
  by_cases hs : 7 * bs.length < 64
  · rw [if_pos hs, natValue_mod hs, intValue_bmod hs]
    unfold intValue
    simp only [two_mul_natValue_lt h]
  · have hten : bs.length = 10 := by omega
    have h70 : span (7 * bs.length) = 1180591620717411303424 := by rw [hten]; rfl
    have h63 : span 63 = 9223372036854775808 := rfl
    have h64 : span 64 = 18446744073709551616 := rfl
    rw [if_neg hs]
    unfold ofWord intValue
    rw [Int.bmod_def, h70, h64, h63]
    split <;> split <;> omega

/-- The unsigned reader takes a number, padded or not, of at most as many groups as the width needs,
and what a word holds of its value has to fit. -/
theorem unsigned?_eq_some_word {width : Nat} (hw : width ≤ 64) {src rest : Text} {n : Nat}
    {h : rest.length < src.length} : unsigned? width src = some ⟨n, rest, h⟩ ↔
      ∃ bs, src = bs ++ rest ∧ isNumber bs = true ∧ 7 * bs.length < width + 7 ∧
        natValue bs % span 64 = n ∧ n < span width := by
  unfold unsigned?
  rw [Option.bind_eq_bind, Option.bind_eq_some_iff]
  constructor
  · rintro ⟨⟨⟨v, shift, last⟩, rest', h'⟩, hg, hn⟩
    obtain ⟨bs, hsrc, hbs, hlen, rfl, rfl, rfl⟩ := (groups_zero_eq_some hw).1 hg
    dsimp only at hn
    split at hn
    · cases hn
    · rename_i hfit
      cases hn
      refine ⟨bs, hsrc, hbs, hlen, rfl, ?_⟩
      obtain rfl | hlt := Nat.eq_or_lt_of_le hw
      · exact Nat.mod_lt _ (span_pos 64)
      · exact Nat.lt_of_not_le fun hle => hfit ⟨hlt, hle⟩
  · rintro ⟨bs, rfl, hbs, hlen, rfl, hfit⟩
    refine ⟨⟨_, rest, h⟩, (groups_zero_eq_some hw).2 ⟨bs, rfl, hbs, hlen, rfl, rfl, rfl⟩, ?_⟩
    exact if_neg fun hbad => absurd hfit (Nat.not_lt_of_ge hbad.2)

/-- The signed reader likewise, with the value in two's complement. -/
theorem signed?_eq_some_word {width : Nat} (hw : width ≤ 64) {src rest : Text} {n : Int}
    {h : rest.length < src.length} : signed? width src = some ⟨n, rest, h⟩ ↔
      ∃ bs, src = bs ++ rest ∧ isNumber bs = true ∧ 7 * bs.length < width + 7 ∧
        (intValue bs).bmod (span 64) = n ∧ -span (width - 1) ≤ n ∧ n < span (width - 1) := by
  unfold signed?
  rw [Option.bind_eq_bind, Option.bind_eq_some_iff]
  constructor
  · rintro ⟨⟨⟨v, shift, last⟩, rest', h'⟩, hg, hn⟩
    obtain ⟨bs, hsrc, hbs, hlen, rfl, rfl, rfl⟩ := (groups_zero_eq_some hw).1 hg
    dsimp only at hn
    rw [extended_natValue hbs (by omega)] at hn
    split at hn
    · cases hn
    · rename_i hfit
      cases hn
      refine ⟨bs, hsrc, hbs, hlen, rfl, ?_⟩
      obtain rfl | hlt := Nat.eq_or_lt_of_le hw
      · have h64 : span 64 = 18446744073709551616 := rfl
        have h63 : span (64 - 1) = 9223372036854775808 := rfl
        have hlo := Int.le_bmod (x := intValue bs) (span_pos 64)
        have hhi := Int.bmod_lt (x := intValue bs) (span_pos 64)
        rw [h63]
        dsimp only
        omega
      · dsimp only
        omega
  · rintro ⟨bs, rfl, hbs, hlen, rfl, hlo, hhi⟩
    refine ⟨⟨_, rest, h⟩, (groups_zero_eq_some hw).2 ⟨bs, rfl, hbs, hlen, rfl, rfl, rfl⟩, ?_⟩
    dsimp only
    rw [extended_natValue hbs (by omega)]
    exact if_neg (by omega)

/-- Below 64 bits no value is cut, because groups start at multiples of seven. -/
theorem unsigned?_eq_some {width : Nat} (hw : width < 64) {src rest : Text} {n : Nat}
    {h : rest.length < src.length} : unsigned? width src = some ⟨n, rest, h⟩ ↔
      ∃ bs, src = bs ++ rest ∧ isNumber bs = true ∧ 7 * bs.length < width + 7 ∧
        natValue bs = n ∧ n < span width := by
  rw [unsigned?_eq_some_word (Nat.le_of_lt hw)]
  refine exists_congr fun bs => and_congr_right fun _ => and_congr_right fun _ => and_congr_right fun hlen => ?_
  rw [natValue_mod (by omega)]

theorem signed?_eq_some {width : Nat} (hw : width < 64) {src rest : Text} {n : Int}
    {h : rest.length < src.length} : signed? width src = some ⟨n, rest, h⟩ ↔
      ∃ bs, src = bs ++ rest ∧ isNumber bs = true ∧ 7 * bs.length < width + 7 ∧
        intValue bs = n ∧ -span (width - 1) ≤ n ∧ n < span (width - 1) := by
  rw [signed?_eq_some_word (Nat.le_of_lt hw)]
  refine exists_congr fun bs => and_congr_right fun _ => and_congr_right fun _ => and_congr_right fun hlen => ?_
  rw [intValue_bmod (by omega)]

/-! ## Writing -/

theorem bits_toUInt8 {n : Nat} (h : n < 256) : bits n.toUInt8 = n % 128 := by
  unfold bits
  rw [UInt8.toNat_ofNat', Nat.mod_eq_of_lt h]

theorem isLast_toUInt8 {n : Nat} (h : n < 256) : isLast n.toUInt8 = decide (n < 128) := by
  unfold isLast
  rw [UInt8.toNat_ofNat', Nat.mod_eq_of_lt h]

/-- The written form of an unsigned number. -/
theorem unsigned_spec (n : Nat) : isNumber (unsigned n) = true ∧ natValue (unsigned n) = n := by
  induction n using unsigned.induct with
  | case1 n h =>
    rw [unsigned, if_pos h]
    simp only [isNumber, natValue, bits_toUInt8 (show n < 256 by omega),
      isLast_toUInt8 (show n < 256 by omega)]
    exact ⟨by simp [h], by omega⟩
  | case2 n h ih =>
    obtain ⟨ih₁, ih₂⟩ := ih
    rw [unsigned, if_neg h]
    simp only [isNumber, natValue, bits_toUInt8 (show n % 128 + 128 < 256 by omega),
      isLast_toUInt8 (show n % 128 + 128 < 256 by omega), ih₁, ih₂]
    exact ⟨by simp, by omega⟩

theorem unsigned_length {k : Nat} : ∀ {n : Nat}, n < span (7 * (k + 1)) → (unsigned n).length ≤ k + 1 := by
  induction k with
  | zero =>
    intro n h
    have h1 : span (7 * (0 + 1)) = 128 := rfl
    rw [unsigned, if_pos (by omega)]
    simp
  | succ k ih =>
    intro n h
    rw [unsigned]
    split
    · simp
    · rw [List.length_cons]
      have hs : span (7 * (k + 1 + 1)) = 128 * span (7 * (k + 1)) := span_add_seven (7 * (k + 1))
      have := @ih (n / 128) (by omega)
      omega

theorem signed_spec (n : Int) : isNumber (signed n) = true ∧ intValue (signed n) = n := by
  induction n using signed.induct with
  | case1 n h =>
    rw [signed, if_pos h, intValue_singleton]
    simp only [isNumber, bits_toUInt8 (show (n % 128).toNat < 256 by omega),
      isLast_toUInt8 (show (n % 128).toNat < 256 by omega)]
    refine ⟨by simp; omega, ?_⟩
    split <;> omega
  | case2 n h ih =>
    obtain ⟨ih₁, ih₂⟩ := ih
    rw [signed, if_neg h, intValue_cons ih₁, ih₂]
    simp only [isNumber, bits_toUInt8 (show (n % 128 + 128).toNat < 256 by omega),
      isLast_toUInt8 (show (n % 128 + 128).toNat < 256 by omega), ih₁]
    exact ⟨by simp; omega, by omega⟩

theorem signed_length {k : Nat} : ∀ {n : Int}, -(64 * span (7 * k) : Nat) ≤ n → n < (64 * span (7 * k) : Nat) →
    (signed n).length ≤ k + 1 := by
  induction k with
  | zero =>
    intro n hlo hhi
    have h1 : span (7 * 0) = 1 := rfl
    rw [signed, if_pos (by omega)]
    simp
  | succ k ih =>
    intro n hlo hhi
    rw [signed]
    split
    · simp
    · rw [List.length_cons]
      have hs : span (7 * (k + 1)) = 128 * span (7 * k) := span_add_seven (7 * k)
      have := @ih (n / 128) (by omega) (by omega)
      omega

/-! ## Shortest forms -/

/-- No groups of a value that is as high are fewer than those that are written. -/
theorem unsigned_length_le {bs : Text} {n : Nat} (h : isNumber bs = true) (hn : n ≤ natValue bs) :
    (unsigned n).length ≤ bs.length := by
  obtain ⟨b, bs, rfl⟩ := List.exists_cons_of_ne_nil (isNumber_ne_nil h)
  exact unsigned_length (Nat.lt_of_le_of_lt hn (natValue_lt (b :: bs)))

theorem signed_length_le {bs : Text} (h : isNumber bs = true) :
    (signed (intValue bs)).length ≤ bs.length := by
  obtain ⟨b, bs, rfl⟩ := List.exists_cons_of_ne_nil (isNumber_ne_nil h)
  have hlt := natValue_lt (b :: bs)
  have hspan : span (7 * (b :: bs).length) = 128 * span (7 * bs.length) := span_groups b bs
  apply signed_length
  · unfold intValue; split <;> omega
  · unfold intValue; split <;> omega

/-- Two numbers take at least as many groups as their sum. -/
theorem unsigned_length_add (m n : Nat) :
    (unsigned (m + n)).length ≤ (unsigned m).length + (unsigned n).length := by
  obtain ⟨hm, hmv⟩ := unsigned_spec m
  obtain ⟨hn, hnv⟩ := unsigned_spec n
  have hmlt := natValue_lt (unsigned m)
  have hnlt := natValue_lt (unsigned n)
  have hmpos := List.length_pos_iff.2 (isNumber_ne_nil hm)
  have hnpos := List.length_pos_iff.2 (isNumber_ne_nil hn)
  rw [hmv] at hmlt
  rw [hnv] at hnlt
  generalize (unsigned m).length = j at *
  generalize (unsigned n).length = k at *
  obtain ⟨j, rfl⟩ : ∃ i, j = i + 1 := ⟨j - 1, by omega⟩
  have hsum : m + n < span (7 * (j + k + 1)) := by
    have hjk : span (7 * (j + 1)) ≤ span (7 * (j + k)) := span_le_span (by omega)
    have hkj : span (7 * k) ≤ span (7 * (j + k)) := span_le_span (by omega)
    have hs : span (7 * (j + k + 1)) = 128 * span (7 * (j + k)) := span_add_seven (7 * (j + k))
    omega
  have := unsigned_length hsum
  omega

end LetIf.Wasm.Leb128
