/-
UTF-8 validity. A character is read off the front of a text exactly when its encoding stands there,
so the texts without stray bytes are exactly the encodings of sequences of characters.
-/
import LetIf.Text.Basic
import LetIf.Text.Utf8

namespace LetIf.Text

/-! ## Continuation bytes -/

/-- The last `more` bytes of the encoding of the scalar value `v`, six bits each. -/
def continuation (v : Nat) : (more : Nat) → Text
  | 0 => []
  | more + 1 => UInt8.ofNat (v / Bits.span (6 * more) % 64 + 128) :: continuation v more

theorem toNat_ofNat {n : Nat} (h : n.isValidChar) : (Char.ofNat n).toNat = n := by
  unfold Char.ofNat
  rw [dif_pos h]
  rfl

theorem eq_ofNat_iff {b : UInt8} {n : Nat} (h : n < 256) : b = UInt8.ofNat n ↔ b.toNat = n := by
  rw [← UInt8.toNat_inj, UInt8.toNat_ofNat', Nat.mod_eq_of_lt h]

/-- Continuation bytes are read onto the leading bits `n` when they are the low bits of a character
whose high bits are `n`. -/
theorem charWith?_eq_some {least : Nat} {c : Char} {rest : Text} : ∀ {more n : Nat} {t : Text},
    charWith? least more n t = some (c, rest) ↔
      least ≤ c.toNat ∧ c.toNat / Bits.span (6 * more) = n ∧ t = continuation c.toNat more ++ rest
  | 0, n, t => by
    have h1 : Bits.span (6 * 0) = 1 := rfl
    rw [charWith?, h1, Nat.div_one]
    constructor
    · intro h
      split at h
      · rename_i hn
        cases h
        rw [toNat_ofNat hn.2]
        exact ⟨hn.1, rfl, rfl⟩
      · cases h
    · rintro ⟨hl, rfl, rfl⟩
      rw [if_pos ⟨hl, c.valid⟩, Char.ofNat_toNat]
  | more + 1, n, [] => by simp [charWith?, continuation]
  | more + 1, n, b :: t => by
    have hs : c.toNat / Bits.span (6 * (more + 1)) = c.toNat / Bits.span (6 * more) / 64 := by
      rw [Nat.div_div_eq_div_mul]
      exact congrArg _ (Bits.span_add (6 * more) 6)
    rw [charWith?, continuation, List.cons_append, List.cons.injEq, eq_ofNat_iff (by omega), hs]
    generalize hq : c.toNat / Bits.span (6 * more) = q
    constructor
    · intro h
      split at h
      · rename_i hb
        obtain ⟨hl, hd, ht⟩ := charWith?_eq_some.1 h
        have hb' : b.toNat < 256 := b.toNat_lt
        exact ⟨hl, by omega, by omega, ht⟩
      · cases h
    · rintro ⟨hl, hd, hb, ht⟩
      rw [if_pos (by omega)]
      exact charWith?_eq_some.2 ⟨hl, by omega, ht⟩

/-! ## One character -/

theorem span_one : Bits.span (6 * 1) = 0x40 := rfl

theorem span_two : Bits.span (6 * 2) = 0x1000 := rfl

theorem span_three : Bits.span (6 * 3) = 0x40000 := rfl

theorem toNat_lt (c : Char) : c.toNat < 0x110000 := by
  have h : c.toNat.isValidChar := c.valid
  rcases h with h | h <;> omega

/-- The encoding of a character: a leading byte by its size, then continuation bytes. -/
theorem utf8EncodeChar_eq (c : Char) : String.utf8EncodeChar c =
    if c.toNat < 0x80 then [UInt8.ofNat c.toNat]
    else if c.toNat < 0x800 then UInt8.ofNat (c.toNat / 0x40 + 0xc0) :: continuation c.toNat 1
    else if c.toNat < 0x10000 then UInt8.ofNat (c.toNat / 0x1000 + 0xe0) :: continuation c.toNat 2
    else UInt8.ofNat (c.toNat / 0x40000 + 0xf0) :: continuation c.toNat 3 := by
  have h0 : Bits.span (6 * 0) = 1 := rfl
  have hv := toNat_lt c
  unfold String.utf8EncodeChar
  simp only [continuation, h0, span_one, span_two, Nat.div_one, Char.toNat] at hv ⊢
  generalize c.val.toNat = v at hv
  by_cases ha : v < 0x80
  · rw [if_pos ha, if_pos (Nat.le_of_lt_succ ha)]
  rw [if_neg ha, if_neg (by omega)]
  by_cases hb : v < 0x800
  · rw [if_pos hb, if_pos (Nat.le_of_lt_succ hb), Nat.mod_eq_of_lt (by omega)]
  rw [if_neg hb, if_neg (by omega)]
  by_cases hc : v < 0x10000
  · rw [if_pos hc, if_pos (Nat.le_of_lt_succ hc), Nat.mod_eq_of_lt (by omega : v / 4096 < 16)]
  · rw [if_neg hc, if_neg (by omega), Nat.mod_eq_of_lt (by omega : v / 262144 < 8)]

theorem char?_encode (c : Char) (rest : Text) :
    char? (String.utf8EncodeChar c ++ rest) = some (c, rest) := by
  have hv := toNat_lt c
  have hlead {n : Nat} (h : n < 256) : (UInt8.ofNat n).toNat = n := by
    rw [UInt8.toNat_ofNat', Nat.mod_eq_of_lt h]
  rw [utf8EncodeChar_eq]
  split
  · rename_i h
    simp only [List.cons_append, List.nil_append, char?, hlead (by omega : c.toNat < 256)]
    rw [if_pos h, Char.ofNat_toNat]
  split
  · simp only [List.cons_append, char?, hlead (by omega : c.toNat / 0x40 + 0xc0 < 256)]
    rw [if_neg (by omega), if_pos (by omega)]
    exact charWith?_eq_some.2 ⟨by omega, by rw [span_one]; omega, rfl⟩
  split
  · simp only [List.cons_append, char?, hlead (by omega : c.toNat / 0x1000 + 0xe0 < 256)]
    rw [if_neg (by omega), if_neg (by omega), if_pos (by omega)]
    exact charWith?_eq_some.2 ⟨by omega, by rw [span_two]; omega, rfl⟩
  · simp only [List.cons_append, char?, hlead (by omega : c.toNat / 0x40000 + 0xf0 < 256)]
    rw [if_neg (by omega), if_neg (by omega), if_neg (by omega), if_pos (by omega)]
    exact charWith?_eq_some.2 ⟨by omega, by rw [span_three]; omega, rfl⟩

theorem eq_encode_of_char? {c : Char} {t rest : Text} (h : char? t = some (c, rest)) :
    t = String.utf8EncodeChar c ++ rest := by
  rw [utf8EncodeChar_eq]
  unfold char? at h
  split at h
  · cases h
  rename_i b t
  have hb : b.toNat < 256 := b.toNat_lt
  dsimp only at h
  split at h
  · cases h
    rename_i hn
    rw [toNat_ofNat (.inl (by omega)), if_pos hn, UInt8.ofNat_toNat, List.singleton_append]
  -- a leading byte and what `charWith?` tells of the character fix the size
  split at h
  · obtain ⟨hl, hd, ht⟩ := charWith?_eq_some.1 h
    rw [span_one] at hd
    rw [if_neg (by omega), if_pos (by omega), ht, List.cons_append, List.cons.injEq,
      eq_ofNat_iff (by omega)]
    exact ⟨by omega, rfl⟩
  split at h
  · obtain ⟨hl, hd, ht⟩ := charWith?_eq_some.1 h
    rw [span_two] at hd
    rw [if_neg (by omega), if_neg (by omega), if_pos (by omega), ht, List.cons_append,
      List.cons.injEq, eq_ofNat_iff (by omega)]
    exact ⟨by omega, rfl⟩
  split at h
  · obtain ⟨hl, hd, ht⟩ := charWith?_eq_some.1 h
    rw [span_three] at hd
    rw [if_neg (by omega), if_neg (by omega), if_neg (by omega), ht, List.cons_append,
      List.cons.injEq, eq_ofNat_iff (by omega)]
    exact ⟨by omega, rfl⟩
  · cases h

/-! ## Texts -/

theorem isUtf8_of_char? {c : Char} {t rest : Text} (h : char? t = some (c, rest)) :
    isUtf8 t = isUtf8 rest := by
  rw [isUtf8]
  split
  · rename_i h'
    rw [h] at h'
    cases h'
    rfl
  · rename_i h'
    rw [h] at h'
    cases h'

theorem isUtf8_of_none {t : Text} (h : char? t = none) : isUtf8 t = t.isEmpty := by
  rw [isUtf8]
  split
  · rename_i h'
    rw [h] at h'
    cases h'
  · rfl

/-- Valid text is the encoding of some sequence of characters. -/
theorem isUtf8_iff {t : Text} : isUtf8 t = true ↔ ∃ cs, t = ofChars cs := by
  constructor
  · intro h
    induction t using isUtf8.induct with
    | case1 t c rest hc ih =>
      rw [isUtf8_of_char? hc] at h
      obtain ⟨cs, rfl⟩ := ih h
      exact ⟨c :: cs, eq_encode_of_char? hc⟩
    | case2 t hn =>
      rw [isUtf8_of_none hn, List.isEmpty_iff] at h
      exact ⟨[], h⟩
  · rintro ⟨cs, rfl⟩
    induction cs with
    | nil => exact isUtf8_of_none rfl
    | cons c cs ih =>
      rw [← ih]
      exact isUtf8_of_char? (char?_encode c _)

theorem pieces_of_char? {c : Char} {t rest : Text} (h : char? t = some (c, rest)) :
    pieces t = .char c :: pieces rest := by
  rw [pieces]
  split
  · rename_i h'
    rw [h] at h'
    cases h'
    rfl
  · rename_i h'
    rw [h] at h'
    cases h'

theorem pieces_ofChars : ∀ cs : List Char, pieces (ofChars cs) = cs.map .char
  | [] => by rw [pieces]; rfl
  | c :: cs => by
    rw [List.map_cons, ← pieces_ofChars cs]
    exact pieces_of_char? (char?_encode c (ofChars cs))

/-- A string stands for the encoding of its characters. -/
theorem ofString_eq_ofChars (s : String) : ofString s = ofChars s.toList := by
  have h := congrArg String.toByteArray (String.ofList_toList (s := s))
  rw [String.toByteArray_ofList] at h
  show s.toByteArray.data.toList = _
  rw [← h, List.utf8Encode, List.data_toByteArray]
  rfl

end LetIf.Text
