/-
Strings that are written read back. What is written for a character leads the reader over parts that
are put together to the encoding of the character: its bytes, the byte of a short escape, or one unit,
which is never half of a surrogate pair and so never joins with what follows. So a text that is UTF-8
comes back as it was, and nothing in it is replaced.
-/
import LetIf.Json.Doc
import LetIf.Proofs.Text.Decimal
import LetIf.Proofs.Text.Utf8

namespace LetIf.Json

open Text

/-! ## Steps of the reader -/

/-- The text takes the reader from one state to another, wherever it stands. -/
def Leads (s : State) (t : Text) (s' : State) : Prop :=
  ∀ off rest, ∃ off', run off s (t ++ rest) = run off' s' rest

namespace Leads

variable {s s' s'' : State} {t t' : Text} {b : UInt8}

theorem nil (s : State) : Leads s [] s := fun off _ => ⟨off, rfl⟩

theorem append (h : Leads s t s') (h' : Leads s' t' s'') : Leads s (t ++ t') s'' := by
  intro off rest
  obtain ⟨off₁, h₁⟩ := h off (t' ++ rest)
  obtain ⟨off₂, h₂⟩ := h' off₁ rest
  exact ⟨off₂, by rw [List.append_assoc, h₁, h₂]⟩

theorem cons (h : ∀ off, step off s b = .more s') (h' : Leads s' t s'') : Leads s (b :: t) s'' := by
  intro off rest
  obtain ⟨off', ho⟩ := h' (off + 1) rest
  exact ⟨off', by rw [List.cons_append, run, h, ← ho]⟩

end Leads

theorem step_string (off : Nat) (isKey : Bool) (parts : List Part) (escape : Escape) (stack : List Frame)
    (b : UInt8) :
    step off ⟨.string isKey parts escape, stack⟩ b = stepString off isKey parts escape stack b := rfl

/-! ## Parts of a string -/

/-- A unit that starts no surrogate pair stands for itself. -/
theorem assemble_unit {n : Nat} (h : isHighSurrogate n = false) (more : List Part) :
    assemble (.unit n :: more) = String.utf8EncodeChar (unitChar n) ++ assemble more := by
  cases more with
  | nil => rfl
  | cons p more =>
    cases p with
    | byte b => rfl
    | unit m => rw [assemble, h]; rfl

/-- Inside a string, the text `t` is read as parts that stand for the bytes `bs`. -/
def Yields (t bs : Text) : Prop :=
  ∃ ps : List Part, (∀ more, assemble (ps ++ more) = bs ++ assemble more) ∧
    ∀ isKey parts stack,
      Leads ⟨.string isKey parts .none, stack⟩ t ⟨.string isKey (ps.reverse ++ parts) .none, stack⟩

namespace Yields

theorem nil : Yields [] [] := ⟨[], fun _ => rfl, fun _ _ _ => .nil _⟩

theorem append {t t' bs bs' : Text} (h : Yields t bs) (h' : Yields t' bs') :
    Yields (t ++ t') (bs ++ bs') := by
  obtain ⟨ps, hps, hl⟩ := h
  obtain ⟨ps', hps', hl'⟩ := h'
  refine ⟨ps ++ ps', fun more => ?_, fun isKey parts stack => ?_⟩
  · rw [List.append_assoc, hps, hps', List.append_assoc]
  · rw [List.reverse_append, List.append_assoc]
    exact (hl isKey parts stack).append (hl' isKey _ stack)

/-- A byte that stands for itself: no control byte, no quote and no backslash. -/
theorem plain {b : UInt8} (hc : 32 ≤ b.toNat) (hq : b.toNat ≠ 34) (hs : b.toNat ≠ 92) : Yields [b] [b] := by
  have hq' : b ≠ byte '"' := by rintro rfl; exact hq rfl
  have hs' : b ≠ byte '\\' := by rintro rfl; exact hs rfl
  have hc' : ¬ b < 32 := by rw [UInt8.lt_iff_toNat_lt]; exact Nat.not_lt.2 hc
  refine ⟨[.byte b], fun _ => rfl, fun isKey parts stack => .cons (fun off => ?_) (.nil _)⟩
  rw [step_string, stepString, if_neg (by simpa using hq'), if_neg (by simpa using hs'), if_neg hc']
  rfl

theorem plains {bs : Text} (h : ∀ b ∈ bs, 32 ≤ b.toNat ∧ b.toNat ≠ 34 ∧ b.toNat ≠ 92) : Yields bs bs := by
  induction bs with
  | nil => exact nil
  | cons b bs ih =>
    obtain ⟨⟨hc, hq, hs⟩, hbs⟩ := List.forall_mem_cons.1 h
    exact (plain hc hq hs).append (ih hbs)

/-- An escape of one letter. -/
theorem letter {a b : UInt8} (ha : a ≠ byte 'u') (h : escaped? a = some b) : Yields [byte '\\', a] [b] := by
  refine ⟨[.byte b], fun _ => rfl, fun isKey parts stack => .cons (fun _ => rfl) (.cons (fun off => ?_) (.nil _))⟩
  rw [step_string, stepString, if_neg (by simpa using ha), h]
  rfl

theorem leads_hex (isKey : Bool) (parts : List Part) (start : Nat) (stack : List Frame) :
    ∀ (d : Nat) (ds : List Nat) (v : Nat), (∀ e ∈ d :: ds, e < 16) →
      Leads ⟨.string isKey parts (.hex start (ds.length + 1) v), stack⟩ ((d :: ds).map digitByte)
        ⟨.string isKey (.unit ((d :: ds).foldl (fun v d => 16 * v + d) v) :: parts) .none, stack⟩
  | d, [], v, h => by
    refine .cons (fun off => ?_) (.nil _)
    rw [step_string, stepString, hexValue?_digitByte d (h d List.mem_cons_self), Nat.mul_comm v 16]
    rfl
  | d, e :: ds, v, h => by
    obtain ⟨hd, hds⟩ := List.forall_mem_cons.1 h
    refine .cons (fun off => ?_) (leads_hex isKey parts start stack e ds (16 * v + d) hds)
    rw [step_string, stepString, hexValue?_digitByte d hd, Nat.mul_comm v 16]
    rfl

/-- An escape by number, of a character that no unit of a pair has. -/
theorem unit {c : Char} (h : c.toNat < 0xD800) :
    Yields (ofString "\\u" ++ hex 4 c.toNat) (String.utf8EncodeChar c) := by
  have hpow : Nat.pow 16 (3 + 1) = 65536 := rfl
  have hlt : c.toNat < Nat.pow 16 (3 + 1) := by omega
  obtain ⟨ds, hhex, hlen, hds, hval⟩ := exists_digits_hex hlt
  refine ⟨[.unit c.toNat], fun more => ?_, fun isKey parts stack off rest => ?_⟩
  · have hsurrogate : isHighSurrogate c.toNat = false := by
      rw [isHighSurrogate, Bool.and_eq_false_iff]
      exact .inl (decide_eq_false (by omega))
    have hvalid : c.toNat.isValidChar := c.valid
    rw [List.singleton_append, assemble_unit hsurrogate, unitChar, if_pos hvalid, Char.ofNat_toNat]
  · match ds, hlen with
    | d :: ds, hlen =>
      -- behind the letter the reader remembers where it stands, which the digits do not change
      have hds' := leads_hex isKey parts off stack d ds 0 hds
      rw [show ds.length = 3 from Nat.succ.inj hlen, hval, ← hhex] at hds'
      exact hds' (off + 2) rest

end Yields

/-! ## Characters -/

theorem utf8EncodeChar_of_lt {c : Char} (h : c.toNat < 0x80) :
    String.utf8EncodeChar c = [UInt8.ofNat c.toNat] := by
  rw [utf8EncodeChar_eq, if_pos h]

theorem le_of_mem_continuation {v : Nat} {b : UInt8} : ∀ {more : Nat}, b ∈ continuation v more → 0x80 ≤ b.toNat
  | more + 1, h => by
    obtain rfl | h := List.mem_cons.1 h
    · rw [UInt8.toNat_ofNat', Nat.mod_eq_of_lt (by omega)]
      omega
    · exact le_of_mem_continuation h

/-- The bytes of a character beyond ASCII are beyond ASCII. -/
theorem le_of_mem_utf8EncodeChar {c : Char} (h : 0x80 ≤ c.toNat) {b : UInt8}
    (hb : b ∈ String.utf8EncodeChar c) : 0x80 ≤ b.toNat := by
  have hc := toNat_lt c
  have hlead : ∀ n, n < 256 → 0x80 ≤ n → 0x80 ≤ (UInt8.ofNat n).toNat := by
    intro n hn hle
    rwa [UInt8.toNat_ofNat', Nat.mod_eq_of_lt hn]
  rw [utf8EncodeChar_eq, if_neg (by omega)] at hb
  split at hb
  · obtain rfl | hb := List.mem_cons.1 hb
    · exact hlead _ (by omega) (by omega)
    · exact le_of_mem_continuation hb
  split at hb
  · obtain rfl | hb := List.mem_cons.1 hb
    · exact hlead _ (by omega) (by omega)
    · exact le_of_mem_continuation hb
  · obtain rfl | hb := List.mem_cons.1 hb
    · exact hlead _ (by omega) (by omega)
    · exact le_of_mem_continuation hb

/-- A character that is written as it is. -/
theorem yields_plain {c : Char} (hc : 32 ≤ c.toNat) (hq : c.toNat ≠ 34) (hs : c.toNat ≠ 92) :
    Yields (String.utf8EncodeChar c) (String.utf8EncodeChar c) := by
  apply Yields.plains
  intro b hb
  by_cases h : c.toNat < 0x80
  · rw [utf8EncodeChar_of_lt h, List.mem_singleton, eq_ofNat_iff (by omega)] at hb
    rw [hb]
    exact ⟨hc, hq, hs⟩
  · have := le_of_mem_utf8EncodeChar (by omega) hb
    omega

/-- A character that has a letter. -/
theorem yields_letter {c : Char} {a b : UInt8} (hc : c.toNat = b.toNat) (hb : b.toNat < 0x80)
    (ha : a ≠ byte 'u') (h : escaped? a = some b) : Yields [byte '\\', a] (String.utf8EncodeChar c) := by
  rw [utf8EncodeChar_of_lt (by omega), hc, UInt8.ofNat_toNat]
  exact .letter ha h

theorem yields_escapeChar (c : Char) : Yields (escapeChar c) (String.utf8EncodeChar c) := by
  have hchar : ∀ d : Char, c.toNat = d.toNat → c = d := by
    intro d hd
    rw [← Char.ofNat_toNat c, hd, Char.ofNat_toNat]
  unfold escapeChar
  simp only
  split
  · rename_i h
    obtain rfl | rfl := h
    · exact yields_letter (b := 34) (by decide) (by decide) (by decide) (by decide)
    · exact yields_letter (b := 92) (by decide) (by decide) (by decide) (by decide)
  rename_i hquote
  split
  · exact yields_letter (b := 8) ‹_› (by decide) (by decide) (by decide)
  split
  · exact yields_letter (b := 9) ‹_› (by decide) (by decide) (by decide)
  split
  · exact yields_letter (b := 10) ‹_› (by decide) (by decide) (by decide)
  split
  · exact yields_letter (b := 12) ‹_› (by decide) (by decide) (by decide)
  split
  · exact yields_letter (b := 13) ‹_› (by decide) (by decide) (by decide)
  split
  · rename_i h
    apply Yields.unit
    obtain h | rfl | rfl | rfl | h | h := h
    all_goals first | omega | decide
  · rename_i h
    refine yields_plain (by omega) (fun hc => hquote (.inl (hchar '"' hc))) fun hc => hquote (.inr (hchar '\\' hc))

/-! ## Strings -/

theorem yields_chars (cs : List Char) : Yields (cs.flatMap escapeChar) (ofChars cs) := by
  induction cs with
  | nil => exact .nil
  | cons c cs ih => exact (yields_escapeChar c).append ih

theorem sanitize_ofChars (cs : List Char) : sanitize (ofChars cs) = ofChars cs := by
  rw [sanitize, pieces_ofChars, List.map_map]
  exact congrArg ofChars (List.map_id cs)

/-- Characters between quotes. -/
def quote (cs : List Char) : Text := byte '"' :: cs.flatMap escapeChar ++ [byte '"']

/-- From behind the opening quote, a written string is read up to the closing one, and its text comes
back. -/
theorem exists_run_string (cs : List Char) (isKey : Bool) (stack : List Frame) (off : Nat) (rest : Text) :
    ∃ off' parts, sanitize (assemble parts.reverse) = ofChars cs ∧
      run off ⟨.string isKey [] .none, stack⟩ (cs.flatMap escapeChar ++ rest) =
        run off' ⟨.string isKey parts .none, stack⟩ rest := by
  obtain ⟨ps, hps, hl⟩ := yields_chars cs
  obtain ⟨off', h⟩ := hl isKey [] stack off rest
  refine ⟨off', ps.reverse ++ [], ?_, h⟩
  have := hps []
  rw [List.append_nil, assemble, List.append_nil] at this
  rw [List.append_nil, List.reverse_reverse, this, sanitize_ofChars]

end LetIf.Json
