/-
Tokens of the text format as they are written. `Spells text fs` says that a text is cut into tokens
of the forms `fs` before anything that ends an atom; blanks spell nothing, and spelled texts follow
each other when the second ends an atom by itself.
-/
import LetIf.Proofs.Text.Decimal
import LetIf.Wat.Module

namespace LetIf.Wat

open Text

attribute [local simp] tokensFrom Wat.string

/-- Whether an atom ends before the text. -/
def stopsAtom : Text → Bool
  | [] => true
  | b :: _ => endsAtom b

/-- The texts that an atom can have. -/
def isAtom (t : Text) : Bool := !t.isEmpty && t.all (!endsAtom ·) && !startsComment t

/-- The text is cut into tokens of these forms, and then it ends. -/
def Lexes (src : Text) (fs : List Token.Form) : Prop :=
  ∀ off, ∃ ts last, tokensFrom off src = ⟨ts, .endOfInput last⟩ ∧ ts.map Token.form = fs

/-! ## One step -/

section Steps

variable {off : Nat} {rest : Text}

theorem tokensFrom_blank {b : UInt8} (hb : isSpace b = true) :
    tokensFrom off (b :: rest) = tokensFrom (off + 1) rest := by
  rw [tokensFrom, if_pos hb]

/-- A comment goes up to the end of its line, which is a blank. -/
theorem tokensFrom_comment {t : Text} (ht : (10 : UInt8) ∉ t) :
    tokensFrom off (byte ';' :: byte ';' :: (t ++ 10 :: rest)) =
      tokensFrom (off + (t.length + 3)) rest := by
  have hall : ∀ b ∈ byte ';' :: t, (b != 10) = true := by
    refine List.forall_mem_cons.2 ⟨by decide, fun b hb => bne_iff_ne.2 ?_⟩
    rintro rfl
    exact ht hb
  have htake : (byte ';' :: t ++ 10 :: rest).takeWhile (· != 10) = byte ';' :: t := by
    rw [List.takeWhile_append_of_pos hall, List.takeWhile_cons_of_neg (by decide), List.append_nil]
  have hdrop : (byte ';' :: t ++ 10 :: rest).dropWhile (· != 10) = 10 :: rest := by
    rw [List.dropWhile_append_of_pos hall, List.dropWhile_cons_of_neg (by decide)]
  rw [List.cons_append] at htake hdrop
  rw [tokensFrom, if_neg (by decide), if_pos (by rfl)]
  simp only [htake, hdrop]
  rw [tokensFrom_blank (by decide), List.length_cons]
  congr 1
  omega

theorem startsComment_cons (b : UInt8) (h : b ≠ byte ';') (rest : Text) : startsComment (b :: rest) = false := by
  cases rest with
  | nil => rfl
  | cons c rest =>
    show (b == byte ';' && c == byte ';') = false
    rw [beq_eq_false_iff_ne.2 h, Bool.false_and]

theorem tokensFrom_opening :
    tokensFrom off (byte '(' :: rest) = (tokensFrom (off + 1) rest).cons ⟨.opening, off⟩ := by
  have hs := startsComment_cons (byte '(') (by decide) rest
  rw [tokensFrom, if_neg (by decide), if_neg (by rw [hs]; decide), if_pos (by decide)]

theorem tokensFrom_closing :
    tokensFrom off (byte ')' :: rest) = (tokensFrom (off + 1) rest).cons ⟨.closing, off⟩ := by
  have hs := startsComment_cons (byte ')') (by decide) rest
  rw [tokensFrom, if_neg (by decide), if_neg (by rw [hs]; decide), if_neg (by decide),
    if_pos (by decide)]

theorem tokensFrom_quote {r : Read (Text × Nat) rest} (h : string off (off + 1) rest = .ok r) :
    tokensFrom off (byte '"' :: rest) = (tokensFrom r.result.2 r.rest).cons ⟨.string r.result.1, off⟩ := by
  have hs := startsComment_cons (byte '"') (by decide) rest
  rw [tokensFrom, if_neg (by decide), if_neg (by rw [hs]; decide), if_neg (by decide),
    if_neg (by decide), if_pos (by decide), h]

/-- Behind a mistake in a string nothing is looked at. -/
theorem tokensFrom_fault {e : ParseError} (h : string off (off + 1) rest = .error e) :
    tokensFrom off (byte '"' :: rest) = ⟨[], .fault off e⟩ := by
  have hs := startsComment_cons (byte '"') (by decide) rest
  rw [tokensFrom, if_neg (by decide), if_neg (by rw [hs]; decide), if_neg (by decide),
    if_neg (by decide), if_pos (by decide), h]

theorem startsComment_append {c : UInt8} {t rest : Text} (h : startsComment (c :: t) = false)
    (hrest : stopsAtom rest = true) : startsComment (c :: (t ++ rest)) = false := by
  match t, rest with
  | _ :: _, _ => exact h
  | [], [] => rfl
  | [], b :: rest =>
    have hb : b ≠ byte ';' := by
      rintro rfl
      cases hrest
    show (c == byte ';' && b == byte ';') = false
    rw [beq_eq_false_iff_ne.2 hb, Bool.and_false]

theorem takeWhile_atom {t rest : Text} (ht : t.all (!endsAtom ·) = true) (hrest : stopsAtom rest = true) :
    (t ++ rest).takeWhile (!endsAtom ·) = t ∧ (t ++ rest).dropWhile (!endsAtom ·) = rest := by
  have hmem : ∀ b ∈ t, (!endsAtom b) = true := List.all_eq_true.1 ht
  rw [List.takeWhile_append_of_pos hmem, List.dropWhile_append_of_pos hmem]
  cases rest with
  | nil => exact ⟨by simp, rfl⟩
  | cons b rest =>
    have hb : endsAtom b = true := hrest
    simp [hb]

/-- An atom goes as far as it can, so it ends where the rest does not go on with it. -/
theorem tokensFrom_atom {t : Text} (ht : isAtom t = true) (hrest : stopsAtom rest = true) :
    tokensFrom off (t ++ rest) = (tokensFrom (off + t.length) rest).cons ⟨.atom t, off⟩ := by
  simp only [isAtom, Bool.and_eq_true, Bool.not_eq_true'] at ht
  obtain ⟨⟨hne, hall⟩, hcomment⟩ := ht
  cases t with
  | nil => cases hne
  | cons c t =>
    rw [List.all_cons, Bool.and_eq_true, Bool.not_eq_true'] at hall
    obtain ⟨hc, hall⟩ := hall
    simp only [endsAtom, Bool.or_eq_false_iff] at hc
    obtain ⟨⟨⟨hspace, hopen⟩, hclose⟩, hquote⟩ := hc
    have hstart := startsComment_append hcomment hrest
    obtain ⟨htake, hdrop⟩ := takeWhile_atom hall hrest
    rw [List.cons_append, tokensFrom]
    simp only [hspace, hstart, hopen, hclose, hquote, htake, hdrop, Bool.false_eq_true, if_false]

end Steps

/-! ## One token -/

theorem lexes_nil : Lexes [] [] := by
  intro off
  exact ⟨[], off, by rw [tokensFrom], rfl⟩

/-- What stands behind a token does not depend on it. -/
theorem Lexes.cons {src rest : Text} {fs : List Token.Form} {f : Token.Form} (h : Lexes rest fs)
    (hsrc : ∀ off, ∃ off', tokensFrom off src = (tokensFrom off' rest).cons ⟨f, off⟩) :
    Lexes src (f :: fs) := by
  intro off
  obtain ⟨off', ho⟩ := hsrc off
  obtain ⟨ts, last, ht, rfl⟩ := h off'
  exact ⟨⟨f, off⟩ :: ts, last, by rw [ho, ht]; rfl, rfl⟩

theorem Lexes.blank {b : UInt8} {rest : Text} {fs : List Token.Form} (hb : isSpace b = true)
    (h : Lexes rest fs) : Lexes (b :: rest) fs := by
  intro off
  obtain ⟨ts, last, ht, rfl⟩ := h (off + 1)
  exact ⟨ts, last, by rw [tokensFrom_blank hb, ht], rfl⟩

theorem Lexes.opening {rest : Text} {fs : List Token.Form} (h : Lexes rest fs) :
    Lexes (byte '(' :: rest) (.opening :: fs) :=
  h.cons fun off => ⟨off + 1, tokensFrom_opening⟩

theorem Lexes.closing {rest : Text} {fs : List Token.Form} (h : Lexes rest fs) :
    Lexes (byte ')' :: rest) (.closing :: fs) :=
  h.cons fun off => ⟨off + 1, tokensFrom_closing⟩

theorem Lexes.atom {t rest : Text} {fs : List Token.Form} (ht : isAtom t = true)
    (hrest : stopsAtom rest = true) (h : Lexes rest fs) : Lexes (t ++ rest) (.atom t :: fs) :=
  h.cons fun off => ⟨off + t.length, tokensFrom_atom ht hrest⟩

/-! ## Strings -/

section StringSteps

variable {start off : Nat} {src : Text} {a b : UInt8}

theorem string_quote : string start off (byte '"' :: src) = .ok ⟨([], off + 1), src, Read.tail_lt⟩ := by
  unfold string
  rfl

theorem string_plain (hq : b ≠ byte '"') (hb : b ≠ byte '\\') :
    string start off (b :: src) = (string start (off + 1) src).map fun r =>
      ⟨(b :: r.result.1, r.result.2), r.rest, Nat.lt_succ_of_lt r.shorter⟩ := by
  conv => lhs; unfold string
  rw [if_neg (by simpa using hq), if_neg (by simpa using hb)]

theorem string_escape {x y : Nat} (hx : hexValue? a = some x) (hy : hexValue? b = some y) :
    string start off (byte '\\' :: a :: b :: src) = (string start (off + 3) src).map fun r =>
      ⟨((x * 16 + y).toUInt8 :: r.result.1, r.result.2), r.rest,
        Nat.lt_succ_of_lt (Nat.lt_succ_of_lt (Nat.lt_succ_of_lt r.shorter))⟩ := by
  rw [string, if_neg (by decide), if_pos (by decide)]
  simp only [hx, hy]

theorem string_invalid (h : hexValue? a = none ∨ hexValue? b = none) :
    string start off (byte '\\' :: a :: b :: src) = .error ⟨.invalidEscape a b, off + 1⟩ := by
  rw [string, if_neg (by decide), if_pos (by decide)]
  obtain h | h := h
  · simp only [h]
  · cases hexValue? a <;> simp only [h]

end StringSteps

/-- From behind an opening quote, `src` is read as the bytes `t`, and `rest` is left. -/
def ReadsString (src t rest : Text) : Prop :=
  ∀ start off, ∃ off' h, string start off src = .ok ⟨(t, off'), rest, h⟩

theorem readsString_quote (rest : Text) : ReadsString (byte '"' :: rest) [] rest := by
  intro start off
  exact ⟨off + 1, Read.tail_lt, string_quote⟩

theorem ReadsString.plain {src t rest : Text} (h : ReadsString src t rest) {b : UInt8}
    (hq : b ≠ byte '"') (hb : b ≠ byte '\\') : ReadsString (b :: src) (b :: t) rest := by
  intro start off
  obtain ⟨off', hlt, hs⟩ := h start (off + 1)
  exact ⟨off', Nat.lt_succ_of_lt hlt, by rw [string_plain hq hb, hs]; rfl⟩

theorem ReadsString.escape {src t rest : Text} (h : ReadsString src t rest) {a b : UInt8} {x y : Nat}
    (hx : hexValue? a = some x) (hy : hexValue? b = some y) :
    ReadsString (byte '\\' :: a :: b :: src) ((x * 16 + y).toUInt8 :: t) rest := by
  intro start off
  obtain ⟨off', hlt, hs⟩ := h start (off + 3)
  exact ⟨off', Nat.lt_succ_of_lt (Nat.lt_succ_of_lt (Nat.lt_succ_of_lt hlt)), by
    rw [string_escape hx hy, hs]; rfl⟩

theorem ReadsString.escapeByte {src t rest : Text} (h : ReadsString src t rest) (b : UInt8) :
    ReadsString (Wat.escapeByte b ++ src) (b :: t) rest := by
  unfold Wat.escapeByte
  split
  · have hlt : b.toNat < 256 := b.toNat_lt
    have hb := h.escape (hexValue?_digitByte (b.toNat / 16) (by omega))
      (hexValue?_digitByte (b.toNat % 16) (by omega))
    rwa [show (b.toNat / 16 * 16 + b.toNat % 16).toUInt8 = b by
      rw [Nat.div_add_mod', Nat.toUInt8_eq, UInt8.ofNat_toNat]] at hb
  · rename_i hb
    simp only [Bool.or_eq_true, beq_iff_eq, not_or] at hb
    exact h.plain hb.1.2 hb.2

/-- What is written between quotes reads back, whatever its bytes. -/
theorem readsString_escaped (rest : Text) :
    ∀ t : Text, ReadsString (t.flatMap escapeByte ++ byte '"' :: rest) t rest
  | [] => readsString_quote rest
  | b :: t => by
    rw [List.flatMap_cons, List.append_assoc]
    exact (readsString_escaped rest t).escapeByte b

theorem Lexes.string {rest : Text} {fs : List Token.Form} (t : Text) (h : Lexes rest fs) :
    Lexes (quotedBytes t ++ rest) (.string t :: fs) := by
  refine h.cons fun off => ?_
  obtain ⟨off', hlt, hs⟩ := readsString_escaped rest t off (off + 1)
  refine ⟨off', ?_⟩
  have hsrc : quotedBytes t ++ rest = byte '"' :: (t.flatMap escapeByte ++ byte '"' :: rest) := by
    simp only [quotedBytes, List.cons_append, List.append_assoc, List.nil_append]
  rw [hsrc, tokensFrom_quote hs]

/-! ## Spelled texts -/

/-- The text is cut into tokens of these forms before anything that ends an atom. -/
def Spells (text : Text) (fs : List Token.Form) : Prop :=
  ∀ (rest : Text) (later : List Token.Form), stopsAtom rest = true → Lexes rest later →
    Lexes (text ++ rest) (fs ++ later)

theorem Spells.lexes {text : Text} {fs : List Token.Form} (h : Spells text fs) : Lexes text fs := by
  have := h [] [] rfl lexes_nil
  rwa [List.append_nil, List.append_nil] at this

theorem spells_nil : Spells [] [] := fun _ _ _ h => h

theorem spells_atom {t : Text} (ht : isAtom t = true) : Spells t [.atom t] :=
  fun _ _ hrest h => h.atom ht hrest

theorem spells_string (t : Text) : Spells (quotedBytes t) [.string t] := fun _ _ _ h => h.string t

theorem stopsAtom_append {text rest : Text} (ht : stopsAtom text = true) (hr : stopsAtom rest = true) :
    stopsAtom (text ++ rest) = true := by
  cases text with
  | nil => exact hr
  | cons b t => exact ht

theorem Spells.append {a b : Text} {fs gs : List Token.Form} (ha : Spells a fs) (hb : Spells b gs)
    (hstop : stopsAtom b = true) : Spells (a ++ b) (fs ++ gs) := by
  intro rest later hrest h
  rw [List.append_assoc, List.append_assoc]
  exact ha _ _ (stopsAtom_append hstop hrest) (hb rest later hrest h)

theorem Spells.blank {b : UInt8} (hb : isSpace b = true) {t : Text} {fs : List Token.Form}
    (h : Spells t fs) : Spells (b :: t) fs :=
  fun rest later hrest hl => (h rest later hrest hl).blank hb

/-- A head and what it is applied to, between parentheses. -/
def bracketed (head body : Text) : Text := byte '(' :: (head ++ (body ++ [byte ')']))

theorem Spells.inBrackets {head body : Text} {fs : List Token.Form} (hh : isAtom head = true)
    (hb : Spells body fs) (hstop : stopsAtom body = true) :
    Spells (bracketed head body) (.opening :: .atom head :: fs ++ [.closing]) := by
  intro rest later _ h
  have hbody := hb _ _ rfl h.closing
  have hhead := (hbody.atom hh (stopsAtom_append hstop rfl)).opening
  simpa only [bracketed, List.append_assoc, List.cons_append, List.nil_append] using hhead

end LetIf.Wat
