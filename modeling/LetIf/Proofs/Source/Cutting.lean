/-
The cutting of a source, byte for byte. `Cuts read src ts` says what stands in `src`, behind the bytes
`read`, when `ts` is cut from it: blanks, tokens with the positions of their first bytes, and at last the
end of the source or the byte at which cutting fails. The position of a byte is told by the bytes before
it: its line by their line feeds, its column by those since the last of these. So the positions of tokens
increase, and the tokens before any one of them are cut from the text before it.
-/
import LetIf.Proofs.Source.Lexing

namespace LetIf

/-! ## Positions of bytes -/

namespace Position

/-- The position of the byte behind the bytes `read`, which begin a source. -/
def behind (read : Text) : Position :=
  ⟨1 + read.count 10, 1 + (read.reverse.takeWhile (· != 10)).length⟩

/-- Earlier in the order of reading. -/
instance : LT Position := ⟨fun p q => p.line < q.line ∨ p.line = q.line ∧ p.column < q.column⟩

instance : LE Position := ⟨fun p q => p.line < q.line ∨ p.line = q.line ∧ p.column ≤ q.column⟩

variable {p q r : Position}

theorem lt_iff : p < q ↔ p.line < q.line ∨ p.line = q.line ∧ p.column < q.column := Iff.rfl

theorem le_iff : p ≤ q ↔ p.line < q.line ∨ p.line = q.line ∧ p.column ≤ q.column := Iff.rfl

theorem le_refl (p : Position) : p ≤ p := .inr ⟨rfl, Nat.le_refl _⟩

theorem lt_of_lt_of_le (h : p < q) (h' : q ≤ r) : p < r := by
  rw [lt_iff] at *
  rw [le_iff] at h'
  omega

theorem le_of_lt_of_le (h : p < q) (h' : q ≤ r) : p ≤ r := by
  rw [lt_iff] at h
  rw [le_iff] at *
  omega

theorem lt_after (p : Position) (b : UInt8) : p < p.after b := by
  unfold after
  split
  · exact .inl (Nat.lt_succ_self _)
  · exact .inr ⟨rfl, Nat.lt_succ_self _⟩

theorem behind_concat (read : Text) (b : UInt8) : behind (read ++ [b]) = (behind read).after b := by
  unfold behind after
  rw [List.count_append, List.reverse_append, List.reverse_singleton, List.singleton_append,
    List.takeWhile_cons, List.count_singleton]
  by_cases hb : b = 10
  · subst hb; rfl
  · simp [hb]; omega

/-- Bytes without a line feed leave the line as it is. -/
theorem behind_append {run : Text} (hrun : ∀ b ∈ run, b ≠ 10) (read : Text) :
    behind (read ++ run) = (behind read).along run.length := by
  unfold behind along
  have hcount : run.count 10 = 0 := List.count_eq_zero.2 fun h => hrun 10 h rfl
  have hall : ∀ b ∈ run.reverse, (b != 10) = true := fun b hb => bne_iff_ne.2 (hrun b (List.mem_reverse.1 hb))
  rw [List.count_append, hcount, List.reverse_append, List.takeWhile_append_of_pos hall, List.length_append,
    List.length_reverse]
  simp; omega

theorem behind_lt_append {run : Text} (hrun : ∀ b ∈ run, b ≠ 10) (hne : run ≠ []) (read : Text) :
    behind read < behind (read ++ run) := by
  rw [behind_append hrun]
  exact .inr ⟨rfl, Nat.lt_add_of_pos_right (List.length_pos_iff.2 hne)⟩

end Position

namespace Source

open Text

/-! ## Lexemes -/

/-- The lexemes that a source can be cut into. -/
inductive Lexeme.Valid : Lexeme → Prop
  | sign {s : Lexeme} (hs : s ∈ signs) : Valid s
  | integer {digits : Text} (hd : isNumeral digits = true) : Valid ⟨.integer, digits⟩
  | word {w : Text} (hw : isWord w = true) : Valid ⟨.word, w⟩

theorem ne_feed_of_isWordByte {b : UInt8} (h : isWordByte b = true) : b ≠ 10 := by
  rintro rfl
  exact absurd h (by decide)

theorem ne_feed_of_isNumeral {digits : Text} (h : isNumeral digits = true) : ∀ b ∈ digits, b ≠ 10 := by
  rw [isNumeral, Bool.and_eq_true] at h
  exact fun b hb => ne_feed_of_isWordByte (isWordByte_of_isDigit (List.all_eq_true.1 h.2 b hb))

theorem Lexeme.Valid.text_ne_nil {l : Lexeme} (h : l.Valid) : l.text ≠ [] := by
  cases h with
  | sign hs =>
    obtain ⟨b, hb, -⟩ := sign_of_mem hs
    rw [hb]
    exact List.cons_ne_nil _ _
  | integer hd => rintro rfl; cases hd
  | word hw => rintro rfl; cases hw

/-- A lexeme stands on one line. -/
theorem Lexeme.Valid.ne_feed {l : Lexeme} (h : l.Valid) : ∀ b ∈ l.text, b ≠ 10 := by
  cases h with
  | sign hs =>
    obtain ⟨b, hb, -, hspace, -⟩ := sign_of_mem hs
    rw [hb]
    refine List.forall_mem_singleton.2 ?_
    rintro rfl
    exact absurd hspace (by decide)
  | integer hd => exact ne_feed_of_isNumeral hd
  | @word w hw =>
    cases w with
    | nil => cases hw
    | cons b run =>
      obtain ⟨hb, hrun⟩ := Bool.and_eq_true_iff.1 hw
      exact List.forall_mem_cons.2 ⟨ne_feed_of_isWordByte (isWordByte_of_isLetter hb),
        fun a ha => ne_feed_of_isWordByte (List.all_eq_true.1 hrun a ha)⟩

/-! ## Cutting -/

/-- Behind the bytes `read`, the text is cut into these tokens. -/
inductive Cuts : Text → Text → Tokens → Prop
  | nil (read : Text) : Cuts read [] ⟨[], .endOfInput (.behind read)⟩
  | blank {read rest : Text} {b : UInt8} {ts : Tokens} (hb : b ∈ [32, 9, 13, 10])
      (h : Cuts (read ++ [b]) rest ts) : Cuts read (b :: rest) ts
  | token {read rest : Text} {l : Lexeme} {ts : Tokens} (hl : l.Valid)
      (hend : l ∈ signs ∨ startsInWord rest = false) (h : Cuts (read ++ l.text) rest ts) :
      Cuts read (l.text ++ rest) (ts.cons ⟨l.kind, l.text, .behind read⟩)
  | badByte {read rest : Text} {b : UInt8} (hspace : isSpace b = false) (hsign : sign? b = none)
      (hword : isLetter b = false ∧ isDigit b = false) :
      Cuts read (b :: rest) ⟨[], .fault ⟨.unexpectedByte b, .behind read⟩⟩
  | badInteger {read digits rest : Text} (hd : isNumeral digits = true) (hend : startsInWord rest = true) :
      Cuts read (digits ++ rest) ⟨[], .fault ⟨.letterInInteger, .behind (read ++ digits)⟩⟩

/-- One step of cutting behind the bytes `read`: a blank or a token is taken and the tokens behind it follow,
or there is the end of the source, a byte with which no token starts, or a letter or an underscore right behind
the digits of an integer. -/
inductive Step (read : Text) : Text → Tokens → Prop
  | endOfInput : Step read [] ⟨[], .endOfInput (.behind read)⟩
  | blank {b : UInt8} {rest : Text} (hb : b ∈ [32, 9, 13, 10]) :
      Step read (b :: rest) (tokensFrom (.behind (read ++ [b])) rest)
  | token {l : Lexeme} {rest : Text} (hl : l.Valid) (hend : l ∈ signs ∨ startsInWord rest = false) :
      Step read (l.text ++ rest) ((tokensFrom (.behind (read ++ l.text)) rest).cons ⟨l.kind, l.text, .behind read⟩)
  | badByte {b : UInt8} {rest : Text} (hspace : isSpace b = false) (hsign : sign? b = none)
      (hword : isLetter b = false ∧ isDigit b = false) :
      Step read (b :: rest) ⟨[], .fault ⟨.unexpectedByte b, .behind read⟩⟩
  | badInteger {digits rest : Text} {b : UInt8} (hd : isNumeral digits = true)
      (hb : isWordByte b = true ∧ isDigit b = false) :
      Step read (digits ++ b :: rest) ⟨[], .fault ⟨.letterInInteger, .behind (read ++ digits)⟩⟩

/-- Cutting takes such a step, wherever it stands. -/
theorem step_tokensFrom (read src : Text) : Step read src (tokensFrom (.behind read) src) := by
  have hsrc (b : UInt8) (rest : Text) (p : UInt8 → Bool) :
      b :: rest = (b :: rest.takeWhile p) ++ rest.dropWhile p :=
    congrArg (b :: ·) List.takeWhile_append_dropWhile.symm
  generalize hpos : Position.behind read = pos
  fun_cases tokensFrom pos src with
  | case1 => rw [← hpos]; exact .endOfInput
  | case2 b rest hspace =>
    rw [← hpos, ← Position.behind_concat]
    exact .blank (isSpace_iff.1 hspace)
  | case3 b rest hspace kind hsign =>
    have hs := sign?_eq_some.1 hsign
    have hread : pos.along 1 = Position.behind (read ++ [b]) := by
      rw [Position.behind_append (Lexeme.Valid.sign hs).ne_feed, hpos]; rfl
    rw [hread, ← hpos]
    exact .token (l := ⟨kind, [b]⟩) (.sign hs) (.inl hs)
  | case4 b rest hspace hsign hb digits later next hend =>
    have hd : isNumeral digits = true := by simp [digits, isNumeral, hb]
    have hnext : next = Position.behind (read ++ digits) := by
      rw [Position.behind_append (ne_feed_of_isNumeral hd), hpos]
    obtain ⟨c, after, hlater⟩ : ∃ c after, later = c :: after :=
      List.exists_cons_of_ne_nil fun hnil => by rw [hnil] at hend; cases hend
    -- the run of digits is as long as it can be
    have hc : isDigit c = false := not_of_dropWhile hlater
    rw [hlater] at hend
    rw [show b :: rest = digits ++ later from hsrc b rest isDigit, hlater, hnext]
    exact .badInteger hd ⟨hend, hc⟩
  | case5 b rest hspace hsign hb digits later next hend =>
    have hd : isNumeral digits = true := by simp [digits, isNumeral, hb]
    have hnext : next = Position.behind (read ++ digits) := by
      rw [Position.behind_append (ne_feed_of_isNumeral hd), hpos]
    rw [show b :: rest = digits ++ later from hsrc b rest isDigit, hnext, ← hpos]
    exact .token (l := ⟨.integer, digits⟩) (.integer hd) (.inr (Bool.eq_false_iff.2 hend))
  | case6 b rest hspace hsign hb hletter w later =>
    have hw : isWord w = true := by simp [w, isWord_cons, hletter]
    have hnext : pos.along w.length = Position.behind (read ++ w) := by
      rw [Position.behind_append (Lexeme.Valid.word hw).ne_feed, hpos]
    rw [show b :: rest = w ++ later from hsrc b rest isWordByte, hnext, ← hpos]
    exact .token (l := ⟨.word, w⟩) (.word hw) (.inr (startsInWord_dropWhile rest))
  | case7 b rest hspace hsign hb hletter =>
    rw [← hpos]
    exact .badByte (Bool.eq_false_iff.2 hspace) hsign ⟨Bool.eq_false_iff.2 hletter, Bool.eq_false_iff.2 hb⟩

theorem cuts_tokensFrom (read src : Text) : Cuts read src (tokensFrom (.behind read) src) := by
  induction hn : src.length using Nat.strongRecOn generalizing read src with
  | ind n ih =>
    have hstep := step_tokensFrom read src
    generalize tokensFrom (.behind read) src = ts at hstep
    cases hstep with
    | endOfInput => exact .nil read
    | @blank b rest hb =>
      exact .blank hb (ih rest.length (by rw [← hn, List.length_cons]; omega) _ _ rfl)
    | @token l rest hl hend =>
      have hpos := List.length_pos_iff.2 hl.text_ne_nil
      exact .token hl hend (ih rest.length (by rw [← hn, List.length_append]; omega) _ _ rfl)
    | badByte hspace hsign hword => exact .badByte hspace hsign hword
    | badInteger hd hb => exact .badInteger hd hb.1

theorem cuts_tokens (src : Text) : Cuts [] src (tokens src) := cuts_tokensFrom [] src

/-! ## Tokens of a source -/

/-- A text, which stands behind the bytes `read`, starts with the first of these tokens, or with what ends
their cutting. -/
inductive Stands (read : Text) : Text → Tokens → Prop
  | endOfInput : Stands read [] ⟨[], .endOfInput (.behind read)⟩
  | token {l : Lexeme} {rest : Text} {later : List Token} {ending : Ending} (hl : l.Valid)
      (hend : l ∈ signs ∨ startsInWord rest = false) :
      Stands read (l.text ++ rest) ⟨⟨l.kind, l.text, .behind read⟩ :: later, ending⟩
  | badByte {b : UInt8} {rest : Text} (hspace : isSpace b = false) (hsign : sign? b = none)
      (hword : isLetter b = false ∧ isDigit b = false) :
      Stands read (b :: rest) ⟨[], .fault ⟨.unexpectedByte b, .behind read⟩⟩
  | badInteger {digits rest : Text} (hd : isNumeral digits = true) (hend : startsInWord rest = true) :
      Stands read (digits ++ rest) ⟨[], .fault ⟨.letterInInteger, .behind (read ++ digits)⟩⟩

theorem startsInWord_of_append {before after : Text} (h : startsInWord (before ++ after) = false) :
    startsInWord before = false := by
  cases before with
  | nil => rfl
  | cons b before => exact h

/-- A lexeme stands in front of any text that does not go on with it. -/
theorem Lexeme.Valid.lexes {l : Lexeme} (hl : l.Valid) {rest : Text} {ls : List Lexeme}
    (hend : l ∈ signs ∨ startsInWord rest = false) (h : Lexes rest ls) : Lexes (l.text ++ rest) (l :: ls) := by
  obtain hs | hend := hend
  · exact .sign hs h
  · cases hl with
    | sign hs => exact .sign hs h
    | integer hd => exact .integer hd hend h
    | word hw => exact .word hw hend h

namespace Cuts

variable {read src : Text} {ts : Tokens}

/-- The first tokens are cut from a text of their own, and the next one stands right behind it. -/
theorem split (h : Cuts read src ts) {front later : List Token} (hts : ts.list = front ++ later) :
    ∃ before after, src = before ++ after ∧ Lexes before (front.map Token.lexeme) ∧
      Stands (read ++ before) after ⟨later, ts.ending⟩ := by
  induction h generalizing front with
  | nil read =>
    obtain ⟨rfl, rfl⟩ := List.append_eq_nil_iff.1 hts.symm
    exact ⟨[], [], rfl, .nil, by rw [List.append_nil]; exact .endOfInput⟩
  | @blank read rest b ts hb _ ih =>
    obtain ⟨before, after, rfl, hl, hstands⟩ := ih hts
    exact ⟨b :: before, after, rfl, .blank hb hl, by rwa [List.append_assoc] at hstands⟩
  | @token read rest l ts hl hend _ ih =>
    cases front with
    | nil =>
      cases hts
      exact ⟨[], _, rfl, .nil, by rw [List.append_nil]; exact .token hl hend⟩
    | cons t front =>
      obtain ⟨rfl, htail⟩ := List.cons.inj hts
      obtain ⟨before, after, rfl, hlexes, hstands⟩ := ih htail
      refine ⟨l.text ++ before, after, (List.append_assoc ..).symm, ?_, by rwa [List.append_assoc] at hstands⟩
      exact hl.lexes (hend.imp_right startsInWord_of_append) hlexes
  | @badByte read rest b hspace hsign hword =>
    obtain ⟨rfl, rfl⟩ := List.append_eq_nil_iff.1 hts.symm
    exact ⟨[], _, rfl, .nil, by rw [List.append_nil]; exact .badByte hspace hsign hword⟩
  | badInteger hd hend =>
    obtain ⟨rfl, rfl⟩ := List.append_eq_nil_iff.1 hts.symm
    exact ⟨[], _, rfl, .nil, by rw [List.append_nil]; exact .badInteger hd hend⟩

/-- A token has the position of its first byte. -/
theorem token_pos (h : Cuts read src ts) {t : Token} (ht : t ∈ ts.list) :
    ∃ before after, src = before ++ (t.text ++ after) ∧ t.pos = .behind (read ++ before) := by
  obtain ⟨front, later, hts⟩ := List.append_of_mem ht
  obtain ⟨before, after, rfl, -, hstands⟩ := h.split hts
  cases hstands
  exact ⟨before, _, rfl, rfl⟩

/-- No token stands before the text it is cut from. -/
theorem behind_le (h : Cuts read src ts) : ∀ t ∈ ts.list, Position.behind read ≤ t.pos := by
  induction h with
  | nil | badByte | badInteger => exact fun _ ht => nomatch ht
  | @blank read rest b ts _ _ ih =>
    intro t ht
    refine Position.le_of_lt_of_le ?_ (ih t ht)
    rw [Position.behind_concat]
    exact Position.lt_after _ b
  | @token read rest l ts hl _ _ ih =>
    refine List.forall_mem_cons.2 ⟨Position.le_refl _, fun t ht => ?_⟩
    exact Position.le_of_lt_of_le (Position.behind_lt_append hl.ne_feed hl.text_ne_nil read) (ih t ht)

/-- The positions of tokens increase. -/
theorem pairwise_pos (h : Cuts read src ts) : (ts.list.map Token.pos).Pairwise (· < ·) := by
  induction h with
  | nil | badByte | badInteger => exact .nil
  | blank _ _ ih => exact ih
  | @token read rest l ts hl _ h ih =>
    refine List.Pairwise.cons (fun pos hpos => ?_) ih
    obtain ⟨t, ht, rfl⟩ := List.mem_map.1 hpos
    exact Position.lt_of_lt_of_le (Position.behind_lt_append hl.ne_feed hl.text_ne_nil read) (h.behind_le t ht)

end Cuts

end Source

end LetIf
