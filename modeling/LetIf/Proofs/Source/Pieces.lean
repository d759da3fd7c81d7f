/-
The pieces of a source. Cutting loses no byte: blanks and tokens, one behind the other, are the source up to
where cutting ends, and each token stands where its position says and is as long as it can be. So every word is
one by its shape, no source is refused because a name has the wrong shape, and the sources that are read as a
variable of just that text are the identifiers.
-/
import LetIf.Proofs.Source.Derivation
import LetIf.Proofs.Source.Cutting

namespace LetIf.Source

open Text

/-! ## Pieces -/

/-- A blank between tokens, or a token. -/
inductive Piece where
  | blank (b : UInt8)
  | token (t : Token)

namespace Piece

def text : Piece → Text
  | .blank b => [b]
  | .token t => t.text

def token? : Piece → Option Token
  | .blank _ => none
  | .token t => some t

end Piece

/-- The bytes of pieces that stand one behind the other. -/
def spell (ps : List Piece) : Text := ps.flatMap Piece.text

/-- What is left behind the bytes `read` where cutting ends: nothing at the end of the source, and otherwise the
byte at which it fails, behind the digits of an integer if that is a letter or an underscore right behind them. -/
inductive Ends (read : Text) : Text → Ending → Prop
  | endOfInput : Ends read [] (.endOfInput (.behind read))
  | badByte {b : UInt8} {rest : Text} (hspace : isSpace b = false) (hsign : sign? b = none)
      (hword : isLetter b = false ∧ isDigit b = false) :
      Ends read (b :: rest) (.fault ⟨.unexpectedByte b, .behind read⟩)
  | badInteger {digits rest : Text} {b : UInt8} (hd : isNumeral digits = true)
      (hb : isWordByte b = true ∧ isDigit b = false) :
      Ends read (digits ++ b :: rest) (.fault ⟨.letterInInteger, .behind (read ++ digits)⟩)

/-- The text behind the bytes `read`, of which `ts` is cut, consists of the pieces `ps` and of what is left. -/
structure Pieces (read src : Text) (ts : Tokens) (ps : List Piece) (left : Text) : Prop where
  /-- No byte is lost. -/
  spelled : spell ps ++ left = src
  tokens : ps.filterMap Piece.token? = ts.list
  blank {b : UInt8} : .blank b ∈ ps → b ∈ [32, 9, 13, 10]
  /-- The position of a token is that of its first byte, and no other token than a sign could go on with the
  byte behind it. -/
  token {front back : List Piece} {t : Token} : ps = front ++ .token t :: back →
    t.pos = .behind (read ++ spell front) ∧ t.lexeme.Valid ∧
      (t.lexeme ∈ signs ∨ startsInWord (spell back ++ left) = false)
  ending : Ends (read ++ spell ps) left ts.ending

namespace Pieces

variable {read src left : Text} {ts : Tokens} {ps : List Piece}

theorem ended {e : Ending} (h : Ends read left e) : Pieces read left ⟨[], e⟩ [] left where
  spelled := rfl
  tokens := rfl
  blank hb := by cases hb
  token {front _ _} hps := by cases front <;> cases hps
  ending := by
    rw [spell, List.flatMap_nil, List.append_nil]
    exact h

theorem cons_blank {b : UInt8} (hb : b ∈ [32, 9, 13, 10]) (h : Pieces (read ++ [b]) src ts ps left) :
    Pieces read (b :: src) ts (.blank b :: ps) left where
  spelled := congrArg (b :: ·) h.spelled
  tokens := h.tokens
  blank {c} hc := by
    cases hc with
    | head => exact hb
    | tail _ hc => exact h.blank hc
  token {front back t} hps := by
    cases front with
    | nil => cases hps
    | cons p front =>
      obtain ⟨rfl, htail⟩ := List.cons.inj hps
      have ht := h.token htail
      rw [List.append_assoc] at ht
      exact ht
  ending := by
    have hend := h.ending
    rw [List.append_assoc] at hend
    exact hend

theorem cons_token {l : Lexeme} (hl : l.Valid) (hend : l ∈ signs ∨ startsInWord src = false)
    (h : Pieces (read ++ l.text) src ts ps left) :
    Pieces read (l.text ++ src) (ts.cons ⟨l.kind, l.text, .behind read⟩)
      (.token ⟨l.kind, l.text, .behind read⟩ :: ps) left where
  spelled := by
    rw [← h.spelled, ← List.append_assoc]
    rfl
  tokens := congrArg (_ :: ·) h.tokens
  blank hb := by
    cases hb with
    | tail _ hb => exact h.blank hb
  token {front back t} hps := by
    cases front with
    | nil =>
      cases hps
      rw [h.spelled]
      exact ⟨congrArg Position.behind (List.append_nil read).symm, hl, hend⟩
    | cons p front =>
      obtain ⟨rfl, htail⟩ := List.cons.inj hps
      have ht := h.token htail
      rw [List.append_assoc] at ht
      exact ht
  ending := by
    have hends := h.ending
    rw [List.append_assoc] at hends
    exact hends

end Pieces

theorem exists_pieces (read src : Text) : ∃ ps left, Pieces read src (tokensFrom (.behind read) src) ps left := by
  induction hn : src.length using Nat.strongRecOn generalizing read src with
  | ind n ih =>
    have hstep := step_tokensFrom read src
    generalize tokensFrom (.behind read) src = ts at hstep
    cases hstep with
    | endOfInput => exact ⟨[], [], .ended .endOfInput⟩
    | @blank b rest hb =>
      obtain ⟨ps, left, h⟩ := ih rest.length (by rw [← hn, List.length_cons]; omega) (read ++ [b]) rest rfl
      exact ⟨.blank b :: ps, left, h.cons_blank hb⟩
    | @token l rest hl hend =>
      have hpos := List.length_pos_iff.2 hl.text_ne_nil
      obtain ⟨ps, left, h⟩ := ih rest.length (by rw [← hn, List.length_append]; omega) (read ++ l.text) rest rfl
      exact ⟨.token ⟨l.kind, l.text, .behind read⟩ :: ps, left, h.cons_token hl hend⟩
    | badByte hspace hsign hword => exact ⟨[], _, .ended (.badByte hspace hsign hword)⟩
    | badInteger hd hb => exact ⟨[], _, .ended (.badInteger hd hb)⟩

/-! ## Names -/

/-- Not failing for the shape of a name. -/
def Spares {α : Type} (x : Except SyntaxError α) : Prop := ∀ w pos, x ≠ .error ⟨.invalidIdentifier w, pos⟩

/-- An ending that is no complaint about the shape of a name. -/
def Ending.IsPlain (e : Ending) : Prop := ∀ w pos, e ≠ .fault ⟨.invalidIdentifier w, pos⟩

/-- Every word among the tokens has the shape of one. -/
def Worded (ts : List Token) : Prop := ∀ t ∈ ts, t.kind = .word → isWord t.text = true

/-- A reader that does not fail for the shape of a name, and leaves words as they should be. -/
structure Takes {α : Type} {before : List Token} (x : Except SyntaxError (Read α before)) : Prop where
  spares : Spares x
  worded {a : α} {rest : List Token} {h : rest.length < before.length} : x = .ok ⟨a, rest, h⟩ → Worded rest

section Names

variable {α β : Type} {before ts : List Token} {t : Token} {ending : Ending}

theorem spares_ok (a : α) : Spares (.ok a) := by
  intro _ _ h
  cases h

theorem Spares.bind {x : Except SyntaxError α} {f : α → Except SyntaxError β} (hx : Spares x)
    (hf : ∀ a, x = .ok a → Spares (f a)) : Spares (x >>= f) := by
  intro w pos h
  obtain h | ⟨a, hok, h⟩ := bind_eq_error.1 h
  · exact hx w pos h
  · exact hf a hok w pos h

theorem Takes.bind {x : Except SyntaxError (Read α before)} {f : Read α before → Except SyntaxError β}
    (hx : Takes x) (hf : ∀ a rest h, Worded rest → Spares (f ⟨a, rest, h⟩)) : Spares (x >>= f) := by
  refine hx.spares.bind ?_
  rintro ⟨a, rest, hlt⟩ hok
  exact hf a rest hlt (hx.worded hok)

theorem spares_unexpected (hend : ending.IsPlain) (wanted : Wanted) (ts : List Token) :
    Spares (.error (unexpected ending wanted ts) : Except SyntaxError α) := by
  intro w pos h
  cases ts with
  | cons t ts => cases h
  | nil =>
    cases ending with
    | endOfInput pos => cases h
    | fault e =>
      cases h
      exact hend w pos rfl

theorem spares_intOf (t : Token) : Spares (intOf t) := by
  intro w pos h
  unfold intOf at h
  split at h
  · cases h
  · dsimp only at h
    split at h <;> cases h

theorem spares_identOf (ht : isWord t.text = true) : Spares (identOf t) := by
  intro w pos h
  unfold identOf Ident.ofText at h
  rw [dif_pos ht] at h
  by_cases hr : t.text ∈ reservedWords
  · rw [dif_pos hr] at h; cases h
  · rw [dif_neg hr] at h; cases h

theorem takes_take (hend : ending.IsPlain) (hts : Worded ts) (wanted : Wanted) (p : Token → Bool) :
    Takes (take ending wanted p ts) where
  spares := by
    cases ts with
    | nil => exact spares_unexpected hend wanted []
    | cons t ts =>
      rw [take]
      split
      · exact spares_ok _
      · exact spares_unexpected hend wanted (t :: ts)
  worded h := by
    obtain ⟨rfl, -⟩ := take_eq_ok.1 h
    exact (List.forall_mem_cons.1 hts).2

theorem takes_ident (hend : ending.IsPlain) (hts : Worded ts) : Takes (takeIdent ending ts) where
  spares := by
    refine (takes_take hend hts _ _).spares.bind ?_
    rintro ⟨t, rest, hlt⟩ hok
    obtain ⟨rfl, ht⟩ := take_eq_ok.1 hok
    have hword := hts t (List.mem_cons_self ..) (of_decide_eq_true ht)
    exact (spares_identOf hword).bind fun _ _ => spares_ok _
  worded h := by
    obtain ⟨t, rfl, -⟩ := takeIdent_eq_ok.1 h
    exact (List.forall_mem_cons.1 hts).2

theorem takes_expr (hend : ending.IsPlain) (ts : List Token) (hts : Worded ts) : Takes (expr ending ts) := by
  induction hn : ts.length using Nat.strongRecOn generalizing ts with
  | ind n ih =>
    refine ⟨?_, fun {e rest hlt} h => ?_⟩
    · cases ts with
      | nil =>
        rw [expr]
        exact spares_unexpected hend _ []
      | cons t ts =>
        obtain ⟨hfirst, hrest⟩ := List.forall_mem_cons.1 hts
        have ih (ts' : List Token) (hlt : ts'.length ≤ ts.length) (hts' : Worded ts') : Takes (expr ending ts') :=
          ih _ (by rw [← hn, List.length_cons]; omega) ts' hts' rfl
        obtain ⟨kind, w, pos⟩ := t
        rw [expr]
        cases kind with
        | integer => exact (spares_intOf _).bind fun _ _ => spares_ok _
        | opening =>
          refine (ih ts (Nat.le_refl _) hrest).bind fun e r₁ h₁ hr₁ => ?_
          exact (takes_take hend hr₁ _ _).bind fun _ _ _ _ => spares_ok _
        | word =>
          dsimp only
          split
          · exact spares_ok _
          split
          · exact spares_ok _
          split
          · refine (ih ts (Nat.le_refl _) hrest).bind fun c r₁ h₁ hr₁ => ?_
            refine (takes_take hend hr₁ _ _).bind fun _ r₂ h₂ hr₂ => ?_
            refine (ih r₂ (by omega) hr₂).bind fun y r₃ h₃ hr₃ => ?_
            refine (takes_take hend hr₃ _ _).bind fun _ r₄ h₄ hr₄ => ?_
            exact (ih r₄ (by omega) hr₄).bind fun _ _ _ _ => spares_ok _
          split
          · refine (takes_ident hend hrest).bind fun x r₁ h₁ hr₁ => ?_
            refine (takes_take hend hr₁ _ _).bind fun _ r₂ h₂ hr₂ => ?_
            refine (ih r₂ (by omega) hr₂).bind fun b r₃ h₃ hr₃ => ?_
            refine (takes_take hend hr₃ _ _).bind fun _ r₄ h₄ hr₄ => ?_
            exact (ih r₄ (by omega) hr₄).bind fun _ _ _ _ => spares_ok _
          · exact (spares_identOf (hfirst rfl)).bind fun _ _ => spares_ok _
        | endOfInput | equals | closing => exact spares_unexpected hend _ _
    · obtain ⟨front, rfl, -⟩ := derives_of_expr h
      exact fun t ht => hts t (List.mem_append_right front ht)

end Names

/-! ## Whole sources -/

theorem Lexeme.Valid.isWord_text {l : Lexeme} (h : l.Valid) (hl : l.kind = .word) : isWord l.text = true := by
  cases h with
  | word hw => exact hw
  | integer hd => cases hl
  | sign hs =>
    simp only [signs, List.mem_cons, List.not_mem_nil, or_false] at hs
    rcases hs with rfl | rfl | rfl <;> cases hl

theorem Ends.isPlain {read left : Text} {e : Ending} (h : Ends read left e) : e.IsPlain := by
  intro w pos he
  subst he
  cases h

section Sources

variable {read src left : Text} {ts : Tokens} {ps : List Piece}

theorem Pieces.worded (h : Pieces read src ts ps left) : Worded ts.list := by
  intro t ht
  rw [← h.tokens, List.mem_filterMap] at ht
  obtain ⟨p, hp, hpt⟩ := ht
  cases p with
  | blank b => cases hpt
  | token t' =>
    cases hpt
    obtain ⟨front, back, hps⟩ := List.append_of_mem hp
    obtain ⟨-, hvalid, -⟩ := h.token hps
    exact hvalid.isWord_text

/-- Each token takes a byte at least. -/
theorem Cuts.length_le (h : Cuts read src ts) : ts.list.length ≤ src.length := by
  induction h with
  | nil | badByte | badInteger => exact Nat.zero_le _
  | blank _ _ ih => exact Nat.le_succ_of_le ih
  | @token read rest l ts hl _ _ ih =>
    have hpos := List.length_pos_iff.2 hl.text_ne_nil
    rw [List.length_append, Tokens.cons, List.length_cons]
    omega

theorem spares_parse (src : Text) : Spares (parse src) := by
  obtain ⟨ps, left, h⟩ := exists_pieces [] src
  have hend : (tokens src).ending.IsPlain := h.ending.isPlain
  have hread := takes_expr hend (tokens src).list h.worded
  refine hread.bind fun e rest hlt _ => ?_
  generalize (tokens src).ending = ending at hend
  cases rest with
  | cons t rest => exact spares_unexpected hend _ _
  | nil =>
    cases ending with
    | endOfInput pos => exact spares_ok e
    | fault err => exact spares_unexpected hend _ _

/-- An identifier is the source of the variable it names. -/
theorem parse_ident (x : Ident) : parse x.text = .ok (.var .start x) := by
  have htokens := @tokensFrom_word x.text [] x.word rfl .start
  rw [List.append_nil, tokensFrom_nil] at htokens
  rw [parse, tokens, htokens]
  exact exprOfTokens_eq_ok.2 ⟨_, Read.tail_lt, rfl, expr_ident x rfl⟩

/-- Cutting is lossless and takes as much as it can. A source consists of its tokens, which are no more than its
bytes, each where its position says and such that what follows does not go on with it, of the blanks between
them, and of what is left where cutting fails. The words have the shape of words. So no source is refused for
the shape of a name, and the sources that are read as the variable they spell are the identifiers. -/
theorem tokens_lossless (src : Text) :
    (∃ ps left, Pieces [] src (tokens src) ps left) ∧ (tokens src).list.length ≤ src.length ∧
      (∀ t ∈ (tokens src).list, t.kind = .word → isWord t.text = true) ∧
      (∀ w pos, parse src ≠ .error ⟨.invalidIdentifier w, pos⟩) ∧
      ∀ x, (∃ pos, parse src = .ok (.var pos x) ∧ x.text = src) ↔ Ident.ofText src = .ok x := by
  obtain ⟨ps, left, h⟩ := exists_pieces [] src
  refine ⟨⟨ps, left, h⟩, (cuts_tokens src).length_le, h.worded, spares_parse src, fun x => ?_⟩
  rw [ofText_eq_ok]
  constructor
  · rintro ⟨pos, -, htext⟩
    exact htext.symm
  · rintro rfl
    exact ⟨.start, parse_ident x, rfl⟩

end Sources

end LetIf.Source
