/-
The grammar of expressions as a relation between tokens and trees, and the reader of expressions
against it. What is read is a tree that the tokens taken derive; tokens that derive a tree are read
as that tree, whatever follows them. The second needs no condition on what follows: no expression
can be made longer by adding tokens behind it.
-/
import LetIf.Source.Grammar
import LetIf.Proofs.Except
import LetIf.Proofs.Expr.Basic
import LetIf.Proofs.Source.Lexing

namespace LetIf.Source

open Text

/-- The token sequence derives the tree. -/
inductive Derives : List Lexeme → Expr Unit → Prop
  | integer {digits : Text} {n : Int32} (hlen : digits.length ≤ 10)
      (hmax : decimalValue digits ≤ 2147483647) (hn : n.toInt = decimalValue digits) :
      Derives [⟨.integer, digits⟩] (.lit () (some (.int n)))
  | trueWord : Derives [⟨.word, "True"⟩] (.lit () (some (.bool true)))
  | falseWord : Derives [⟨.word, "False"⟩] (.lit () (some (.bool false)))
  | ident (x : Ident) : Derives [⟨.word, x.text⟩] (.var () x)
  | parens {o c : Lexeme} {ls : List Lexeme} {t : Expr Unit} (ho : o.kind = .opening)
      (h : Derives ls t) (hc : c.kind = .closing) : Derives (o :: ls ++ [c]) t
  | cond {cs ys ns : List Lexeme} {c y n : Expr Unit} (hc : Derives cs c) (hy : Derives ys y)
      (hn : Derives ns n) :
      Derives (⟨.word, "if"⟩ :: cs ++ ⟨.word, "then"⟩ :: ys ++ ⟨.word, "else"⟩ :: ns)
        (.cond () c y n)
  | bind {q : Lexeme} {bs ks : List Lexeme} {b k : Expr Unit} (x : Ident) (hq : q.kind = .equals)
      (hb : Derives bs b) (hk : Derives ks k) :
      Derives (⟨.word, "let"⟩ :: ⟨.word, x.text⟩ :: q :: bs ++ ⟨.word, "in"⟩ :: ks)
        (.bind () x b k)

/-! ## Single tokens -/

section Tokens

variable {ending : Ending} {ts rest : List Token} {t : Token} {x : Ident}

theorem take_eq_ok {wanted : Wanted} {p : Token → Bool} {h : rest.length < ts.length} :
    take ending wanted p ts = .ok ⟨t, rest, h⟩ ↔ ts = t :: rest ∧ p t = true := by
  cases ts with
  | nil => exact absurd h (Nat.not_lt_zero _)
  | cons t' ts =>
    rw [take]
    constructor
    · intro h
      by_cases hp : p t' = true
      · rw [if_pos hp] at h
        cases h
        exact ⟨rfl, hp⟩
      · rw [if_neg hp] at h
        cases h
    · rintro ⟨heq, hp⟩
      cases heq
      rw [if_pos hp]

theorem takeKeyword_eq_ok {w : Text} {h : rest.length < ts.length} :
    takeKeyword ending w ts = .ok ⟨t, rest, h⟩ ↔ ts = t :: rest ∧ t.lexeme = ⟨.word, w⟩ := by
  unfold takeKeyword
  rw [take_eq_ok]
  simp only [Bool.and_eq_true, decide_eq_true_eq, beq_iff_eq, Token.lexeme, Lexeme.mk.injEq]

theorem ofText_eq_ok {w : Text} : Ident.ofText w = .ok x ↔ w = x.text := by
  unfold Ident.ofText
  constructor
  · intro h
    by_cases hw : isWord w = true
    · by_cases hr : w ∈ reservedWords
      · simp [hw, hr] at h
      · simp only [hw, hr, dite_true, dite_false] at h
        cases h; rfl
    · simp [hw] at h
  · rintro rfl
    rw [dif_pos x.word, dif_neg x.free]

theorem identOf_eq_ok : identOf t = .ok x ↔ t.text = x.text := by
  rw [← ofText_eq_ok]
  unfold identOf
  cases Ident.ofText t.text with
  | ok y => simp only [Except.ok.injEq]
  | error r => cases r <;> simp only [reduceCtorEq]

theorem takeIdent_eq_ok {h : rest.length < ts.length} :
    takeIdent ending ts = .ok ⟨x, rest, h⟩ ↔ ∃ t, ts = t :: rest ∧ t.lexeme = ⟨.word, x.text⟩ := by
  unfold takeIdent
  simp only [bind_eq_ok, pure_eq_ok]
  constructor
  · rintro ⟨⟨t, rest', hlt⟩, ht, x', hx, heq⟩
    cases heq
    obtain ⟨hts, hkind⟩ := take_eq_ok.1 ht
    refine ⟨t, hts, ?_⟩
    rw [Token.lexeme, of_decide_eq_true hkind, identOf_eq_ok.1 hx]
  · rintro ⟨t, rfl, ht⟩
    cases t
    cases ht
    exact ⟨⟨_, rest, h⟩, take_eq_ok.2 ⟨rfl, rfl⟩, x, identOf_eq_ok.2 rfl, rfl⟩

theorem intOf_eq_ok {v : Value} :
    intOf t = .ok v ↔ ∃ n : Int32, v = .int n ∧ t.text.length ≤ 10 ∧
      decimalValue t.text ≤ 2147483647 ∧ n.toInt = decimalValue t.text := by
  have h31 : Bits.span 31 = 2147483648 := rfl
  unfold intOf maxDigits
  rw [ite_error_eq_ok]
  constructor
  · rintro ⟨hlen, h⟩
    by_cases hlt : decimalValue t.text < Bits.span 31
    · simp only [if_pos hlt] at h
      cases h
      refine ⟨_, rfl, by omega, by omega, ?_⟩
      rw [Int32.toInt_ofNat_of_lt (by omega)]
    · simp only [if_neg hlt] at h
      cases h
  · rintro ⟨n, rfl, hlen, hmax, hn⟩
    refine ⟨by omega, ?_⟩
    simp only [if_pos (show decimalValue t.text < Bits.span 31 by omega)]
    rw [← Int32.ofInt_eq_ofNat, ← hn, Int32.ofInt_toInt]

end Tokens

/-! ## Expressions by their first token -/

section First

variable {ending : Ending} {t : Token} {ts rest : List Token} {e : Expr Position}

theorem first_of_expr {r : Read (Expr Position) (t :: ts)} (h : expr ending (t :: ts) = .ok r) :
    t.kind = .integer ∨ t.kind = .opening ∨ t.lexeme = ⟨.word, "True"⟩ ∨
      t.lexeme = ⟨.word, "False"⟩ ∨ t.lexeme = ⟨.word, "if"⟩ ∨ t.lexeme = ⟨.word, "let"⟩ ∨
      ∃ x : Ident, t.lexeme = ⟨.word, x.text⟩ := by
  obtain ⟨kind, w, pos⟩ := t
  rw [expr] at h
  cases kind with
  | integer => exact .inl rfl
  | opening => exact .inr (.inl rfl)
  | word =>
    simp only [Token.lexeme, Lexeme.mk.injEq, true_and]
    by_cases h₁ : w = "True"
    · exact .inr (.inr (.inl h₁))
    by_cases h₂ : w = "False"
    · exact .inr (.inr (.inr (.inl h₂)))
    by_cases h₃ : w = "if"
    · exact .inr (.inr (.inr (.inr (.inl h₃))))
    by_cases h₄ : w = "let"
    · exact .inr (.inr (.inr (.inr (.inr (.inl h₄)))))
    simp only [beq_iff_eq, h₁, h₂, h₃, h₄, if_false, bind_eq_ok] at h
    obtain ⟨x, hx, -⟩ := h
    exact .inr (.inr (.inr (.inr (.inr (.inr ⟨x, identOf_eq_ok.1 hx⟩)))))
  | endOfInput => cases h
  | equals => cases h
  | closing => cases h

theorem expr_integer_eq_ok (ht : t.kind = .integer) {hlt : rest.length < (t :: ts).length} :
    expr ending (t :: ts) = .ok ⟨e, rest, hlt⟩ ↔
      ∃ n : Int32, t.text.length ≤ 10 ∧ decimalValue t.text ≤ 2147483647 ∧
        n.toInt = decimalValue t.text ∧ e = .lit t.pos (some (.int n)) ∧ rest = ts := by
  obtain ⟨kind, w, pos⟩ := t
  cases ht
  rw [expr]
  simp only [bind_eq_ok, pure_eq_ok, intOf_eq_ok]
  constructor
  · rintro ⟨_, ⟨n, rfl, hlen, hmax, hn⟩, heq⟩
    cases heq
    exact ⟨n, hlen, hmax, hn, rfl, rfl⟩
  · rintro ⟨n, hlen, hmax, hn, rfl, rfl⟩
    exact ⟨_, ⟨n, rfl, hlen, hmax, hn⟩, rfl⟩

theorem expr_opening_eq_ok (ht : t.kind = .opening) {hlt : rest.length < (t :: ts).length} :
    expr ending (t :: ts) = .ok ⟨e, rest, hlt⟩ ↔
      ∃ c h, expr ending ts = .ok ⟨e, c :: rest, h⟩ ∧ c.kind = .closing := by
  obtain ⟨kind, w, pos⟩ := t
  cases ht
  rw [expr]
  simp only [bind_eq_ok, pure_eq_ok]
  constructor
  · rintro ⟨⟨e', r₁, h₁⟩, he, ⟨c, r₂, h₂⟩, hc, heq⟩
    cases heq
    obtain ⟨rfl, hkind⟩ := take_eq_ok.1 hc
    exact ⟨c, h₁, he, of_decide_eq_true hkind⟩
  · rintro ⟨c, h, he, hc⟩
    exact ⟨_, he, ⟨c, rest, Read.tail_lt⟩, take_eq_ok.2 ⟨rfl, decide_eq_true hc⟩, rfl⟩

theorem expr_true (ht : t.lexeme = ⟨.word, "True"⟩) :
    expr ending (t :: ts) = .ok ⟨.lit t.pos (some (.bool true)), ts, Read.tail_lt⟩ := by
  obtain ⟨kind, w, pos⟩ := t
  cases ht
  rw [expr]
  rfl

theorem expr_false (ht : t.lexeme = ⟨.word, "False"⟩) :
    expr ending (t :: ts) = .ok ⟨.lit t.pos (some (.bool false)), ts, Read.tail_lt⟩ := by
  obtain ⟨kind, w, pos⟩ := t
  cases ht
  rw [expr]
  rfl

theorem expr_ident (x : Ident) (ht : t.lexeme = ⟨.word, x.text⟩) :
    expr ending (t :: ts) = .ok ⟨.var t.pos x, ts, Read.tail_lt⟩ := by
  obtain ⟨kind, w, pos⟩ := t
  cases ht
  -- the four words that start another expression are reserved
  have hfree := x.free
  simp only [reservedWords, List.mem_cons, not_or] at hfree
  obtain ⟨h₁, h₂, h₃, -, -, h₄, -⟩ := hfree
  rw [expr]
  simp only [beq_iff_eq, h₁, h₂, h₃, h₄, if_false, bind_eq_ok]
  exact ⟨x, identOf_eq_ok.2 rfl, rfl⟩

theorem expr_cond_eq_ok (ht : t.lexeme = ⟨.word, "if"⟩) {hlt : rest.length < (t :: ts).length} :
    expr ending (t :: ts) = .ok ⟨e, rest, hlt⟩ ↔
      ∃ c y n t₁ t₂ r₁ r₂ h₁ h₂ h₃, expr ending ts = .ok ⟨c, t₁ :: r₁, h₁⟩ ∧
        t₁.lexeme = ⟨.word, "then"⟩ ∧ expr ending r₁ = .ok ⟨y, t₂ :: r₂, h₂⟩ ∧
        t₂.lexeme = ⟨.word, "else"⟩ ∧ expr ending r₂ = .ok ⟨n, rest, h₃⟩ ∧
        e = .cond t.pos c y n := by
  obtain ⟨kind, w, pos⟩ := t
  cases ht
  rw [expr]
  dsimp only
  rw [if_neg (by decide), if_neg (by decide), if_pos (by decide)]
  simp only [bind_eq_ok, pure_eq_ok]
  constructor
  · rintro ⟨⟨c, _, h₁⟩, hc, ⟨t₁, r₁, _⟩, ht₁, ⟨y, _, h₂⟩, hy, ⟨t₂, r₂, _⟩, ht₂, ⟨n, _, h₃⟩, hn, heq⟩
    cases heq
    obtain ⟨rfl, hthen⟩ := takeKeyword_eq_ok.1 ht₁
    obtain ⟨rfl, helse⟩ := takeKeyword_eq_ok.1 ht₂
    exact ⟨c, y, n, t₁, t₂, r₁, r₂, h₁, h₂, h₃, hc, hthen, hy, helse, hn, rfl⟩
  · rintro ⟨c, y, n, t₁, t₂, r₁, r₂, h₁, h₂, h₃, hc, hthen, hy, helse, hn, rfl⟩
    exact ⟨_, hc, ⟨t₁, r₁, Read.tail_lt⟩, takeKeyword_eq_ok.2 ⟨rfl, hthen⟩, _, hy,
      ⟨t₂, r₂, Read.tail_lt⟩, takeKeyword_eq_ok.2 ⟨rfl, helse⟩, _, hn, rfl⟩

theorem expr_bind_eq_ok (ht : t.lexeme = ⟨.word, "let"⟩) {hlt : rest.length < (t :: ts).length} :
    expr ending (t :: ts) = .ok ⟨e, rest, hlt⟩ ↔
      ∃ (x : Ident) (b k : Expr Position) (tx tq t₁ : Token) (r₁ r₂ : List Token) (h₁ : _) (h₂ : _),
        ts = tx :: tq :: r₁ ∧ tx.lexeme = ⟨.word, x.text⟩ ∧ tq.kind = .equals ∧
        expr ending r₁ = .ok ⟨b, t₁ :: r₂, h₁⟩ ∧ t₁.lexeme = ⟨.word, "in"⟩ ∧
        expr ending r₂ = .ok ⟨k, rest, h₂⟩ ∧ e = .bind t.pos x b k := by
  obtain ⟨kind, w, pos⟩ := t
  cases ht
  rw [expr]
  dsimp only
  rw [if_neg (by decide), if_neg (by decide), if_neg (by decide), if_pos (by decide)]
  simp only [bind_eq_ok, pure_eq_ok]
  constructor
  · rintro ⟨⟨x, _, _⟩, hx, ⟨tq, r₁, _⟩, hq, ⟨b, _, h₁⟩, hb, ⟨t₁, r₂, _⟩, ht₁, ⟨k, _, h₂⟩, hk, heq⟩
    cases heq
    obtain ⟨tx, rfl, htx⟩ := takeIdent_eq_ok.1 hx
    obtain ⟨rfl, hequals⟩ := take_eq_ok.1 hq
    obtain ⟨rfl, hin⟩ := takeKeyword_eq_ok.1 ht₁
    exact ⟨x, b, k, tx, tq, t₁, r₁, r₂, h₁, h₂, rfl, htx, of_decide_eq_true hequals, hb, hin, hk,
      rfl⟩
  · rintro ⟨x, b, k, tx, tq, t₁, r₁, r₂, h₁, h₂, rfl, htx, hequals, hb, hin, hk, rfl⟩
    exact ⟨⟨x, tq :: r₁, Read.tail_lt⟩, takeIdent_eq_ok.2 ⟨tx, rfl, htx⟩, ⟨tq, r₁, Read.tail_lt⟩,
      take_eq_ok.2 ⟨rfl, decide_eq_true hequals⟩, _, hb, ⟨t₁, r₂, Read.tail_lt⟩,
      takeKeyword_eq_ok.2 ⟨rfl, hin⟩, _, hk, rfl⟩

end First

/-! ## Reading and deriving -/

/-- The tokens spell the tree, and every node carries the position of the token with which it starts,
parentheses aside. -/
inductive Spans : List Token → Expr Position → Prop
  | integer {t : Token} {n : Int32} (ht : t.kind = .integer) (hlen : t.text.length ≤ 10)
      (hmax : decimalValue t.text ≤ 2147483647) (hn : n.toInt = decimalValue t.text) :
      Spans [t] (.lit t.pos (some (.int n)))
  | trueWord {t : Token} (ht : t.lexeme = ⟨.word, "True"⟩) : Spans [t] (.lit t.pos (some (.bool true)))
  | falseWord {t : Token} (ht : t.lexeme = ⟨.word, "False"⟩) : Spans [t] (.lit t.pos (some (.bool false)))
  | ident {t : Token} (x : Ident) (ht : t.lexeme = ⟨.word, x.text⟩) : Spans [t] (.var t.pos x)
  | parens {o c : Token} {ts : List Token} {e : Expr Position} (ho : o.kind = .opening) (h : Spans ts e)
      (hc : c.kind = .closing) : Spans (o :: ts ++ [c]) e
  | cond {t t₁ t₂ : Token} {cs ys ns : List Token} {c y n : Expr Position} (ht : t.lexeme = ⟨.word, "if"⟩)
      (hc : Spans cs c) (ht₁ : t₁.lexeme = ⟨.word, "then"⟩) (hy : Spans ys y)
      (ht₂ : t₂.lexeme = ⟨.word, "else"⟩) (hn : Spans ns n) :
      Spans (t :: cs ++ t₁ :: ys ++ t₂ :: ns) (.cond t.pos c y n)
  | bind {t tx tq t₁ : Token} {bs ks : List Token} {b k : Expr Position} (x : Ident)
      (ht : t.lexeme = ⟨.word, "let"⟩) (htx : tx.lexeme = ⟨.word, x.text⟩) (hq : tq.kind = .equals)
      (hb : Spans bs b) (ht₁ : t₁.lexeme = ⟨.word, "in"⟩) (hk : Spans ks k) :
      Spans (t :: tx :: tq :: bs ++ t₁ :: ks) (.bind t.pos x b k)

/-- What is read spans the tokens that are taken. -/
theorem spans_of_expr {ending : Ending} : ∀ {ts rest : List Token} {e : Expr Position}
    {hlt : rest.length < ts.length}, expr ending ts = .ok ⟨e, rest, hlt⟩ →
      ∃ front, ts = front ++ rest ∧ Spans front e
  | [], _, _, hlt, _ => absurd hlt (Nat.not_lt_zero _)
  | t :: ts, rest, e, hlt, h => by
    obtain ht | ht | ht | ht | ht | ht | ⟨x, ht⟩ := first_of_expr h
    · obtain ⟨n, hlen, hmax, hn, rfl, rfl⟩ := (expr_integer_eq_ok ht).1 h
      exact ⟨[t], rfl, .integer ht hlen hmax hn⟩
    · obtain ⟨c, _, he, hc⟩ := (expr_opening_eq_ok ht).1 h
      obtain ⟨front, rfl, hd⟩ := spans_of_expr he
      exact ⟨t :: front ++ [c], by simp, .parens ht hd hc⟩
    · cases (expr_true ht).symm.trans h
      exact ⟨[t], rfl, .trueWord ht⟩
    · cases (expr_false ht).symm.trans h
      exact ⟨[t], rfl, .falseWord ht⟩
    · obtain ⟨c, y, n, t₁, t₂, r₁, r₂, h₁, h₂, h₃, hc, ht₁, hy, ht₂, hn, rfl⟩ :=
        (expr_cond_eq_ok ht).1 h
      obtain ⟨cs, rfl, hcs⟩ := spans_of_expr hc
      obtain ⟨ys, rfl, hys⟩ := spans_of_expr hy
      obtain ⟨ns, rfl, hns⟩ := spans_of_expr hn
      exact ⟨t :: cs ++ t₁ :: ys ++ t₂ :: ns, by simp, .cond ht hcs ht₁ hys ht₂ hns⟩
    · obtain ⟨x, b, k, tx, tq, t₁, r₁, r₂, h₁, h₂, rfl, htx, hq, hb, ht₁, hk, rfl⟩ :=
        (expr_bind_eq_ok ht).1 h
      obtain ⟨bs, rfl, hbs⟩ := spans_of_expr hb
      obtain ⟨ks, rfl, hks⟩ := spans_of_expr hk
      exact ⟨t :: tx :: tq :: bs ++ t₁ :: ks, by simp, .bind x ht htx hq hbs ht₁ hks⟩
    · cases (expr_ident x ht).symm.trans h
      exact ⟨[t], rfl, .ident x ht⟩
  termination_by ts => ts.length
  decreasing_by
    all_goals
      subst_vars
      simp only [List.length_cons, List.length_append] at *
      omega

theorem Spans.derives {ts : List Token} {e : Expr Position} (h : Spans ts e) :
    Derives (ts.map Token.lexeme) e.erase := by
  induction h with
  | @integer t n ht hlen hmax hn =>
    rw [List.map_singleton, show t.lexeme = ⟨.integer, t.text⟩ by rw [Token.lexeme, ht]]
    exact .integer hlen hmax hn
  | trueWord ht => rw [List.map_singleton, ht]; exact .trueWord
  | falseWord ht => rw [List.map_singleton, ht]; exact .falseWord
  | ident x ht => rw [List.map_singleton, ht]; exact .ident x
  | parens ho _ hc ih =>
    rw [List.map_append, List.map_cons]
    exact .parens ho ih hc
  | cond ht _ ht₁ _ ht₂ _ ihc ihy ihn =>
    simp only [List.map_append, List.map_cons, ht, ht₁, ht₂]
    exact .cond ihc ihy ihn
  | bind x ht htx hq _ ht₁ _ ihb ihk =>
    simp only [List.map_append, List.map_cons, ht, ht₁, htx]
    exact .bind x hq ihb ihk

/-- The tokens that an expression is read from derive it. -/
theorem derives_of_expr {ending : Ending} {ts rest : List Token} {e : Expr Position}
    {hlt : rest.length < ts.length} (h : expr ending ts = .ok ⟨e, rest, hlt⟩) :
    ∃ front, ts = front ++ rest ∧ Derives (front.map Token.lexeme) e.erase := by
  obtain ⟨front, hts, hspans⟩ := spans_of_expr h
  exact ⟨front, hts, hspans.derives⟩

/-- Tokens that derive a tree are read as that tree, and nothing behind them is. -/
theorem Derives.expr {ls : List Lexeme} {e : Expr Unit} (hd : Derives ls e) (ending : Ending) :
    ∀ {ts : List Token} {later : List Lexeme}, ts.map Token.lexeme = ls ++ later →
      ∃ e' rest h, expr ending ts = .ok ⟨e', rest, h⟩ ∧ e'.erase = e ∧
        rest.map Token.lexeme = later := by
  induction hd with
  | @integer digits n hlen hmax hn =>
    intro ts later hts
    obtain ⟨⟨kind, w, pos⟩, rest, rfl, ht, hrest⟩ := List.map_eq_cons_iff.1 hts
    cases ht
    exact ⟨.lit pos (some (.int n)), rest, Read.tail_lt,
      (expr_integer_eq_ok rfl).2 ⟨n, hlen, hmax, hn, rfl, rfl⟩, rfl, hrest⟩
  | trueWord =>
    intro ts later hts
    obtain ⟨t, rest, rfl, ht, hrest⟩ := List.map_eq_cons_iff.1 hts
    exact ⟨_, _, _, expr_true ht, rfl, hrest⟩
  | falseWord =>
    intro ts later hts
    obtain ⟨t, rest, rfl, ht, hrest⟩ := List.map_eq_cons_iff.1 hts
    exact ⟨_, _, _, expr_false ht, rfl, hrest⟩
  | ident x =>
    intro ts later hts
    obtain ⟨t, rest, rfl, ht, hrest⟩ := List.map_eq_cons_iff.1 hts
    exact ⟨_, _, _, expr_ident x ht, rfl, hrest⟩
  | @parens o c _ _ ho _ hc ih =>
    intro ts later hts
    rw [List.cons_append, List.cons_append, List.append_assoc] at hts
    obtain ⟨t, ts, rfl, rfl, hts'⟩ := List.map_eq_cons_iff.1 hts
    obtain ⟨e', r₁, h₁, he, herase, hr₁⟩ := ih hts'
    obtain ⟨t', rest, rfl, rfl, hrest⟩ := List.map_eq_cons_iff.1 hr₁
    exact ⟨e', rest, Read.lt_cons (Nat.lt_of_succ_lt h₁),
      (expr_opening_eq_ok ho).2 ⟨t', h₁, he, hc⟩, herase, hrest⟩
  | cond _ _ _ ihc ihy ihn =>
    intro ts later hts
    -- each part is read from where the keyword before it ends
    simp only [List.cons_append, List.append_assoc] at hts
    obtain ⟨t, ts, rfl, ht, hts⟩ := List.map_eq_cons_iff.1 hts
    obtain ⟨c, _, h₁, hc, rfl, hr₁⟩ := ihc hts
    obtain ⟨t₁, r₁, rfl, ht₁, hr₁⟩ := List.map_eq_cons_iff.1 hr₁
    obtain ⟨y, _, h₂, hy, rfl, hr₂⟩ := ihy hr₁
    obtain ⟨t₂, r₂, rfl, ht₂, hr₂⟩ := List.map_eq_cons_iff.1 hr₂
    obtain ⟨n, rest, h₃, hn, rfl, hrest⟩ := ihn hr₂
    have hlt : rest.length < ts.length :=
      Nat.lt_trans h₃ (Nat.lt_trans (Nat.lt_of_succ_lt h₂) (Nat.lt_of_succ_lt h₁))
    exact ⟨.cond t.pos c y n, rest, Read.lt_cons hlt, (expr_cond_eq_ok ht).2
      ⟨c, y, n, t₁, t₂, r₁, r₂, h₁, h₂, h₃, hc, ht₁, hy, ht₂, hn, rfl⟩, rfl, hrest⟩
  | bind x hq _ _ ihb ihk =>
    intro ts later hts
    simp only [List.cons_append, List.append_assoc] at hts
    obtain ⟨t, _, rfl, ht, hts⟩ := List.map_eq_cons_iff.1 hts
    obtain ⟨tx, _, rfl, htx, hts⟩ := List.map_eq_cons_iff.1 hts
    obtain ⟨tq, ts, rfl, rfl, hts'⟩ := List.map_eq_cons_iff.1 hts
    obtain ⟨b, _, h₁, hb, rfl, hr₁⟩ := ihb hts'
    obtain ⟨t₁, r₁, rfl, ht₁, hr₁⟩ := List.map_eq_cons_iff.1 hr₁
    obtain ⟨k, rest, h₂, hk, rfl, hrest⟩ := ihk hr₁
    have hlt : rest.length < ts.length := Nat.lt_trans h₂ (Nat.lt_of_succ_lt h₁)
    exact ⟨.bind t.pos x b k, rest, Read.lt_cons (Read.lt_cons (Read.lt_cons hlt)),
      (expr_bind_eq_ok ht).2 ⟨x, b, k, tx, tq, t₁, ts, r₁, h₁, h₂, rfl, htx, hq, hb, ht₁, hk, rfl⟩, rfl, hrest⟩

/-- A sequence of tokens derives at most one tree: it is what is read from them. -/
theorem Derives.unique {ls : List Lexeme} {e e' : Expr Unit} (hd : Derives ls e)
    (hd' : Derives ls e') : e = e' := by
  -- any places will do: the reader does not look at them
  let ending := Ending.endOfInput .start
  let place (l : Lexeme) : Token := ⟨l.kind, l.text, .start⟩
  have hplace : (ls.map place).map Token.lexeme = ls ++ [] := by
    rw [List.map_map, List.append_nil]
    exact List.map_id ls
  obtain ⟨r, _, _, hr, rfl, -⟩ := hd.expr ending hplace
  obtain ⟨r', _, _, hr', rfl, -⟩ := hd'.expr ending hplace
  cases hr.symm.trans hr'
  rfl

/-! ## Whole sources -/

theorem exprOfTokens_eq_ok {ts : Tokens} {e : Expr Position} :
    exprOfTokens ts = .ok e ↔
      ∃ stop h, ts.ending = .endOfInput stop ∧ expr ts.ending ts.list = .ok ⟨e, [], h⟩ := by
  obtain ⟨list, ending⟩ := ts
  unfold exprOfTokens
  rw [bind_eq_ok]
  constructor
  · rintro ⟨⟨e', rest, hlt⟩, he, h⟩
    cases ending with
    | fault err => cases rest <;> cases h
    | endOfInput stop =>
      cases rest with
      | cons t rest => cases h
      | nil =>
        cases h
        exact ⟨stop, hlt, rfl, he⟩
  · rintro ⟨stop, hlt, hend, he⟩
    cases hend
    exact ⟨_, he, rfl⟩

/-- A source is read as a tree exactly when the tokens that it is cut into derive the tree. -/
theorem parse_iff {src : Text} {t : Expr Unit} :
    (∃ e, parse src = .ok e ∧ e.erase = t) ↔ ∃ ls, Lexes src ls ∧ Derives ls t := by
  constructor
  · rintro ⟨e, he, rfl⟩
    obtain ⟨stop, _, hend, hread⟩ := exprOfTokens_eq_ok.1 he
    obtain ⟨front, hfront, hd⟩ := derives_of_expr hread
    rw [List.append_nil] at hfront
    subst hfront
    exact ⟨_, lexes_iff.2 ⟨stop, hend, rfl⟩, hd⟩
  · rintro ⟨ls, hl, hd⟩
    obtain ⟨stop, hend, hlist⟩ := lexes_iff.1 hl
    obtain ⟨e, rest, h, he, herase, hrest⟩ :=
      hd.expr (tokens src).ending (hlist.trans (List.append_nil ls).symm)
    obtain rfl := List.map_eq_nil_iff.1 hrest
    exact ⟨e, exprOfTokens_eq_ok.2 ⟨stop, h, hend, he⟩, herase⟩

/-- Reading accepts the grammar and nothing else. A source has one sequence of tokens at most, a
sequence of tokens one tree at most, and a source without a tree is refused with a syntax error. -/
theorem parse_exact (src : Text) :
    (∀ t, (∃ e, parse src = .ok e ∧ e.erase = t) ↔ ∃ ls, Lexes src ls ∧ Derives ls t) ∧
      (∀ ls ls', Lexes src ls → Lexes src ls' → ls = ls') ∧
      (∀ ls t t', Derives ls t → Derives ls t' → t = t') ∧
      ((¬ ∃ ls t, Lexes src ls ∧ Derives ls t) ↔ ∃ err : SyntaxError, parse src = .error err) ∧
      (∀ err : SyntaxError, parse src = .error err → err.report.notice.kind = .syntaxError) := by
  refine ⟨fun t => parse_iff, fun _ _ => Lexes.unique, fun _ _ _ => Derives.unique, ?_,
    fun _ _ => rfl⟩
  constructor
  · intro hnone
    cases hp : parse src with
    | error err => exact ⟨err, rfl⟩
    | ok e =>
      obtain ⟨ls, hl, hd⟩ := parse_iff.1 ⟨e, hp, rfl⟩
      exact absurd ⟨ls, _, hl, hd⟩ hnone
  · rintro ⟨err, herr⟩ ⟨ls, t, hl, hd⟩
    obtain ⟨e, he, -⟩ := parse_iff.2 ⟨ls, hl, hd⟩
    cases herr.symm.trans he

/-- Signs need no blanks around them. -/
theorem parse_exact_signs :
    ∃ e, parse "let x=(7)in x" = .ok e ∧
      e.erase = .bind () nameX (.lit () (some (.int 7))) (.var () nameX) := by
  have hsrc : Text.ofString "let x=(7)in x" = Text.ofString "let" ++ 32 :: (nameX.text ++
      (Text.ofString "=" ++ (Text.ofString "(" ++ ([55] ++ (Text.ofString ")" ++
      (Text.ofString "in" ++ 32 :: (nameX.text ++ []))))))) := by decide
  have hl : Lexes (Text.ofString "let x=(7)in x") [⟨.word, "let"⟩, ⟨.word, nameX.text⟩,
      ⟨.equals, "="⟩, ⟨.opening, "("⟩, ⟨.integer, [55]⟩, ⟨.closing, ")"⟩, ⟨.word, "in"⟩,
      ⟨.word, nameX.text⟩] := by
    rw [hsrc]
    refine .word (by decide) rfl (.blank (by decide) (.word nameX.word rfl ?_))
    refine .sign (s := ⟨.equals, "="⟩) (by decide) (.sign (s := ⟨.opening, "("⟩) (by decide) ?_)
    refine .integer (by decide) rfl (.sign (s := ⟨.closing, ")"⟩) (by decide) ?_)
    exact .word (by decide) rfl (.blank (by decide) (.word nameX.word rfl .nil))
  have hseven : Derives [⟨.integer, [55]⟩] (.lit () (some (.int 7))) :=
    .integer (by decide) (by decide) (by decide)
  exact ((parse_exact _).1 _).2 ⟨_, hl, .bind nameX rfl (.parens rfl hseven rfl) (.ident nameX)⟩

end LetIf.Source
