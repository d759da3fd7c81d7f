/-
Where a syntax error is reported. The reader of a language of tokens fails with an error at the token where
the text breaks down: what was taken before is the beginning of a text of the language, and what begins so
and goes on with that token is not. A reader of one token does, and so does one reader after another, if no
text of the first language is the beginning of another: then only one text of it can have been taken. By
induction on the tokens, so does the reader of expressions.
-/
import Mathlib.Computability.Language
import LetIf.Proofs.Source.Cutting
import LetIf.Proofs.Source.Derivation

namespace LetIf.Source

open Text

/-! ## Languages of tokens -/

/-- The texts of one token that satisfies `p`. -/
def one (p : Lexeme → Prop) : Language Lexeme := {ls | ∃ l, p l ∧ ls = [l]}

/-- The texts that derive an expression. -/
def exprs : Language Lexeme := {ls | ∃ t, Derives ls t}

/-- The texts of the sources that are read. -/
def programs : Language Lexeme := {ls | ∃ src e, parse src = .ok e ∧ Lexes src ls}

/-- No text of the language is the beginning of another. -/
def PrefixFree (L : Language Lexeme) : Prop := ∀ a ∈ L, ∀ b ∈ L, a <+: b → a = b

/-- Some text of the language can be cut from a source. -/
def Writable (L : Language Lexeme) : Prop := ∃ ls ∈ L, ∀ l ∈ ls, l.Valid

section Languages

variable {L M : Language Lexeme} {p : Lexeme → Prop} {a front later : List Lexeme}

theorem prefixFree_one : PrefixFree (one p) := by
  rintro _ ⟨l, _, rfl⟩ _ ⟨l', _, rfl⟩ h
  exact h.eq_of_length rfl

theorem writable_one {l : Lexeme} (hp : p l) (hl : l.Valid) : Writable (one p) :=
  ⟨[l], ⟨l, hp, rfl⟩, List.forall_mem_singleton.2 hl⟩

theorem Writable.mul (hL : Writable L) (hM : Writable M) : Writable (L * M) := by
  obtain ⟨a, ha, hva⟩ := hL
  obtain ⟨b, hb, hvb⟩ := hM
  exact ⟨a ++ b, Language.append_mem_mul ha hb, List.forall_mem_append.2 ⟨hva, hvb⟩⟩

theorem prefixFree_exprs : PrefixFree exprs := by
  rintro a ⟨t, ha⟩ _ ⟨t', hb⟩ ⟨rest, rfl⟩
  -- any places will do: the reader does not look at them
  let place (l : Lexeme) : Token := ⟨l.kind, l.text, .start⟩
  have hplace (ls : List Lexeme) : (ls.map place).map Token.lexeme = ls := by
    rw [List.map_map]
    exact List.map_id ls
  obtain ⟨_, _, _, hr, -, hrest⟩ := ha.expr (.endOfInput .start) (hplace (a ++ rest))
  obtain ⟨_, _, _, hr', -, hrest'⟩ := hb.expr (.endOfInput .start)
    ((hplace (a ++ rest)).trans (List.append_nil _).symm)
  cases hr.symm.trans hr'
  rw [hrest] at hrest'
  rw [hrest', List.append_nil]

theorem valid_true : Lexeme.Valid ⟨.word, "True"⟩ := .word (by decide)

theorem writable_exprs : Writable exprs := ⟨_, ⟨_, .trueWord⟩, List.forall_mem_singleton.2 valid_true⟩

/-! ## Breaking down -/

/-- `front` is the beginning of a text of the language, and with the first token of `later` behind it, or
with nothing if there is none, it does not begin with a text of the language nor is it the beginning of one. -/
structure Breaks (L : Language Lexeme) (front later : List Lexeme) : Prop where
  viable : ∃ more, (∀ l ∈ more, l.Valid) ∧ front ++ more ∈ L
  wrong : ∀ more, more.head? = later.head? → ∀ ls ∈ L, ¬ ls <+: front ++ more

theorem breaks_one {l : Lexeme} (hp : p l) (hl : l.Valid) (hlater : ∀ l' rest, later = l' :: rest → ¬ p l') :
    Breaks (one p) [] later := by
  refine ⟨⟨[l], List.forall_mem_singleton.2 hl, l, hp, rfl⟩, ?_⟩
  rintro more hmore _ ⟨l', hp', rfl⟩ hpre
  obtain ⟨rest, rfl⟩ := hpre
  cases later with
  | nil => cases hmore
  | cons l'' later =>
    cases hmore
    exact hlater _ _ rfl hp'

theorem Breaks.mul_right (h : Breaks L front later) (hM : Writable M) : Breaks (L * M) front later := by
  obtain ⟨more, hmore, hL⟩ := h.viable
  obtain ⟨m, hm, hv⟩ := hM
  refine ⟨⟨more ++ m, List.forall_mem_append.2 ⟨hmore, hv⟩, ?_⟩, ?_⟩
  · rw [← List.append_assoc]
    exact Language.append_mem_mul hL hm
  · rintro more hhead _ hls hpre
    obtain ⟨a, ha, b, -, rfl⟩ := Language.mem_mul.1 hls
    exact h.wrong more hhead a ha ((List.prefix_append a b).trans hpre)

theorem Breaks.mul_left (h : Breaks M front later) (hL : PrefixFree L) (ha : a ∈ L) :
    Breaks (L * M) (a ++ front) later := by
  obtain ⟨more, hmore, hM⟩ := h.viable
  refine ⟨⟨more, hmore, ?_⟩, ?_⟩
  · rw [List.append_assoc]
    exact Language.append_mem_mul ha hM
  · rintro more hhead _ hls hpre
    obtain ⟨a', ha', b, hb, rfl⟩ := Language.mem_mul.1 hls
    rw [List.append_assoc] at hpre
    -- both texts of `L` are at the beginning of the same tokens
    have haa : a = a' := by
      obtain h | h := List.prefix_or_prefix_of_prefix (List.prefix_append a _)
        ((List.prefix_append a' b).trans hpre)
      · exact hL a ha a' ha' h
      · exact (hL a' ha' a ha h).symm
    subst haa
    exact h.wrong more hhead b hb ((List.prefix_append_right_inj a).1 hpre)

end Languages

/-! ## Readers that fail where the tokens break down -/

/-- The error is reported at the first of these tokens, or at what ends them. -/
inductive ReportedAt : Ending → List Token → SyntaxError → Prop
  | token {ending : Ending} {t : Token} {later : List Token} {err : SyntaxError} (h : err.pos = t.pos) :
      ReportedAt ending (t :: later) err
  | endOfInput {pos : Position} {err : SyntaxError} (h : err.pos = pos) : ReportedAt (.endOfInput pos) [] err
  | fault {err : SyntaxError} : ReportedAt (.fault err) [] err

/-- The error is reported where the tokens break down as a text of the language. -/
def Fails (ending : Ending) (L : Language Lexeme) (ts : List Token) (err : SyntaxError) : Prop :=
  ∃ front later, ts = front ++ later ∧ ReportedAt ending later err ∧
    Breaks L (front.map Token.lexeme) (later.map Token.lexeme)

/-- What is read are texts of the language, and where none is there, reading fails as it should. -/
structure Reads {α : Type} {before : List Token} (ending : Ending) (L : Language Lexeme) (ts : List Token)
    (x : Except SyntaxError (Read α before)) : Prop where
  ok : ∀ a rest h, x = .ok ⟨a, rest, h⟩ → ∃ front, ts = front ++ rest ∧ front.map Token.lexeme ∈ L
  error : ∀ err, x = .error err → Fails ending L ts err

section Readers

variable {ending : Ending} {L M : Language Lexeme} {t : Token} {ts before : List Token} {err : SyntaxError}
  {α β : Type} {x : Except SyntaxError (Read α before)} {f : Read α before → Except SyntaxError β}

theorem reportedAt_unexpected (wanted : Wanted) : ReportedAt ending ts (unexpected ending wanted ts) := by
  cases ts with
  | cons t ts => exact .token rfl
  | nil =>
    cases ending with
    | endOfInput pos => exact .endOfInput rfl
    | fault e => exact .fault

theorem fails_one {p : Lexeme → Prop} {l : Lexeme} (hp : p l) (hl : l.Valid) (herr : ReportedAt ending ts err)
    (hts : ∀ t rest, ts = t :: rest → ¬ p t.lexeme) : Fails ending (one p) ts err := by
  refine ⟨[], ts, rfl, herr, breaks_one hp hl fun l' rest hmap => ?_⟩
  obtain ⟨t, rest, rfl, rfl, -⟩ := List.map_eq_cons_iff.1 hmap
  exact hts t rest rfl

/-- One reader after another. -/
theorem Reads.fails_bind (hx : Reads ending L ts x) (hL : PrefixFree L) (hM : Writable M)
    (hf : ∀ a rest h, f ⟨a, rest, h⟩ = .error err → Fails ending M rest err) (h : x >>= f = .error err) :
    Fails ending (L * M) ts err := by
  obtain h | ⟨⟨_, rest, hlt⟩, hr, h⟩ := bind_eq_error.1 h
  · obtain ⟨front, later, hts, herr, hbreaks⟩ := hx.error err h
    exact ⟨front, later, hts, herr, hbreaks.mul_right hM⟩
  · obtain ⟨taken, rfl, htaken⟩ := hx.ok _ rest hlt hr
    obtain ⟨front, later, rfl, herr, hbreaks⟩ := hf _ rest hlt h
    refine ⟨taken ++ front, later, by rw [List.append_assoc], herr, ?_⟩
    rw [List.map_append]
    exact hbreaks.mul_left hL htaken

/-- A reader whose result is only put into a form. -/
theorem Reads.fails_last (hx : Reads ending L ts x) (hf : ∀ a rest h, ∃ b, f ⟨a, rest, h⟩ = .ok b)
    (h : x >>= f = .error err) :
    Fails ending L ts err := by
  obtain h | ⟨⟨a, rest, hlt⟩, -, h⟩ := bind_eq_error.1 h
  · exact hx.error err h
  · obtain ⟨b, hb⟩ := hf a rest hlt
    cases hb.symm.trans h

end Readers

/-! ## Single tokens -/

section Tokens

variable {ending : Ending} {t : Token} {ts : List Token} {err : SyntaxError}

theorem reads_take {p : Lexeme → Prop} {q : Token → Bool} {l : Lexeme} (hq : ∀ t, q t = true ↔ p t.lexeme)
    (hp : p l) (hl : l.Valid) (wanted : Wanted) : Reads ending (one p) ts (take ending wanted q ts) := by
  constructor
  · intro t rest hlt h
    obtain ⟨rfl, ht⟩ := take_eq_ok.1 h
    exact ⟨[t], rfl, t.lexeme, (hq t).1 ht, rfl⟩
  · intro err h
    cases ts with
    | nil =>
      cases h
      refine fails_one hp hl (reportedAt_unexpected wanted) fun t rest hts => ?_
      cases hts
    | cons t ts =>
      rw [take] at h
      split at h
      · cases h
      case isFalse ht =>
        cases h
        refine fails_one hp hl (reportedAt_unexpected wanted) ?_
        rintro _ _ hts hpt
        cases hts
        exact ht ((hq t).2 hpt)

theorem reads_kind {k : Token.Kind} {l : Lexeme} (hk : l.kind = k) (hl : l.Valid) (wanted : Wanted) :
    Reads ending (one fun l => l.kind = k) ts (take ending wanted (fun t => t.kind = k) ts) :=
  reads_take (fun _ => decide_eq_true_iff) hk hl wanted

theorem reads_keyword {w : Text} (hw : isWord w = true) :
    Reads ending (one fun l => l = ⟨.word, w⟩) ts (takeKeyword ending w ts) := by
  refine reads_take (p := fun l => l = ⟨.word, w⟩) (fun t => ?_) rfl (.word hw) _
  simp only [Bool.and_eq_true, decide_eq_true_eq, beq_iff_eq, Token.lexeme, Lexeme.mk.injEq]

/-- Words that can name something. -/
def IsName (l : Lexeme) : Prop := ∃ x : Ident, l = ⟨.word, x.text⟩

theorem isName_x : IsName ⟨.word, nameX.text⟩ := ⟨nameX, rfl⟩

theorem valid_x : Lexeme.Valid ⟨.word, nameX.text⟩ := .word nameX.word

theorem pos_of_identOf (h : identOf t = .error err) : err.pos = t.pos := by
  unfold identOf at h
  split at h <;> cases h <;> rfl

theorem pos_of_intOf (h : intOf t = .error err) : err.pos = t.pos := by
  unfold intOf at h
  split at h
  · cases h; rfl
  · dsimp only at h
    split at h <;> cases h
    rfl

theorem reads_ident : Reads ending (one IsName) ts (takeIdent ending ts) := by
  constructor
  · intro x rest hlt h
    obtain ⟨t, rfl, ht⟩ := takeIdent_eq_ok.1 h
    exact ⟨[t], rfl, t.lexeme, ⟨x, ht⟩, rfl⟩
  · intro err h
    have hnone (t : Token) (rest : List Token) (hts : ts = t :: rest) : ¬ IsName t.lexeme := by
      rintro ⟨x, hx⟩
      subst hts
      cases ((takeIdent_eq_ok (h := Read.tail_lt)).2 ⟨t, rfl, hx⟩).symm.trans h
    refine fails_one isName_x valid_x ?_ hnone
    obtain h | ⟨⟨t, rest, hlt⟩, ht, h⟩ := bind_eq_error.1 h
    · cases ts with
      | nil => cases h; exact reportedAt_unexpected _
      | cons t ts =>
        rw [take] at h
        split at h <;> cases h
        exact reportedAt_unexpected _
    · obtain ⟨rfl, -⟩ := take_eq_ok.1 ht
      obtain h | ⟨x, -, h⟩ := bind_eq_error.1 h
      · exact .token (pos_of_identOf h)
      · cases h

end Tokens

/-! ## Expressions -/

section Expressions

/-- The expressions of one token. -/
def IsAtom (l : Lexeme) : Prop := ∃ t, Derives [l] t

/-- The parts of an expression behind its first token, by that token. -/
def inParens : Language Lexeme := exprs * one fun l => l.kind = .closing

def conditional : Language Lexeme :=
  exprs * (one (fun l => l = ⟨.word, "then"⟩) * (exprs * (one (fun l => l = ⟨.word, "else"⟩) * exprs)))

def binding : Language Lexeme :=
  one IsName * (one (fun l => l.kind = .equals) * (exprs * (one (fun l => l = ⟨.word, "in"⟩) * exprs)))

variable {ending : Ending} {t : Token} {ts : List Token} {err : SyntaxError} {a : List Lexeme}

theorem mem_one_mul {p : Lexeme → Prop} {L : Language Lexeme} :
    a ∈ one p * L ↔ ∃ l rest, p l ∧ rest ∈ L ∧ a = l :: rest := by
  rw [Language.mem_mul]
  constructor
  · rintro ⟨_, ⟨l, hp, rfl⟩, rest, hrest, rfl⟩
    exact ⟨l, rest, hp, hrest, rfl⟩
  · rintro ⟨l, rest, hp, hrest, rfl⟩
    exact ⟨[l], ⟨l, hp, rfl⟩, rest, hrest, rfl⟩

/-- An expression is an atom, or its first token tells what comes behind. -/
theorem mem_exprs : a ∈ exprs ↔ ∃ l rest, a = l :: rest ∧ (IsAtom l ∧ rest = [] ∨
    l.kind = .opening ∧ rest ∈ inParens ∨ l = ⟨.word, "if"⟩ ∧ rest ∈ conditional ∨
    l = ⟨.word, "let"⟩ ∧ rest ∈ binding) := by
  constructor
  · rintro ⟨t, h⟩
    cases h with
    | integer hlen hmax hn => exact ⟨_, _, rfl, .inl ⟨⟨_, .integer hlen hmax hn⟩, rfl⟩⟩
    | trueWord => exact ⟨_, _, rfl, .inl ⟨⟨_, .trueWord⟩, rfl⟩⟩
    | falseWord => exact ⟨_, _, rfl, .inl ⟨⟨_, .falseWord⟩, rfl⟩⟩
    | ident x => exact ⟨_, _, rfl, .inl ⟨⟨_, .ident x⟩, rfl⟩⟩
    | @parens o c ls t ho h hc =>
      exact ⟨o, ls ++ [c], rfl, .inr (.inl ⟨ho, Language.append_mem_mul ⟨t, h⟩ ⟨c, hc, rfl⟩⟩)⟩
    | @cond cs ys ns c y n hc hy hn =>
      refine ⟨_, cs ++ (⟨.word, "then"⟩ :: (ys ++ (⟨.word, "else"⟩ :: ns))), by simp, .inr (.inr (.inl ⟨rfl, ?_⟩))⟩
      refine Language.append_mem_mul ⟨c, hc⟩ (mem_one_mul.2 ⟨_, _, rfl, ?_, rfl⟩)
      exact Language.append_mem_mul ⟨y, hy⟩ (mem_one_mul.2 ⟨_, _, rfl, ⟨n, hn⟩, rfl⟩)
    | @bind q bs ks b k x hq hb hk =>
      refine ⟨_, ⟨.word, x.text⟩ :: q :: (bs ++ (⟨.word, "in"⟩ :: ks)), by simp, .inr (.inr (.inr ⟨rfl, ?_⟩))⟩
      refine mem_one_mul.2 ⟨_, _, ⟨x, rfl⟩, mem_one_mul.2 ⟨q, _, hq, ?_, rfl⟩, rfl⟩
      exact Language.append_mem_mul ⟨b, hb⟩ (mem_one_mul.2 ⟨_, _, rfl, ⟨k, hk⟩, rfl⟩)
  · rintro ⟨l, rest, rfl, ⟨hl, rfl⟩ | ⟨hl, hrest⟩ | ⟨rfl, hrest⟩ | ⟨rfl, hrest⟩⟩
    · exact hl
    · obtain ⟨ls, ⟨t, h⟩, _, ⟨c, hc, rfl⟩, rfl⟩ := Language.mem_mul.1 hrest
      exact ⟨t, .parens hl h hc⟩
    · obtain ⟨cs, ⟨c, hc⟩, _, hthen, rfl⟩ := Language.mem_mul.1 hrest
      obtain ⟨_, _, rfl, hyes, rfl⟩ := mem_one_mul.1 hthen
      obtain ⟨ys, ⟨y, hy⟩, _, helse, rfl⟩ := Language.mem_mul.1 hyes
      obtain ⟨_, ns, rfl, ⟨n, hn⟩, rfl⟩ := mem_one_mul.1 helse
      exact ⟨_, by simpa using Derives.cond hc hy hn⟩
    · obtain ⟨_, _, ⟨x, rfl⟩, hequals, rfl⟩ := mem_one_mul.1 hrest
      obtain ⟨q, _, hq, hbound, rfl⟩ := mem_one_mul.1 hequals
      obtain ⟨bs, ⟨b, hb⟩, _, hin, rfl⟩ := Language.mem_mul.1 hbound
      obtain ⟨_, ks, rfl, ⟨k, hk⟩, rfl⟩ := mem_one_mul.1 hin
      exact ⟨_, by simpa using Derives.bind x hq hb hk⟩

/-- An atom is none of the tokens that something comes behind. -/
theorem IsAtom.alone {l : Lexeme} (h : IsAtom l) :
    l.kind ≠ .opening ∧ l ≠ ⟨.word, "if"⟩ ∧ l ≠ ⟨.word, "let"⟩ := by
  obtain ⟨t, h⟩ := h
  generalize hls : [l] = ls at h
  cases h with
  | integer =>
    cases hls
    refine ⟨fun h => ?_, fun h => ?_, fun h => ?_⟩ <;> cases h
  | trueWord => cases hls; decide
  | falseWord => cases hls; decide
  | ident x =>
    cases hls
    have hfree := x.free
    simp only [reservedWords, List.mem_cons, not_or] at hfree
    obtain ⟨-, -, hif, -, -, hlet, -⟩ := hfree
    refine ⟨fun h => ?_, fun h => hif (Lexeme.mk.inj h).2, fun h => hlet (Lexeme.mk.inj h).2⟩
    cases h
  | parens => simp at hls
  | cond => simp at hls
  | bind => simp at hls

theorem cons_mem_exprs_of_opening {l : Lexeme} (hl : l.kind = .opening) : l :: a ∈ exprs ↔ a ∈ inParens := by
  rw [mem_exprs]
  constructor
  · rintro ⟨_, _, heq, ⟨hatom, -⟩ | ⟨-, ha⟩ | ⟨rfl, -⟩ | ⟨rfl, -⟩⟩ <;> cases heq
    · exact absurd hl hatom.alone.1
    · exact ha
    · cases hl
    · cases hl
  · exact fun ha => ⟨l, a, rfl, .inr (.inl ⟨hl, ha⟩)⟩

theorem cons_mem_exprs_of_if : ⟨.word, "if"⟩ :: a ∈ exprs ↔ a ∈ conditional := by
  rw [mem_exprs]
  constructor
  · rintro ⟨_, _, heq, ⟨hatom, -⟩ | ⟨hl, -⟩ | ⟨-, ha⟩ | ⟨hl, -⟩⟩ <;> cases heq
    · exact absurd rfl hatom.alone.2.1
    · cases hl
    · exact ha
    · exact absurd hl (by decide)
  · exact fun ha => ⟨_, a, rfl, .inr (.inr (.inl ⟨rfl, ha⟩))⟩

theorem cons_mem_exprs_of_let : ⟨.word, "let"⟩ :: a ∈ exprs ↔ a ∈ binding := by
  rw [mem_exprs]
  constructor
  · rintro ⟨_, _, heq, ⟨hatom, -⟩ | ⟨hl, -⟩ | ⟨hl, -⟩ | ⟨-, ha⟩⟩ <;> cases heq
    · exact absurd rfl hatom.alone.2.2
    · cases hl
    · exact absurd hl (by decide)
    · exact ha
  · exact fun ha => ⟨_, a, rfl, .inr (.inr (.inr ⟨rfl, ha⟩))⟩

/-- The tokens break down behind their first one, where the rest of an expression that it starts does. -/
theorem Fails.cons {K : Language Lexeme} (hK : ∀ a, t.lexeme :: a ∈ exprs ↔ a ∈ K) (h : Fails ending K ts err) :
    Fails ending exprs (t :: ts) err := by
  obtain ⟨front, later, rfl, herr, ⟨more, hmore, hviable⟩, hwrong⟩ := h
  refine ⟨t :: front, later, rfl, herr, ⟨more, hmore, (hK _).2 hviable⟩, fun more hhead a ha hpre => ?_⟩
  obtain ⟨l, rest, rfl, -⟩ := mem_exprs.1 ha
  rw [List.map_cons, List.cons_append, List.cons_prefix_cons] at hpre
  obtain ⟨rfl, hpre⟩ := hpre
  exact hwrong more hhead rest ((hK rest).1 ha) hpre

/-- The tokens break down at once, if no expression starts with the first. -/
theorem fails_at_first (hts : ∀ t rest, ts = t :: rest → ∀ a, t.lexeme :: a ∉ exprs)
    (herr : ReportedAt ending ts err) : Fails ending exprs ts err := by
  obtain ⟨ls, hls, hvalid⟩ := writable_exprs
  refine ⟨[], ts, rfl, herr, ⟨ls, hvalid, hls⟩, fun more hhead a ha hpre => ?_⟩
  obtain ⟨l, rest, rfl, -⟩ := mem_exprs.1 ha
  obtain ⟨rest', rfl⟩ := hpre
  cases ts with
  | nil => cases hhead
  | cons t ts =>
    cases hhead
    exact hts t ts rfl rest ha

/-- A token that is refused, though nothing need come behind it, starts no expression. -/
theorem fails_atom (hopening : t.kind ≠ .opening) (hif : t.lexeme ≠ ⟨.word, "if"⟩)
    (hlet : t.lexeme ≠ ⟨.word, "let"⟩) (h : expr ending (t :: ts) = .error err) (herr : err.pos = t.pos) :
    Fails ending exprs (t :: ts) err := by
  refine fails_at_first (fun t' rest hts a ha => ?_) (.token herr)
  cases hts
  obtain ⟨_, _, heq, ⟨⟨e, hd⟩, -⟩ | ⟨hl, -⟩ | ⟨hl, -⟩ | ⟨hl, -⟩⟩ := mem_exprs.1 ha <;> cases heq
  · obtain ⟨_, _, _, hok, -⟩ := hd.expr ending (List.map_cons ..)
    cases hok.symm.trans h
  · exact hopening hl
  · exact hif hl
  · exact hlet hl

theorem valid_closing : Lexeme.Valid ⟨.closing, ")"⟩ := .sign (by decide)

theorem valid_equals : Lexeme.Valid ⟨.equals, "="⟩ := .sign (by decide)

theorem fails_parens (ih : Reads ending exprs ts (expr ending ts)) (ht : t.kind = .opening)
    (h : expr ending (t :: ts) = .error err) : Fails ending exprs (t :: ts) err := by
  obtain ⟨kind, w, pos⟩ := t
  cases ht
  rw [expr] at h
  refine Fails.cons (fun a => cons_mem_exprs_of_opening rfl) ?_
  refine ih.fails_bind prefixFree_exprs (writable_one rfl valid_closing) ?_ h
  intro e r₁ h₁ h
  refine (reads_kind rfl valid_closing _).fails_last ?_ h
  exact fun _ _ _ => ⟨_, rfl⟩

theorem fails_cond (ih : ∀ ts' : List Token, ts'.length ≤ ts.length → Reads ending exprs ts' (expr ending ts'))
    (ht : t.lexeme = ⟨.word, "if"⟩) (h : expr ending (t :: ts) = .error err) :
    Fails ending exprs (t :: ts) err := by
  refine Fails.cons (fun a => by rw [ht]; exact cons_mem_exprs_of_if) ?_
  obtain ⟨kind, w, pos⟩ := t
  cases ht
  rw [expr] at h
  dsimp only at h
  rw [if_neg (by decide), if_neg (by decide), if_pos (by decide)] at h
  have hthen : Writable (one fun l => l = ⟨.word, "then"⟩) := writable_one rfl (.word (by decide))
  have helse : Writable (one fun l => l = ⟨.word, "else"⟩) := writable_one rfl (.word (by decide))
  refine (ih ts (Nat.le_refl _)).fails_bind prefixFree_exprs
    (hthen.mul (writable_exprs.mul (helse.mul writable_exprs))) ?_ h
  intro c r₁ h₁ h
  refine (reads_keyword (by decide)).fails_bind prefixFree_one (writable_exprs.mul (helse.mul writable_exprs)) ?_ h
  intro _ r₂ h₂ h
  refine (ih r₂ (by omega)).fails_bind prefixFree_exprs (helse.mul writable_exprs) ?_ h
  intro y r₃ h₃ h
  refine (reads_keyword (by decide)).fails_bind prefixFree_one writable_exprs ?_ h
  intro _ r₄ h₄ h
  refine (ih r₄ (by omega)).fails_last ?_ h
  exact fun _ _ _ => ⟨_, rfl⟩

theorem fails_let (ih : ∀ ts' : List Token, ts'.length ≤ ts.length → Reads ending exprs ts' (expr ending ts'))
    (ht : t.lexeme = ⟨.word, "let"⟩) (h : expr ending (t :: ts) = .error err) :
    Fails ending exprs (t :: ts) err := by
  refine Fails.cons (fun a => by rw [ht]; exact cons_mem_exprs_of_let) ?_
  obtain ⟨kind, w, pos⟩ := t
  cases ht
  rw [expr] at h
  dsimp only at h
  rw [if_neg (by decide), if_neg (by decide), if_neg (by decide), if_pos (by decide)] at h
  have hequals : Writable (one fun l => l.kind = .equals) := writable_one rfl valid_equals
  have hin : Writable (one fun l => l = ⟨.word, "in"⟩) := writable_one rfl (.word (by decide))
  refine reads_ident.fails_bind prefixFree_one
    (hequals.mul (writable_exprs.mul (hin.mul writable_exprs))) ?_ h
  intro x r₁ h₁ h
  refine (reads_kind rfl valid_equals _).fails_bind prefixFree_one
    (writable_exprs.mul (hin.mul writable_exprs)) ?_ h
  intro _ r₂ h₂ h
  refine (ih r₂ (by omega)).fails_bind prefixFree_exprs (hin.mul writable_exprs) ?_ h
  intro b r₃ h₃ h
  refine (reads_keyword (by decide)).fails_bind prefixFree_one writable_exprs ?_ h
  intro _ r₄ h₄ h
  refine (ih r₄ (by omega)).fails_last ?_ h
  exact fun _ _ _ => ⟨_, rfl⟩

/-- Any other first token is refused at its own place, if at all. -/
theorem pos_of_expr (hopening : t.kind ≠ .opening) (hif : t.lexeme ≠ ⟨.word, "if"⟩)
    (hlet : t.lexeme ≠ ⟨.word, "let"⟩) (h : expr ending (t :: ts) = .error err) : err.pos = t.pos := by
  obtain ⟨kind, w, pos⟩ := t
  rw [expr] at h
  cases kind with
  | opening => exact absurd rfl hopening
  | integer =>
    obtain h | ⟨v, -, h⟩ := bind_eq_error.1 h
    · exact pos_of_intOf h
    · cases h
  | word =>
    have hif : w ≠ "if" := fun hw => hif (by rw [hw]; rfl)
    have hlet : w ≠ "let" := fun hw => hlet (by rw [hw]; rfl)
    simp only [beq_iff_eq, hif, hlet, if_false] at h
    split at h
    · cases h
    split at h
    · cases h
    obtain h | ⟨x, -, h⟩ := bind_eq_error.1 h
    · exact pos_of_identOf h
    · cases h
  | endOfInput | equals | closing => cases h; rfl

theorem reads_expr (ending : Ending) (ts : List Token) : Reads ending exprs ts (expr ending ts) := by
  induction hn : ts.length using Nat.strong_induction_on generalizing ts with
  | _ n ih =>
    constructor
    · intro e rest hlt h
      obtain ⟨front, hts, hd⟩ := derives_of_expr h
      exact ⟨front, hts, _, hd⟩
    · intro err h
      cases ts with
      | nil =>
        rw [expr] at h
        cases h
        refine fails_at_first (fun t rest hts => ?_) (reportedAt_unexpected _)
        cases hts
      | cons t ts =>
        have ih (ts' : List Token) (hts' : ts'.length ≤ ts.length) : Reads ending exprs ts' (expr ending ts') :=
          ih _ (by rw [← hn, List.length_cons]; omega) ts' rfl
        by_cases hopening : t.kind = .opening
        · exact fails_parens (ih ts (Nat.le_refl _)) hopening h
        by_cases hif : t.lexeme = ⟨.word, "if"⟩
        · exact fails_cond ih hif h
        by_cases hlet : t.lexeme = ⟨.word, "let"⟩
        · exact fails_let ih hlet h
        exact fails_atom hopening hif hlet h (pos_of_expr hopening hif hlet h)

end Expressions

/-! ## Whole sources -/

theorem Lexes.valid {src : Text} {ls : List Lexeme} (h : Lexes src ls) : ∀ l ∈ ls, l.Valid := by
  induction h with
  | nil => exact List.forall_mem_nil _
  | blank _ _ ih => exact ih
  | sign hs _ ih => exact List.forall_mem_cons.2 ⟨.sign hs, ih⟩
  | integer hd _ _ ih => exact List.forall_mem_cons.2 ⟨.integer hd, ih⟩
  | word hw _ _ ih => exact List.forall_mem_cons.2 ⟨.word hw, ih⟩

/-- Blanks between them keep any tokens apart. -/
theorem exists_lexes {ls : List Lexeme} (h : ∀ l ∈ ls, l.Valid) : ∃ src, Lexes src ls := by
  induction ls with
  | nil => exact ⟨[], .nil⟩
  | cons l ls ih =>
    obtain ⟨hl, hls⟩ := List.forall_mem_cons.1 h
    obtain ⟨src, hsrc⟩ := ih hls
    exact ⟨l.text ++ 32 :: src, hl.lexes (.inr rfl) (.blank (by decide) hsrc)⟩

theorem mem_programs {ls : List Lexeme} : ls ∈ programs ↔ ls ∈ exprs ∧ ∀ l ∈ ls, l.Valid := by
  constructor
  · rintro ⟨src, e, he, hlexes⟩
    obtain ⟨ls', hlexes', hd⟩ := parse_iff.1 ⟨e, he, rfl⟩
    cases hlexes.unique hlexes'
    exact ⟨⟨_, hd⟩, hlexes.valid⟩
  · rintro ⟨⟨t, hd⟩, hvalid⟩
    obtain ⟨src, hlexes⟩ := exists_lexes hvalid
    obtain ⟨e, he, -⟩ := parse_iff.2 ⟨ls, hlexes, hd⟩
    exact ⟨src, e, he, hlexes⟩

/-- The tokens `front` can be completed, and nothing goes on behind them with the first token of `later`, nor,
where this is the end of the source, ends there. -/
structure Earliest (front later : List Lexeme) (ending : Ending) : Prop where
  viable : ∃ more, (∀ l ∈ more, l.Valid) ∧ front ++ more ∈ exprs
  wrong : ∀ l rest, later = l :: rest → ∀ more, front ++ l :: more ∉ exprs
  wrongEnd : ∀ pos, later = [] → ending = .endOfInput pos → front ∉ exprs

theorem Breaks.earliest {front later : List Lexeme} (h : Breaks exprs front later) (ending : Ending) :
    Earliest front later ending where
  viable := h.viable
  wrong := by
    rintro l rest rfl more hmem
    exact h.wrong (l :: more) rfl _ hmem (List.prefix_refl _)
  wrongEnd := by
    rintro pos rfl - hmem
    exact h.wrong [] rfl _ hmem (List.prefix_append _ _)

theorem earliest_of_exprOfTokens {ts : Tokens} {err : SyntaxError} (h : exprOfTokens ts = .error err) :
    ∃ front later, ts.list = front ++ later ∧ ReportedAt ts.ending later err ∧
      Earliest (front.map Token.lexeme) (later.map Token.lexeme) ts.ending := by
  obtain ⟨list, ending⟩ := ts
  have hreads := reads_expr ending list
  obtain h | ⟨⟨e, rest, hlt⟩, hok, h⟩ := bind_eq_error.1 h
  · obtain ⟨front, later, hts, herr, hbreaks⟩ := hreads.error err h
    exact ⟨front, later, hts, herr, hbreaks.earliest ending⟩
  · -- what was taken is an expression, so nothing may stand behind it
    obtain ⟨front, hts, hfront⟩ := hreads.ok e rest hlt hok
    refine ⟨front, rest, hts, ?_, ⟨[], List.forall_mem_nil _, by rwa [List.append_nil]⟩,
      fun l later _ more hmem => ?_, fun pos hrest hend => ?_⟩
    · cases rest with
      | cons t rest => cases h; exact .token rfl
      | nil =>
        cases ending with
        | endOfInput pos => cases h
        | fault err => cases h; exact .fault
    · have heq := prefixFree_exprs _ hfront _ hmem (List.prefix_append _ _)
      simp at heq
    · rw [List.map_eq_nil_iff] at hrest
      subst hrest hend
      cases h

/-- What is reported behind the text `before`, which is cut into `front`: a token with which no program goes
on behind these, the end of the source, which is no end of a program, a byte that belongs to no token, or a
letter right behind an integer. -/
inductive Offends (before : Text) (front : List Lexeme) : Text → SyntaxError → Prop
  | token {l : Lexeme} {rest : Text} {err : SyntaxError} (hl : l.Valid)
      (hend : l ∈ signs ∨ startsInWord rest = false) (hpos : err.pos = .behind before)
      (hwrong : ∀ more, front ++ l :: more ∉ programs) : Offends before front (l.text ++ rest) err
  | endOfInput {err : SyntaxError} (hpos : err.pos = .behind before) (hwrong : front ∉ programs) :
      Offends before front [] err
  | badByte {b : UInt8} {rest : Text} (hspace : isSpace b = false) (hsign : sign? b = none)
      (hword : isLetter b = false ∧ isDigit b = false) :
      Offends before front (b :: rest) ⟨.unexpectedByte b, .behind before⟩
  | badInteger {digits rest : Text} (hd : isNumeral digits = true) (hend : startsInWord rest = true) :
      Offends before front (digits ++ rest) ⟨.letterInInteger, .behind (before ++ digits)⟩

end LetIf.Source
