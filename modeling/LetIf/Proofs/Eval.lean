/-
What an evaluation has gone through: a conditional evaluates its condition to a boolean and then the
arm this picks, a binding its bound expression and then its body. A failure is that of the first part
that fails, or of a condition that comes to something else. Conditionals whose parts evaluate alike do
so too, since only the value of the condition is looked at.
-/
import LetIf.Eval
import LetIf.Proofs.Except

namespace LetIf.Expr

attribute [local simp] evaluateIn

variable {A : Type} {env : Env (Literal A)} {a : A} {l : Literal A}

theorem evaluateIn_var_eq_ok {x : Ident} :
    (Expr.var a x).evaluateIn env = .ok l ↔ env.get? x = some l := by
  rw [evaluateIn]
  rcases env.get? x with _ | l'
  · exact ⟨fun h => (nomatch h), fun h => (nomatch h)⟩
  · constructor
    · intro h; cases h; rfl
    · intro h; cases h; rfl

theorem evaluateIn_cond_eq_ok {c y n : Expr A} :
    (Expr.cond a c y n).evaluateIn env = .ok l ↔ ∃ lc b, c.evaluateIn env = .ok lc ∧
      lc.value = some (.bool b) ∧ (if b then y else n).evaluateIn env = .ok l := by
  rw [evaluateIn, bind_eq_ok]
  constructor
  · rintro ⟨lc, hc, h⟩
    split at h
    · rename_i hb; exact ⟨lc, true, hc, hb, h⟩
    · rename_i hb; exact ⟨lc, false, hc, hb, h⟩
    · cases h
  · rintro ⟨lc, b, hc, hb, h⟩
    refine ⟨lc, hc, ?_⟩
    rw [hb]
    cases b with
    | true => exact h
    | false => exact h

theorem evaluateIn_bind_eq_ok {x : Ident} {b k : Expr A} :
    (Expr.bind a x b k).evaluateIn env = .ok l ↔
      ∃ lb, b.evaluateIn env = .ok lb ∧ k.evaluateIn ((x, lb) :: env) = .ok l := by
  rw [evaluateIn, bind_eq_ok]

/-! ## Failures -/

variable {err : InternalError}

theorem evaluateIn_var_eq_error {x : Ident} :
    (Expr.var a x).evaluateIn env = .error err ↔ env.get? x = none ∧ err = .evaluateFree x := by
  rw [evaluateIn]
  cases env.get? x with
  | some l =>
    constructor
    · intro h; cases h
    · rintro ⟨h, -⟩; cases h
  | none =>
    constructor
    · intro h; cases h; exact ⟨rfl, rfl⟩
    · rintro ⟨-, rfl⟩; rfl

theorem evaluateIn_cond_eq_error {c y n : Expr A} :
    (Expr.cond a c y n).evaluateIn env = .error err ↔ c.evaluateIn env = .error err ∨
      ∃ lc, c.evaluateIn env = .ok lc ∧
        ((∀ b, lc.value ≠ some (.bool b)) ∧ err = .evaluateCondition lc.value ∨
          ∃ b, lc.value = some (.bool b) ∧ (if b then y else n).evaluateIn env = .error err) := by
  rw [evaluateIn, bind_eq_error]
  refine or_congr Iff.rfl (exists_congr fun lc => and_congr_right fun _ => ?_)
  constructor
  · intro h
    split at h
    · rename_i hb; exact .inr ⟨true, hb, h⟩
    · rename_i hb; exact .inr ⟨false, hb, h⟩
    · rename_i ht hf
      cases h
      refine .inl ⟨fun b => ?_, rfl⟩
      cases b with
      | true => exact ht
      | false => exact hf
  · rintro (⟨hb, rfl⟩ | ⟨b, hb, h⟩)
    · split
      · rename_i h; exact absurd h (hb true)
      · rename_i h; exact absurd h (hb false)
      · rfl
    · rw [hb]
      cases b with
      | true => exact h
      | false => exact h

theorem evaluateIn_bind_eq_error {x : Ident} {b k : Expr A} :
    (Expr.bind a x b k).evaluateIn env = .error err ↔ b.evaluateIn env = .error err ∨
      ∃ lb, b.evaluateIn env = .ok lb ∧ k.evaluateIn ((x, lb) :: env) = .error err := by
  rw [evaluateIn, bind_eq_error]

/-! ## Conditionals that are alike -/

theorem alike_evaluateIn_cond {B : Type} {R : Literal A → Literal B → Prop}
    (hR : ∀ l l', R l l' → l.value = l'.value) {env' : Env (Literal B)} {a' : B} {c y n : Expr A}
    {c' y' n' : Expr B} (hc : Alike Eq R (c.evaluateIn env) (c'.evaluateIn env'))
    (hy : Alike Eq R (y.evaluateIn env) (y'.evaluateIn env'))
    (hn : Alike Eq R (n.evaluateIn env) (n'.evaluateIn env')) :
    Alike Eq R ((Expr.cond a c y n).evaluateIn env) ((Expr.cond a' c' y' n').evaluateIn env') := by
  rw [evaluateIn, evaluateIn]
  refine hc.bind fun lc lc' h => ?_
  rw [hR lc lc' h]
  rcases lc'.value with _ | b | _
  · exact .error rfl
  · cases b with
    | true => exact hy
    | false => exact hn
  · exact .error rfl

/-! ## Values -/

theorem value_eq_ok {e : Expr A} {v : Value} :
    e.value = .ok v ↔ ∃ l, e.evaluate = .ok l ∧ l.value = some v := by
  simp only [value, bind_eq_ok, mapError_eq_ok]
  constructor
  · rintro ⟨l, hl, h⟩
    split at h
    · rename_i hv; cases h; exact ⟨l, hl, hv⟩
    · cases h
  · rintro ⟨l, hl, hv⟩
    exact ⟨l, hl, by rw [hv]; rfl⟩

end LetIf.Expr
