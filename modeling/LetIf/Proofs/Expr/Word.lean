/-
The meaning of expressions in machine words: a literal is its word, and a condition holds when its
word is not zero. It asks for no types. Where evaluation succeeds, the word of an expression is the
word of its value.
-/
import LetIf.Proofs.Eval
import LetIf.Proofs.Expr.Basic

namespace LetIf

namespace Expr

variable {A : Type}

/-- The word that an expression comes to, where the variables around it stand for `words`. -/
def wordIn (words : Env Int32) : Expr A → Option Int32
  | .lit _ v => v.map Value.word
  | .var _ x => words.get? x
  | .cond _ c y n => do
    let w ← c.wordIn words
    if w ≠ 0 then y.wordIn words else n.wordIn words
  | .bind _ x b k => do
    let w ← b.wordIn words
    k.wordIn ((x, w) :: words)
  | .hole => none

/-- The word of a closed expression. -/
def word (e : Expr A) : Option Int32 := e.wordIn []

theorem wordIn_cond {words : Env Int32} {a : A} {c y n : Expr A} {w : Int32} (hc : c.wordIn words = some w) :
    (Expr.cond a c y n).wordIn words = if w ≠ 0 then y.wordIn words else n.wordIn words := by
  rw [wordIn, hc]; rfl

/-- The word of a boolean picks the arm that the boolean picks. -/
theorem wordIn_cond_bool {words : Env Int32} {a : A} {c y n : Expr A} {b : Bool}
    (hc : c.wordIn words = some (Value.bool b).word) :
    (Expr.cond a c y n).wordIn words = (if b then y else n).wordIn words := by
  rw [wordIn_cond hc]
  cases b <;> rfl

theorem wordIn_bind {words : Env Int32} {a : A} {x : Ident} {b k : Expr A} {w : Int32}
    (hb : b.wordIn words = some w) : (Expr.bind a x b k).wordIn words = k.wordIn ((x, w) :: words) := by
  rw [wordIn, hb]; rfl

/-! ## Words of values -/

/-- What a variable stands for in `env` has a value, whose word stands in `words`. -/
def Renders (env : Env (Literal A)) (words : Env Int32) : Prop :=
  Env.Rel (fun l w => ∃ v, l.value = some v ∧ v.word = w) env words

theorem Renders.cons {env : Env (Literal A)} {words : Env Int32} (h : Renders env words) {l : Literal A}
    {v : Value} (hv : l.value = some v) (x : Ident) : Renders ((x, l) :: env) ((x, v.word) :: words) :=
  Env.Rel.cons h ⟨v, hv, rfl⟩ x

/-- An expression that evaluates to a literal comes to the word of its value. -/
theorem wordIn_of_evaluateIn :
    ∀ {e : Expr A} {env : Env (Literal A)} {words : Env Int32} {l : Literal A}, e.isValued = true →
      Renders env words → e.evaluateIn env = .ok l → ∃ v, l.value = some v ∧ e.wordIn words = some v.word
  | .lit a v, env, words, l, hv, _, h => by
    rw [evaluateIn] at h
    cases h
    obtain ⟨v, rfl⟩ := Option.isSome_iff_exists.1 hv
    exact ⟨v, rfl, rfl⟩
  | .var a x, env, words, l, _, hr, h => by
    obtain ⟨_, hw, v, hv, rfl⟩ := hr x l (evaluateIn_var_eq_ok.1 h)
    exact ⟨v, hv, hw⟩
  | .cond a c y n, env, words, l, hv, hr, h => by
    obtain ⟨hvc, hvy, hvn⟩ := isValued_cond.1 hv
    obtain ⟨lc, b, hc, hb, h⟩ := evaluateIn_cond_eq_ok.1 h
    obtain ⟨vc, hvc, hwc⟩ := wordIn_of_evaluateIn hvc hr hc
    rw [hb] at hvc
    cases hvc
    rw [wordIn_cond_bool hwc]
    cases b with
    | true => exact wordIn_of_evaluateIn hvy hr h
    | false => exact wordIn_of_evaluateIn hvn hr h
  | .bind a x b k, env, words, l, hv, hr, h => by
    obtain ⟨hvb, hvk⟩ := isValued_bind.1 hv
    obtain ⟨lb, hb, h⟩ := evaluateIn_bind_eq_ok.1 h
    obtain ⟨vb, hlb, hwb⟩ := wordIn_of_evaluateIn hvb hr hb
    rw [wordIn_bind hwb]
    exact wordIn_of_evaluateIn hvk (hr.cons hlb x) h

end Expr

end LetIf
