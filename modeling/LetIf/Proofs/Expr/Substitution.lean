/-
Evaluation by substitution. `Expr.reduce` evaluates an expression without an environment: before the
body of a binding is evaluated, the literal that the name stands for is put in the place of the name.
It ends as evaluation in an environment does, in the same literal of the expression or in the same
error. What carries the proof is that putting in a literal and binding the name to it come to the
same, whatever else is bound.
-/
import LetIf.Proofs.Eval
import LetIf.Proofs.Expr.Basic
import Mathlib.Tactic

namespace LetIf.Expr

variable {A : Type}

/-! ## Substitution -/

/-- Puts a literal in the place of a variable. In the body of an inner binding of the same name the
variable is another one; what such a binding binds is still outside. -/
def substitute (x : Ident) (l : Literal A) : Expr A → Expr A
  | .lit a v => .lit a v
  | .var a y => if y = x then .lit l.ann l.value else .var a y
  | .cond a c y n => .cond a (c.substitute x l) (y.substitute x l) (n.substitute x l)
  | .bind a y b k => .bind a y (b.substitute x l) (if y = x then k else k.substitute x l)
  | .hole => .hole

theorem size_substitute (x : Ident) (l : Literal A) : ∀ e : Expr A, (e.substitute x l).size = e.size
  | .lit _ _ | .hole => rfl
  | .var a y => by rw [substitute]; split <;> rfl
  | .cond _ c y n => by
    simp only [substitute, size, size_substitute x l c, size_substitute x l y, size_substitute x l n]
  | .bind _ y b k => by
    rw [substitute, size, size, size_substitute x l b]
    split
    · rfl
    · rw [size_substitute x l k]

/-- Evaluation without an environment. A variable that is met has not been bound. -/
def reduce : Expr A → Except InternalError (Literal A)
  | .lit a v => .ok ⟨a, v⟩
  | .var _ x => .error (.evaluateFree x)
  | .cond _ c y n => do
    match (← c.reduce).value with
    | some (.bool true) => y.reduce
    | some (.bool false) => n.reduce
    | v => throw (.evaluateCondition v)
  | .bind _ x b k => do
    let l ← b.reduce
    (k.substitute x l).reduce
  | .hole => .error .evaluateHole
termination_by e => e.size
decreasing_by all_goals simp only [size, size_substitute]; omega

/-! ## Substitution and environments -/

/-- Evaluation asks an environment only what the names mean. -/
theorem evaluateIn_congr : ∀ {e : Expr A} {env env' : Env (Literal A)},
    (∀ x, env.get? x = env'.get? x) → e.evaluateIn env = e.evaluateIn env'
  | .lit _ _, _, _, _ | .hole, _, _, _ => rfl
  | .var _ x, env, env', h => by rw [evaluateIn, evaluateIn, h x]
  | .cond _ c y n, env, env', h => by
    rw [evaluateIn, evaluateIn, evaluateIn_congr h, evaluateIn_congr (e := y) h, evaluateIn_congr (e := n) h]
  | .bind _ x b k, env, env', h => by
    rw [evaluateIn, evaluateIn, evaluateIn_congr h]
    refine bind_congr fun l => evaluateIn_congr fun y => ?_
    rw [Env.get?_cons, Env.get?_cons, h y]

/-- A literal may be put in the place of a name or the name bound to it, inside all that is bound. -/
theorem evaluateIn_substitute (x : Ident) (l : Literal A) : ∀ (e : Expr A) (env : Env (Literal A)),
    (e.substitute x l).evaluateIn env = e.evaluateIn ((x, l) :: env)
  | .lit _ _, _ | .hole, _ => rfl
  | .var a y, env => by
    rw [substitute, evaluateIn, Env.get?_cons]
    split
    · rfl
    · rw [evaluateIn]
  | .cond a c y n, env => by
    rw [substitute, evaluateIn, evaluateIn, evaluateIn_substitute x l c, evaluateIn_substitute x l y,
      evaluateIn_substitute x l n]
  | .bind a y b k, env => by
    rw [substitute, evaluateIn, evaluateIn, evaluateIn_substitute x l b]
    refine bind_congr fun w => ?_
    split
    · rename_i h
      subst h
      exact evaluateIn_congr fun z => (Env.get?_cons_self env y z l w).symm
    · rename_i h
      rw [evaluateIn_substitute x l k]
      exact evaluateIn_congr fun z => Env.get?_cons_comm env (fun hxy => h hxy.symm) z l w

theorem reduce_eq_evaluate : ∀ e : Expr A, e.reduce = e.evaluate
  | .lit _ _ | .var _ _ | .hole => by rw [reduce]; rfl
  | .cond _ c y n => by
    rw [reduce, reduce_eq_evaluate c, reduce_eq_evaluate y, reduce_eq_evaluate n]
    rfl
  | .bind _ x b k => by
    rw [reduce, reduce_eq_evaluate b]
    refine bind_congr fun l => ?_
    rw [reduce_eq_evaluate (k.substitute x l)]
    exact evaluateIn_substitute x l k []
termination_by e => e.size
decreasing_by all_goals simp only [size, size_substitute]; omega

/-! ## What an evaluation ends in -/

/-- The literals of an expression, from the left. -/
def literals : Expr A → List (Literal A)
  | .lit a v => [⟨a, v⟩]
  | .var .. | .hole => []
  | .cond _ c y n => c.literals ++ y.literals ++ n.literals
  | .bind _ _ b k => b.literals ++ k.literals

@[simp] theorem mem_literals_cond {a : A} {c y n : Expr A} {l : Literal A} :
    l ∈ (Expr.cond a c y n).literals ↔ l ∈ c.literals ∨ l ∈ y.literals ∨ l ∈ n.literals := by
  simp only [literals, List.mem_append, or_assoc]

@[simp] theorem mem_literals_bind {a : A} {x : Ident} {b k : Expr A} {l : Literal A} :
    l ∈ (Expr.bind a x b k).literals ↔ l ∈ b.literals ∨ l ∈ k.literals := by
  simp only [literals, List.mem_append]

theorem value_of_mem_literals : ∀ {e : Expr A} {l : Literal A}, e.isValued = true → l ∈ e.literals →
    ∃ v, l.value = some v
  | .lit a v, l, hv, hl => by
    cases List.mem_singleton.1 hl
    exact Option.isSome_iff_exists.1 hv
  | .var _ _, _, _, hl => by cases hl
  | .cond _ c y n, l, hv, hl => by
    obtain ⟨hc, hy, hn⟩ := isValued_cond.1 hv
    rcases mem_literals_cond.1 hl with hl | hl | hl
    · exact value_of_mem_literals hc hl
    · exact value_of_mem_literals hy hl
    · exact value_of_mem_literals hn hl
  | .bind _ _ b k, l, hv, hl => by
    obtain ⟨hb, hk⟩ := isValued_bind.1 hv
    rcases mem_literals_bind.1 hl with hl | hl
    · exact value_of_mem_literals hb hl
    · exact value_of_mem_literals hk hl
  | .hole, _, _, hl => by cases hl

/-- A literal of the expression, or one that a name around it stands for. -/
def Within (env : Env (Literal A)) (e : Expr A) (l : Literal A) : Prop :=
  l ∈ e.literals ∨ ∃ x, env.get? x = some l

section Within

variable {env : Env (Literal A)} {l lb : Literal A} {e e' b k : Expr A}

theorem Within.mono (h : Within env e l) (he : ∀ l ∈ e.literals, l ∈ e'.literals) : Within env e' l :=
  h.imp_left (he l)

/-- What the name of a binding stands for comes from what is bound. -/
theorem Within.of_body {a : A} {x : Ident} (hk : Within ((x, lb) :: env) k l) (hb : Within env b lb) :
    Within env (.bind a x b k) l := by
  rcases hk with hl | ⟨z, hz⟩
  · exact .inl (mem_literals_bind.2 (.inr hl))
  · rw [Env.get?_cons] at hz
    split at hz
    · cases hz
      exact hb.mono fun l hl => mem_literals_bind.2 (.inl hl)
    · exact .inr ⟨z, hz⟩

end Within

/-- Evaluation makes no literals. -/
theorem within_of_evaluateIn : ∀ {e : Expr A} {env : Env (Literal A)} {l : Literal A},
    e.evaluateIn env = .ok l → Within env e l
  | .lit a v, env, l, h => by
    rw [evaluateIn] at h
    cases h
    exact .inl (List.mem_singleton.2 rfl)
  | .var a x, env, l, h => .inr ⟨x, evaluateIn_var_eq_ok.1 h⟩
  | .cond a c y n, env, l, h => by
    obtain ⟨lc, b, -, -, h⟩ := evaluateIn_cond_eq_ok.1 h
    cases b with
    | true => exact (within_of_evaluateIn (e := y) h).mono fun l hl => mem_literals_cond.2 (.inr (.inl hl))
    | false => exact (within_of_evaluateIn (e := n) h).mono fun l hl => mem_literals_cond.2 (.inr (.inr hl))
  | .bind a x b k, env, l, h => by
    obtain ⟨lb, hb, hk⟩ := evaluateIn_bind_eq_ok.1 h
    exact (within_of_evaluateIn hk).of_body (within_of_evaluateIn hb)
  | .hole, _, _, h => by cases h

/-- Why an evaluation fails: it meets a free variable that is not bound around it, or a condition that
has come to a literal without a boolean. -/
inductive Fails (env : Env (Literal A)) (e : Expr A) : InternalError → Prop
  | free {x : Ident} : x ∈ e.free → env.get? x = none → Fails env e (.evaluateFree x)
  | condition {l : Literal A} : Within env e l → (∀ b, l.value ≠ some (.bool b)) →
      Fails env e (.evaluateCondition l.value)

theorem Fails.mono {env : Env (Literal A)} {e e' : Expr A} {err : InternalError} (h : Fails env e err)
    (hf : ∀ x ∈ e.free, x ∈ e'.free) (hl : ∀ l ∈ e.literals, l ∈ e'.literals) : Fails env e' err := by
  cases h with
  | free hx hn => exact .free (hf _ hx) hn
  | condition hw hb => exact .condition (hw.mono hl) hb

theorem Fails.of_body {env : Env (Literal A)} {a : A} {x : Ident} {b k : Expr A} {lb : Literal A}
    {err : InternalError} (h : Fails ((x, lb) :: env) k err) (hb : Within env b lb) :
    Fails env (.bind a x b k) err := by
  cases h with
  | @free z hz hn =>
    rw [Env.get?_cons] at hn
    split at hn
    · cases hn
    · rename_i hzx; exact .free (mem_free_bind.2 (.inr ⟨hz, hzx⟩)) hn
  | condition hw hn => exact .condition (hw.of_body hb) hn

theorem fails_of_evaluateIn : ∀ {e : Expr A} {env : Env (Literal A)} {err : InternalError},
    e.isValued = true → e.evaluateIn env = .error err → Fails env e err
  | .lit _ _, _, _, _, h => by cases h
  | .var a x, env, err, _, h => by
    obtain ⟨hx, rfl⟩ := evaluateIn_var_eq_error.1 h
    exact .free (List.mem_singleton.2 rfl) hx
  | .cond a c y n, env, err, hv, h => by
    obtain ⟨hvc, hvy, hvn⟩ := isValued_cond.1 hv
    rcases evaluateIn_cond_eq_error.1 h with hc | ⟨lc, hc, ⟨hb, rfl⟩ | ⟨b, -, h⟩⟩
    · exact (fails_of_evaluateIn hvc hc).mono (fun x hx => mem_free_cond.2 (.inl hx))
        fun l hl => mem_literals_cond.2 (.inl hl)
    · exact .condition ((within_of_evaluateIn hc).mono fun l hl => mem_literals_cond.2 (.inl hl)) hb
    · cases b with
      | true =>
        exact (fails_of_evaluateIn (e := y) hvy h).mono (fun x hx => mem_free_cond.2 (.inr (.inl hx)))
          fun l hl => mem_literals_cond.2 (.inr (.inl hl))
      | false =>
        exact (fails_of_evaluateIn (e := n) hvn h).mono (fun x hx => mem_free_cond.2 (.inr (.inr hx)))
          fun l hl => mem_literals_cond.2 (.inr (.inr hl))
  | .bind a x b k, env, err, hv, h => by
    obtain ⟨hvb, hvk⟩ := isValued_bind.1 hv
    rcases evaluateIn_bind_eq_error.1 h with hb | ⟨lb, hb, hk⟩
    · exact (fails_of_evaluateIn hvb hb).mono (fun z hz => mem_free_bind.2 (.inl hz))
        fun l hl => mem_literals_bind.2 (.inl hl)
    · exact (fails_of_evaluateIn hvk hk).of_body (within_of_evaluateIn hb)
  | .hole, _, _, hv, _ => by cases hv

/-- Evaluation is evaluation by substitution. On a finished expression, typed and closed or not, both
end in the same literal, which is one of the expression's own, or both in the same error: on the same
free variable, or on a condition that has come to the same number, again a literal's. -/
theorem evaluate_eq_reduce {e : Expr A} (hv : e.isValued = true) :
    e.evaluate = e.reduce ∧ (∀ l, e.evaluate = .ok l → l ∈ e.literals) ∧
      ∀ err, e.evaluate = .error err → (∃ x ∈ e.free, err = .evaluateFree x) ∨
        ∃ l ∈ e.literals, ∃ n, l.value = some (.int n) ∧ err = .evaluateCondition (some (.int n)) := by
  have own : ∀ {l : Literal A}, Within [] e l → l ∈ e.literals := by
    rintro l (hl | ⟨x, hx⟩)
    · exact hl
    · cases hx
  refine ⟨(reduce_eq_evaluate e).symm, fun l h => own (within_of_evaluateIn h), fun err h => ?_⟩
  cases fails_of_evaluateIn hv h with
  | free hx _ => exact .inl ⟨_, hx, rfl⟩
  | @condition l hw hb =>
    obtain ⟨v, hl⟩ := value_of_mem_literals hv (own hw)
    cases v with
    | bool b => exact absurd hl (hb b)
    | int n => exact .inr ⟨l, own hw, n, hl, by rw [hl]⟩

/-- A name that is bound again in what it is bound to, and again, without being used, around a number
that is no condition. The first arm, which is taken, comes to that number; the second has a free
variable. -/
def reboundCondition : Expr Nat :=
  .cond 0
    (.bind 1 nameX (.bind 2 nameX (.lit 3 (some (.bool true))) (.var 4 nameX))
      (.cond 5 (.var 6 nameX) (.bind 7 nameX (.var 8 nameX) (.lit 9 (some (.int 7)))) (.var 10 nameY)))
    (.lit 11 (some (.int 1))) (.lit 12 (some (.int 2)))

theorem evaluate_reboundCondition :
    reboundCondition.isValued = true ∧
      reboundCondition.reduce = .error (.evaluateCondition (some (.int 7))) ∧
      ∃ l ∈ reboundCondition.literals, l.value = some (.int 7) := by
  have hv : reboundCondition.isValued = true := rfl
  have h : reboundCondition.evaluate = .error (.evaluateCondition (some (.int 7))) := rfl
  obtain ⟨hr, -, hf⟩ := evaluate_eq_reduce hv
  refine ⟨hv, hr.symm.trans h, ?_⟩
  rcases hf _ h with ⟨x, -, hx⟩ | ⟨l, hl, n, hn, herr⟩
  · cases hx
  · cases herr
    exact ⟨l, hl, hn⟩

end LetIf.Expr
