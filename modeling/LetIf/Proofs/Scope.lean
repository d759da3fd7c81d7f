/-
Look-up in an environment, the bindings around one point of an expression: the innermost binding
of a name decides, and look-up commutes with a function applied to all that is bound. Two environments
that bind the same names to related things stay so when both get a new binding.
-/
import LetIf.Scope

namespace LetIf.Env

variable {V W : Type}

theorem get?_cons (env : Env V) (x y : Ident) (v : V) :
    Env.get? ((x, v) :: env) y = if y = x then some v else env.get? y := by
  unfold Env.get?
  rw [List.lookup_cons]
  by_cases h : y = x
  · subst h; simp
  · rw [if_neg h, beq_eq_false_iff_ne.2 h]

/-- A binding hides an outer one of the same name. -/
theorem get?_cons_self (env : Env V) (x y : Ident) (v w : V) :
    Env.get? ((x, w) :: (x, v) :: env) y = Env.get? ((x, w) :: env) y := by
  simp only [get?_cons]
  split <;> rfl

/-- Bindings of different names may change places. -/
theorem get?_cons_comm (env : Env V) {x y : Ident} (h : x ≠ y) (z : Ident) (v w : V) :
    Env.get? ((x, v) :: (y, w) :: env) z = Env.get? ((y, w) :: (x, v) :: env) z := by
  simp only [get?_cons]
  by_cases hx : z = x
  · rw [if_pos hx, if_pos hx, if_neg fun hy => h (hx.symm.trans hy)]
  · rw [if_neg hx, if_neg hx]

/-- The environment with every bound thing replaced by its image. -/
def mapValues (f : V → W) (env : Env V) : Env W := env.map fun b => (b.1, f b.2)

theorem get?_mapValues (f : V → W) (x : Ident) :
    ∀ env : Env V, (mapValues f env).get? x = (env.get? x).map f
  | [] => rfl
  | (y, v) :: env => by
    show Env.get? ((y, f v) :: mapValues f env) x = _
    rw [get?_cons, get?_cons, get?_mapValues f x env]
    split <;> rfl

/-! ## Properties of what is bound -/

/-- What `env` binds, each name to its innermost binding, has property `P`. -/
def All (P : V → Prop) (env : Env V) : Prop := ∀ x v, env.get? x = some v → P v

theorem All.nil {P : V → Prop} : All P ([] : Env V) := fun _ _ h => nomatch h

theorem All.cons {P : V → Prop} {env : Env V} (h : All P env) {v : V} (hv : P v) (x : Ident) :
    All P ((x, v) :: env) := by
  intro y w hy
  rw [get?_cons] at hy
  split at hy
  · cases hy; exact hv
  · exact h y w hy

/-! ## Related environments -/

/-- What `env` binds, `env'` binds too, to something that is related to it. -/
def Rel (R : V → W → Prop) (env : Env V) (env' : Env W) : Prop :=
  ∀ x v, env.get? x = some v → ∃ w, env'.get? x = some w ∧ R v w

variable {R S : V → W → Prop} {env : Env V} {env' : Env W}

theorem Rel.nil : Rel R [] env' := fun _ _ h => nomatch h

theorem Rel.cons (h : Rel R env env') {v : V} {w : W} (hvw : R v w) (x : Ident) :
    Rel R ((x, v) :: env) ((x, w) :: env') := by
  intro y v' hy
  rw [get?_cons] at hy
  rw [get?_cons]
  by_cases hyx : y = x
  · rw [if_pos hyx] at hy
    cases hy
    exact ⟨w, if_pos hyx, hvw⟩
  · rw [if_neg hyx] at hy
    rw [if_neg hyx]
    exact h y v' hy

theorem Rel.mono (h : Rel R env env') (hRS : ∀ v w, R v w → S v w) : Rel S env env' := by
  intro x v hx
  obtain ⟨w, hw, hvw⟩ := h x v hx
  exact ⟨w, hw, hRS v w hvw⟩

end LetIf.Env
