/-
Facts of expressions that do not depend on annotations: which literals carry a value, which
variables are free, and how many bindings there are.
-/
import LetIf.Expr.Basic
import LetIf.Proofs.Scope

namespace LetIf

/-- A name for the examples. -/
def nameX : Ident := ⟨"x", by decide, by decide⟩

/-- Another name for the examples. -/
def nameY : Ident := ⟨"y", by decide, by decide⟩

namespace Expr

variable {A B C : Type}

attribute [local simp] map

/-! ## Annotations -/

theorem map_map (f : A → B) (g : B → C) : ∀ e : Expr A, (e.map f).map g = e.map (g ∘ f)
  | .lit _ _ | .var _ _ | .hole => rfl
  | .cond _ c y n => by simp only [map, map_map f g c, map_map f g y, map_map f g n, Function.comp]
  | .bind _ _ b k => by simp only [map, map_map f g b, map_map f g k, Function.comp]

theorem erase_map (f : A → B) (e : Expr A) : (e.map f).erase = e.erase := map_map f _ e

/-! ## Finished expressions -/

/-- Expressions without holes whose literals all carry a value. -/
def isValued : Expr A → Bool
  | .lit _ v => v.isSome
  | .var .. => true
  | .cond _ c y n => c.isValued && y.isValued && n.isValued
  | .bind _ _ b k => b.isValued && k.isValued
  | .hole => false

/-- The occurrences of variables that no enclosing binding binds, from the left. -/
def free : Expr A → List Ident
  | .lit .. | .hole => []
  | .var _ x => [x]
  | .cond _ c y n => c.free ++ y.free ++ n.free
  | .bind _ x b k => b.free ++ k.free.filter (· ≠ x)

/-- The number of bindings. -/
def bindings : Expr A → Nat
  | .lit .. | .var .. | .hole => 0
  | .cond _ c y n => c.bindings + y.bindings + n.bindings
  | .bind _ _ b k => 1 + b.bindings + k.bindings

attribute [local simp] isValued free bindings

theorem bindings_map (f : A → B) : ∀ e : Expr A, (e.map f).bindings = e.bindings
  | .lit .. | .var .. | .hole => rfl
  | .cond _ c y n => by simp only [map, bindings, bindings_map f c, bindings_map f y, bindings_map f n]
  | .bind _ _ b k => by simp only [map, bindings, bindings_map f b, bindings_map f k]

/-- Annotations are no matter to the number of bindings. -/
theorem bindings_of_erase {x : Expr A} {y : Expr B} (h : x.erase = y.erase) : x.bindings = y.bindings := by
  rw [← bindings_map (fun _ => ()) x, ← bindings_map (fun _ => ()) y]
  exact congrArg bindings h

@[simp] theorem isValued_cond {a : A} {c y n : Expr A} :
    (Expr.cond a c y n).isValued = true ↔
      c.isValued = true ∧ y.isValued = true ∧ n.isValued = true := by
  simp only [isValued, Bool.and_eq_true, and_assoc]

@[simp] theorem isValued_bind {a : A} {x : Ident} {b k : Expr A} :
    (Expr.bind a x b k).isValued = true ↔ b.isValued = true ∧ k.isValued = true := by
  simp only [isValued, Bool.and_eq_true]

@[simp] theorem mem_free_cond {a : A} {c y n : Expr A} {z : Ident} :
    z ∈ (Expr.cond a c y n).free ↔ z ∈ c.free ∨ z ∈ y.free ∨ z ∈ n.free := by
  simp only [free, List.mem_append, or_assoc]

@[simp] theorem mem_free_bind {a : A} {x : Ident} {b k : Expr A} {z : Ident} :
    z ∈ (Expr.bind a x b k).free ↔ z ∈ b.free ∨ z ∈ k.free ∧ z ≠ x := by
  simp only [free, List.mem_append, List.mem_filter, decide_eq_true_eq]

/-! ## Expressions in an environment -/

variable {V : Type}

/-- Every free variable of the expression is bound in the environment. -/
def BoundIn (env : Env V) (e : Expr A) : Prop := ∀ x ∈ e.free, ∃ v, env.get? x = some v

theorem boundIn_nil {e : Expr A} : BoundIn ([] : Env V) e ↔ e.free = [] := by
  constructor
  · intro h
    refine List.eq_nil_iff_forall_not_mem.2 fun x hx => ?_
    obtain ⟨v, hv⟩ := h x hx
    cases hv
  · intro h x hx
    rw [h] at hx
    cases hx

theorem boundIn_var {env : Env V} {a : A} {x : Ident} :
    BoundIn env (.var a x) ↔ ∃ v, env.get? x = some v := by
  simp only [BoundIn, free, List.mem_singleton, forall_eq]

theorem boundIn_cond {env : Env V} {a : A} {c y n : Expr A} :
    BoundIn env (.cond a c y n) ↔ BoundIn env c ∧ BoundIn env y ∧ BoundIn env n := by
  simp only [BoundIn, mem_free_cond, or_imp, forall_and]

/-- In the body of a binding its name is bound too, to whatever it is. -/
theorem boundIn_bind {env : Env V} {a : A} {x : Ident} {b k : Expr A} (v : V) :
    BoundIn env (.bind a x b k) ↔ BoundIn env b ∧ BoundIn ((x, v) :: env) k := by
  constructor
  · intro h
    refine ⟨fun z hz => h z (mem_free_bind.2 (.inl hz)), fun z hz => ?_⟩
    rw [Env.get?_cons]
    by_cases hzx : z = x
    · exact ⟨v, if_pos hzx⟩
    · rw [if_neg hzx]; exact h z (mem_free_bind.2 (.inr ⟨hz, hzx⟩))
  · rintro ⟨hb, hk⟩ z hz
    rcases mem_free_bind.1 hz with hz | ⟨hz, hzx⟩
    · exact hb z hz
    · obtain ⟨w, hw⟩ := hk z hz
      rw [Env.get?_cons, if_neg hzx] at hw
      exact ⟨w, hw⟩

end Expr

end LetIf
