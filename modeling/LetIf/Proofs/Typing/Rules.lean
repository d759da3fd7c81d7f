/-
The type system, said without elaboration: `HasKind Γ e K` is derived by one rule for each form of
expression. Elaboration succeeds only on typed expressions, gives the root a model of the derived
kind, and changes nothing but annotations.
-/
import LetIf.Typing.Elaborate
import LetIf.Proofs.Except
import LetIf.Proofs.Expr.Basic
import LetIf.Proofs.Scope

namespace LetIf

/-- The kind of a value. -/
def Value.kind : Value → Kind
  | .bool _ => .bool
  | .int _ => .int

namespace Typing

variable {A B : Type}

/-! ## Typing rules -/

/-- Expression `e` has kind `K` where the variables around it have the kinds in `Γ`. -/
inductive HasKind : Env Kind → Expr A → Kind → Prop
  | lit {Γ : Env Kind} (a : A) (v : Value) : HasKind Γ (.lit a (some v)) v.kind
  | var {Γ : Env Kind} (a : A) {x : Ident} {K : Kind} : Γ.get? x = some K → HasKind Γ (.var a x) K
  | cond {Γ : Env Kind} (a : A) {c y n : Expr A} {K : Kind} :
      HasKind Γ c .bool → HasKind Γ y K → HasKind Γ n K → HasKind Γ (.cond a c y n) K
  | bind {Γ : Env Kind} (a : A) {x : Ident} {b k : Expr A} {L K : Kind} :
      HasKind Γ b L → HasKind ((x, L) :: Γ) k K → HasKind Γ (.bind a x b k) K

theorem HasKind.map (f : A → B) {Γ : Env Kind} {e : Expr A} {K : Kind} (h : HasKind Γ e K) :
    HasKind Γ (e.map f) K := by
  induction h with
  | lit a v => exact .lit (f a) v
  | var a hx => exact .var (f a) hx
  | cond a _ _ _ hc hy hn => exact .cond (f a) hc hy hn
  | bind a _ _ hb hk => exact .bind (f a) hb hk

theorem HasKind.of_map {f : A → B} :
    ∀ {e : Expr A} {Γ : Env Kind} {K : Kind}, HasKind Γ (e.map f) K → HasKind Γ e K
  | .lit _ _, _, _, .lit _ v => .lit _ v
  | .var _ _, _, _, .var _ hx => .var _ hx
  | .cond .., _, _, .cond _ hc hy hn => .cond _ hc.of_map hy.of_map hn.of_map
  | .bind .., _, _, .bind _ hb hk => .bind _ hb.of_map hk.of_map

theorem HasKind.isValued {Γ : Env Kind} {e : Expr A} {K : Kind} (h : HasKind Γ e K) :
    e.isValued = true := by
  induction h with
  | lit | var => rfl
  | cond _ _ _ _ hc hy hn => exact Expr.isValued_cond.2 ⟨hc, hy, hn⟩
  | bind _ _ _ hb hk => exact Expr.isValued_bind.2 ⟨hb, hk⟩

theorem HasKind.boundIn {Γ : Env Kind} {e : Expr A} {K : Kind} (h : HasKind Γ e K) :
    Expr.BoundIn Γ e := by
  induction h with
  | lit => exact fun x hx => nomatch hx
  | var _ hx => exact Expr.boundIn_var.2 ⟨_, hx⟩
  | cond _ _ _ _ hc hy hn => exact Expr.boundIn_cond.2 ⟨hc, hy, hn⟩
  | bind _ _ _ hb hk => exact (Expr.boundIn_bind _).2 ⟨hb, hk⟩

/-! ## What elaboration succeeds with -/

theorem infer_lit_eq_ok {env : Env (Option (Model A))} {a : A} {v : Option Value} {t : Elaborated A} :
    infer env (.lit a v) = .ok t ↔
      ∃ w, v = some w ∧ t = ⟨⟨w.kind, a⟩, .lit ⟨w.kind, a⟩ (some w)⟩ := by
  cases v with
  | none => exact ⟨fun h => (nomatch h), fun ⟨_, h, _⟩ => (nomatch h)⟩
  | some w =>
    constructor
    · intro h; cases h; exact ⟨w, rfl, rfl⟩
    · rintro ⟨_, h, rfl⟩; cases h; rfl

theorem infer_var_eq_ok {env : Env (Option (Model A))} {a : A} {x : Ident} {t : Elaborated A} :
    infer env (.var a x) = .ok t ↔
      ∃ m, env.get? x = some (some m) ∧ t = ⟨⟨m.kind, a⟩, .var ⟨m.kind, a⟩ x⟩ := by
  rw [infer]
  rcases env.get? x with _ | _ | m
  · exact ⟨fun h => (nomatch h), fun ⟨_, h, _⟩ => (nomatch h)⟩
  · exact ⟨fun h => (nomatch h), fun ⟨_, h, _⟩ => (nomatch h)⟩
  · constructor
    · intro h; cases h; exact ⟨m, rfl, rfl⟩
    · rintro ⟨_, h, rfl⟩; cases h; rfl

theorem infer_cond_eq_ok {env : Env (Option (Model A))} {a : A} {c y n : Expr A} {t : Elaborated A} :
    infer env (.cond a c y n) = .ok t ↔ ∃ c' y' n', infer env c = .ok c' ∧ c'.model.kind = .bool ∧
      infer env y = .ok y' ∧ infer env n = .ok n' ∧ n'.model.kind = y'.model.kind ∧
      t = ⟨y'.model, .cond y'.model (c'.recast ⟨.bool, a⟩).tree y'.tree (n'.recast y'.model).tree⟩ := by
  simp only [infer, bind_eq_ok, ite_throw_eq_ok, pure_eq_ok, ne_eq, Decidable.not_not]
  constructor
  · rintro ⟨c', hc, hb, y', hy, n', hn, hk, rfl⟩; exact ⟨c', y', n', hc, hb, hy, hn, hk, rfl⟩
  · rintro ⟨c', y', n', hc, hb, hy, hn, hk, rfl⟩; exact ⟨c', hc, hb, y', hy, n', hn, hk, rfl⟩

theorem infer_bind_eq_ok {env : Env (Option (Model A))} {a : A} {x : Ident} {b k : Expr A}
    {t : Elaborated A} :
    infer env (.bind a x b k) = .ok t ↔ ∃ b' k', infer env b = .ok b' ∧
      infer ((x, some b'.model) :: env) k = .ok k' ∧ t = ⟨k'.model, .bind k'.model x b'.tree k'.tree⟩ := by
  simp only [infer, bind_eq_ok, pure_eq_ok]
  constructor
  · rintro ⟨b', hb, k', hk, rfl⟩; exact ⟨b', k', hb, hk, rfl⟩
  · rintro ⟨b', k', hb, hk, rfl⟩; exact ⟨b', hb, k', hk, rfl⟩

/-! ## Elaboration keeps to the rules -/

/-- An expression that elaborates has the kind of its model, where the variables around it have
the kinds of theirs. -/
theorem hasKind_of_infer : ∀ {e : Expr A} {scope : Env (Model A)} {t : Elaborated A},
    infer (scope.mapValues some) e = .ok t → HasKind (scope.mapValues Model.kind) e t.model.kind
  | .lit a v, scope, t, h => by
    obtain ⟨w, rfl, rfl⟩ := infer_lit_eq_ok.1 h
    exact .lit a w
  | .var a x, scope, t, h => by
    obtain ⟨m, hm, rfl⟩ := infer_var_eq_ok.1 h
    rw [Env.get?_mapValues, Option.map_eq_some_iff] at hm
    obtain ⟨m', hm', h'⟩ := hm
    cases h'
    exact .var a (by rw [Env.get?_mapValues, hm']; rfl)
  | .cond a c y n, scope, t, h => by
    obtain ⟨c', y', n', hc, hb, hy, hn, hk, rfl⟩ := infer_cond_eq_ok.1 h
    have hc := hasKind_of_infer hc
    have hy := hasKind_of_infer hy
    have hn := hasKind_of_infer hn
    rw [hb] at hc
    rw [hk] at hn
    exact .cond a hc hy hn
  | .bind a x b k, scope, t, h => by
    obtain ⟨b', k', hb, hk, rfl⟩ := infer_bind_eq_ok.1 h
    have hb := hasKind_of_infer hb
    have hk : HasKind (Env.mapValues Model.kind ((x, b'.model) :: scope)) k k'.model.kind :=
      hasKind_of_infer hk
    exact .bind a hb hk
  | .hole, _, _, h => nomatch h

theorem recast_erase (m : Model A) (t : Elaborated A) : (t.recast m).tree.erase = t.tree.erase :=
  Expr.erase_map _ t.tree

/-- Elaboration changes nothing but annotations. -/
theorem erase_of_infer : ∀ {e : Expr A} {env : Env (Option (Model A))} {t : Elaborated A},
    infer env e = .ok t → t.tree.erase = e.erase
  | .lit a v, env, t, h => by
    obtain ⟨w, rfl, rfl⟩ := infer_lit_eq_ok.1 h
    rfl
  | .var a x, env, t, h => by
    obtain ⟨m, -, rfl⟩ := infer_var_eq_ok.1 h
    rfl
  | .cond a c y n, env, t, h => by
    obtain ⟨c', y', n', hc, -, hy, hn, -, rfl⟩ := infer_cond_eq_ok.1 h
    show Expr.cond () (c'.recast ⟨.bool, a⟩).tree.erase y'.tree.erase (n'.recast y'.model).tree.erase =
      Expr.cond () c.erase y.erase n.erase
    rw [recast_erase, recast_erase, erase_of_infer hc, erase_of_infer hy, erase_of_infer hn]
  | .bind a x b k, env, t, h => by
    obtain ⟨b', k', hb, hk, rfl⟩ := infer_bind_eq_ok.1 h
    show Expr.bind () x b'.tree.erase k'.tree.erase = Expr.bind () x b.erase k.erase
    rw [erase_of_infer hb, erase_of_infer hk]
  | .hole, _, _, h => nomatch h

/-- The root of an elaborated expression carries its model. -/
theorem ann?_of_infer : ∀ {e : Expr A} {env : Env (Option (Model A))} {t : Elaborated A},
    infer env e = .ok t → t.tree.ann? = some t.model
  | .lit a v, env, t, h => by obtain ⟨w, rfl, rfl⟩ := infer_lit_eq_ok.1 h; rfl
  | .var a x, env, t, h => by obtain ⟨m, -, rfl⟩ := infer_var_eq_ok.1 h; rfl
  | .cond a c y n, env, t, h => by
    obtain ⟨c', y', n', -, -, -, -, -, rfl⟩ := infer_cond_eq_ok.1 h; rfl
  | .bind a x b k, env, t, h => by obtain ⟨b', k', -, -, rfl⟩ := infer_bind_eq_ok.1 h; rfl
  | .hole, _, _, h => nomatch h

end Typing

end LetIf
