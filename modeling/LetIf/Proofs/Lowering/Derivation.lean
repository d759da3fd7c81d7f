/-
Lowering as a derivation: `Lowers strategy env next e is next'` says, rule by rule, that expression
`e` becomes the sequence `is` where the variables around it have the slots in `env` and slots are
taken from `next` up to `next'`. The rules are exactly the successes of `Expr.code`, so what lowered
code does is shown by induction on them.
-/
import LetIf.Lowering
import LetIf.Proofs.Except
import LetIf.Proofs.Expr.Basic
import Mathlib.Tactic

namespace LetIf

variable {A : Type}

namespace Lowering

/-- By strategy `s`, with the variables in the slots `env` gives them and slots free from `next` on,
the expression becomes the sequence and leaves the slots from the last number on free. -/
inductive Lowers : Strategy → Env UInt32 → UInt32 → Expr A → List Instr → UInt32 → Prop
  | lit {s : Strategy} {env : Env UInt32} {next : UInt32} (a : A) (v : Value) :
      Lowers s env next (.lit a (some v)) [.const v.word] next
  | var {s : Strategy} {env : Env UInt32} {next : UInt32} (a : A) {x : Ident} {slot : UInt32} :
      env.get? x = some slot → Lowers s env next (.var a x) [.localGet slot] next
  | select {env : Env UInt32} {next n₁ n₂ n₃ : UInt32} (a : A) {c y n : Expr A} {cs ys ns : List Instr} :
      Lowers .select env next y ys n₁ → Lowers .select env n₁ n ns n₂ → Lowers .select env n₂ c cs n₃ →
      Lowers .select env next (.cond a c y n) (ys ++ ns ++ cs ++ [.select]) n₃
  | branch {env : Env UInt32} {next n₁ n₂ n₃ : UInt32} (a : A) {c y n : Expr A} {cs ys ns : List Instr} :
      Lowers .branch env next c cs n₁ → Lowers .branch env n₁ y ys n₂ → Lowers .branch env n₂ n ns n₃ →
      Lowers .branch env next (.cond a c y n) (cs ++ [.branch ys ns]) n₃
  | bind {s : Strategy} {env : Env UInt32} {next n₁ n₂ : UInt32} (a : A) {x : Ident} {b k : Expr A}
      {bs ks : List Instr} :
      Lowers s env (next + 1) b bs n₁ → Lowers s ((x, next) :: env) n₁ k ks n₂ →
      Lowers s env next (.bind a x b k) (bs ++ .localSet next :: ks) n₂

variable {s : Strategy} {env : Env UInt32} {next next' : UInt32} {e : Expr A} {is : List Instr}

/-! ## Derivations and the lowering function -/

theorem Lowers.code (h : Lowers s env next e is next') : e.code s env next = .ok (is, next') := by
  induction h with
  | lit a v => rw [Expr.code]
  | var a hx => rw [Expr.code, hx]
  | select a _ _ _ hy hn hc =>
    rw [Expr.code]
    exact bind_eq_ok.2 ⟨_, hy, bind_eq_ok.2 ⟨_, hn, bind_eq_ok.2 ⟨_, hc, rfl⟩⟩⟩
  | branch a _ _ _ hc hy hn =>
    rw [Expr.code]
    exact bind_eq_ok.2 ⟨_, hc, bind_eq_ok.2 ⟨_, hy, bind_eq_ok.2 ⟨_, hn, rfl⟩⟩⟩
  | bind a _ _ hb hk =>
    rw [Expr.code]
    exact bind_eq_ok.2 ⟨_, hb, bind_eq_ok.2 ⟨_, hk, rfl⟩⟩

theorem lowers_of_code {s : Strategy} : ∀ {e : Expr A} {env : Env UInt32} {next next' : UInt32} {is : List Instr},
    e.code s env next = .ok (is, next') → Lowers s env next e is next'
  | .lit a (some v), env, next, next', is, h => by
    rw [Expr.code] at h
    cases h
    exact .lit a v
  | .lit a none, _, _, _, _, h => by rw [Expr.code] at h; cases h
  | .var a x, env, next, next', is, h => by
    rw [Expr.code] at h
    split at h
    · rename_i slot hx
      cases h
      exact .var a hx
    · cases h
  | .cond a c y n, env, next, next', is, h => by
    cases s with
    | select =>
      rw [Expr.code] at h
      obtain ⟨⟨ys, n₁⟩, hy, h⟩ := bind_eq_ok.1 h
      obtain ⟨⟨ns, n₂⟩, hn, h⟩ := bind_eq_ok.1 h
      obtain ⟨⟨cs, n₃⟩, hc, h⟩ := bind_eq_ok.1 h
      cases h
      exact .select a (lowers_of_code hy) (lowers_of_code hn) (lowers_of_code hc)
    | branch =>
      rw [Expr.code] at h
      obtain ⟨⟨cs, n₁⟩, hc, h⟩ := bind_eq_ok.1 h
      obtain ⟨⟨ys, n₂⟩, hy, h⟩ := bind_eq_ok.1 h
      obtain ⟨⟨ns, n₃⟩, hn, h⟩ := bind_eq_ok.1 h
      cases h
      exact .branch a (lowers_of_code hc) (lowers_of_code hy) (lowers_of_code hn)
    | unnamed code => rw [Expr.code] at h; cases h
  | .bind a x b k, env, next, next', is, h => by
    rw [Expr.code] at h
    obtain ⟨⟨bs, n₁⟩, hb, h⟩ := bind_eq_ok.1 h
    obtain ⟨⟨ks, n₂⟩, hk, h⟩ := bind_eq_ok.1 h
    cases h
    exact .bind a (lowers_of_code hb) (lowers_of_code hk)
  | .hole, _, _, _, _, h => by rw [Expr.code] at h; cases h

theorem code_eq_ok : e.code s env next = .ok (is, next') ↔ Lowers s env next e is next' :=
  ⟨lowers_of_code, Lowers.code⟩

/-- A finished expression whose variables all have slots can be lowered by either strategy. -/
theorem exists_lowers {s : Strategy} (hs : s = .select ∨ s = .branch) :
    ∀ {e : Expr A} {env : Env UInt32}, e.isValued = true → Expr.BoundIn env e →
      ∀ next, ∃ is next', Lowers s env next e is next'
  | .lit a v, env, hv, _, next => by
    obtain ⟨v, rfl⟩ := Option.isSome_iff_exists.1 hv
    exact ⟨_, _, .lit a v⟩
  | .var a x, env, _, hf, next => by
    obtain ⟨slot, hx⟩ := Expr.boundIn_var.1 hf
    exact ⟨_, _, .var a hx⟩
  | .cond a c y n, env, hv, hf, next => by
    obtain ⟨hvc, hvy, hvn⟩ := Expr.isValued_cond.1 hv
    obtain ⟨hfc, hfy, hfn⟩ := Expr.boundIn_cond.1 hf
    rcases hs with rfl | rfl
    · obtain ⟨ys, n₁, hy⟩ := exists_lowers (.inl rfl) hvy hfy next
      obtain ⟨ns, n₂, hn⟩ := exists_lowers (.inl rfl) hvn hfn n₁
      obtain ⟨cs, n₃, hc⟩ := exists_lowers (.inl rfl) hvc hfc n₂
      exact ⟨_, _, .select a hy hn hc⟩
    · obtain ⟨cs, n₁, hc⟩ := exists_lowers (.inr rfl) hvc hfc next
      obtain ⟨ys, n₂, hy⟩ := exists_lowers (.inr rfl) hvy hfy n₁
      obtain ⟨ns, n₃, hn⟩ := exists_lowers (.inr rfl) hvn hfn n₂
      exact ⟨_, _, .branch a hc hy hn⟩
  | .bind a x b k, env, hv, hf, next => by
    obtain ⟨hvb, hvk⟩ := Expr.isValued_bind.1 hv
    obtain ⟨hfb, hfk⟩ := (Expr.boundIn_bind next).1 hf
    obtain ⟨bs, n₁, hb⟩ := exists_lowers hs hvb hfb (next + 1)
    obtain ⟨ks, n₂, hk⟩ := exists_lowers hs hvk hfk n₁
    exact ⟨_, _, .bind a hb hk⟩
  | .hole, _, hv, _, _ => nomatch hv

/-! ## What is not lowered -/

/-- Code reads only slots of variables that have one. -/
theorem Lowers.boundIn (h : Lowers s env next e is next') : Expr.BoundIn env e := by
  induction h with
  | lit a v => intro x hx; cases hx
  | var a hx => exact Expr.boundIn_var.2 ⟨_, hx⟩
  | select a _ _ _ hy hn hc => exact Expr.boundIn_cond.2 ⟨hc, hy, hn⟩
  | branch a _ _ _ hc hy hn => exact Expr.boundIn_cond.2 ⟨hc, hy, hn⟩
  | bind a _ _ hb hk => exact (Expr.boundIn_bind _).2 ⟨hb, hk⟩

/-- Why a finished expression is not lowered: one of its free variables has no slot, or there is no
such strategy. -/
inductive Refuses (s : Strategy) (env : Env UInt32) (e : Expr A) : Defect → Prop
  | free {x : Ident} : x ∈ e.free → env.get? x = none → Refuses s env e (.internal (.lowerFree x))
  | strategy {code : UInt8} : s = .unnamed code → Refuses s env e (.internal (.lowerStrategy s))

theorem Refuses.mono {e' : Expr A} {d : Defect} (h : Refuses s env e d) (hf : ∀ x ∈ e.free, x ∈ e'.free) :
    Refuses s env e' d := by
  cases h with
  | free hx hn => exact .free (hf _ hx) hn
  | strategy hs => exact .strategy hs

/-- The name of a binding has a slot in its body. -/
theorem Refuses.of_body {a : A} {x : Ident} {b k : Expr A} {slot : UInt32} {d : Defect}
    (h : Refuses s ((x, slot) :: env) k d) : Refuses s env (.bind a x b k) d := by
  cases h with
  | @free z hz hn =>
    rw [Env.get?_cons] at hn
    split at hn
    · cases hn
    · rename_i hzx; exact .free (Expr.mem_free_bind.2 (.inr ⟨hz, hzx⟩)) hn
  | strategy hs => exact .strategy hs

theorem refuses_of_code {s : Strategy} : ∀ {e : Expr A} {env : Env UInt32} {next : UInt32} {d : Defect},
    e.isValued = true → e.code s env next = .error d → Refuses s env e d
  | .lit a v, _, _, _, hv, h => by
    obtain ⟨v, rfl⟩ := Option.isSome_iff_exists.1 hv
    rw [Expr.code] at h
    cases h
  | .var a x, env, next, d, _, h => by
    rw [Expr.code] at h
    split at h
    · cases h
    · rename_i hx
      cases h
      exact .free (List.mem_singleton.2 rfl) hx
  | .cond a c y n, env, next, d, hv, h => by
    obtain ⟨hvc, hvy, hvn⟩ := Expr.isValued_cond.1 hv
    have hc : ∀ {m}, c.code s env m = .error d → Refuses s env (.cond a c y n) d := fun h =>
      (refuses_of_code hvc h).mono fun x hx => Expr.mem_free_cond.2 (.inl hx)
    have hy : ∀ {m}, y.code s env m = .error d → Refuses s env (.cond a c y n) d := fun h =>
      (refuses_of_code hvy h).mono fun x hx => Expr.mem_free_cond.2 (.inr (.inl hx))
    have hn : ∀ {m}, n.code s env m = .error d → Refuses s env (.cond a c y n) d := fun h =>
      (refuses_of_code hvn h).mono fun x hx => Expr.mem_free_cond.2 (.inr (.inr hx))
    cases s with
    | select =>
      rw [Expr.code] at h
      rcases bind_eq_error.1 h with h | ⟨_, -, h⟩
      · exact hy h
      rcases bind_eq_error.1 h with h | ⟨_, -, h⟩
      · exact hn h
      rcases bind_eq_error.1 h with h | ⟨_, -, h⟩
      · exact hc h
      · cases h
    | branch =>
      rw [Expr.code] at h
      rcases bind_eq_error.1 h with h | ⟨_, -, h⟩
      · exact hc h
      rcases bind_eq_error.1 h with h | ⟨_, -, h⟩
      · exact hy h
      rcases bind_eq_error.1 h with h | ⟨_, -, h⟩
      · exact hn h
      · cases h
    | unnamed code =>
      rw [Expr.code] at h
      cases h
      exact .strategy rfl
  | .bind a x b k, env, next, d, hv, h => by
    obtain ⟨hvb, hvk⟩ := Expr.isValued_bind.1 hv
    rw [Expr.code] at h
    rcases bind_eq_error.1 h with hb | ⟨⟨bs, n₁⟩, -, h⟩
    · exact (refuses_of_code hvb hb).mono fun z hz => Expr.mem_free_bind.2 (.inl hz)
    rcases bind_eq_error.1 h with hk | ⟨_, -, h⟩
    · exact (refuses_of_code hvk hk).of_body
    · cases h
  | .hole, _, _, _, hv, _ => by cases hv

/-- A module is refused for what its expression is refused. -/
theorem refuses_of_lower {target : Target} {d : Defect} (hv : e.isValued = true)
    (h : e.lower target = .error d) : Refuses target.strategy [] e d := by
  unfold Expr.lower at h
  rcases bind_eq_error.1 h with h | ⟨_, -, h⟩
  · exact refuses_of_code hv h
  · cases h

/-! ## Slots taken -/

theorem toNat_next_slot (h : next.toNat + 1 < 2 ^ 32) : (next + 1).toNat = next.toNat + 1 := by
  rw [UInt32.toNat_add, UInt32.toNat_one, Nat.mod_eq_of_lt h]

/-- Every binding takes one slot, as long as there are slots. -/
theorem Lowers.toNat_next (h : Lowers s env next e is next') :
    next.toNat + e.bindings < 2 ^ 32 → next'.toNat = next.toNat + e.bindings := by
  induction h with
  | lit | var => intro _; rfl
  | select a _ _ _ hy hn hc => intro hb; rw [Expr.bindings] at hb ⊢; omega
  | branch a _ _ _ hc hy hn => intro hb; rw [Expr.bindings] at hb ⊢; omega
  | @bind _ _ next _ _ a x b k _ _ _ _ hb hk =>
    intro h
    rw [Expr.bindings] at h ⊢
    have h₀ : (next + 1).toNat = next.toNat + 1 := toNat_next_slot (by omega)
    omega

/-- By either strategy a closed and finished expression has a module, with as many slots as it has
bindings. -/
theorem exists_lowers_of_closed (hv : e.isValued = true) (hf : e.free = []) (hb : e.bindings < 2 ^ 32)
    (target : Target) (hs : target.strategy = .select ∨ target.strategy = .branch) :
    ∃ is n, Lowers target.strategy [] 0 e is n ∧ n.toNat = e.bindings ∧
      e.lower target = .ok ⟨target.exportName, n, is ++ [.stop]⟩ := by
  obtain ⟨is, n, h⟩ := exists_lowers hs hv (Expr.boundIn_nil.2 hf) 0
  have h0 : (0 : UInt32).toNat + e.bindings = e.bindings := Nat.zero_add _
  refine ⟨is, n, h, (h.toNat_next (by omega)).trans h0, ?_⟩
  rw [Expr.lower, code_eq_ok.2 h]
  rfl

end Lowering

end LetIf
