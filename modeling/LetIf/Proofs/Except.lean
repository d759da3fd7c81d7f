/-
Computations that may fail: a sequence of them succeeds exactly when each part does, and fails as
the first part that fails. Two computations are alike when they fail or succeed together, with
related errors or results; sequences of like parts are alike.
-/

namespace LetIf

variable {ε α β : Type}

theorem bind_eq_ok {x : Except ε α} {f : α → Except ε β} {b : β} :
    x >>= f = .ok b ↔ ∃ a, x = .ok a ∧ f a = .ok b := by
  cases x with
  | error e => exact ⟨fun h => (nomatch h), fun ⟨_, h, _⟩ => (nomatch h)⟩
  | ok a =>
    constructor
    · intro h; exact ⟨a, rfl, h⟩
    · rintro ⟨_, h, hf⟩; cases h; exact hf

theorem pure_eq_ok {a b : α} : (pure a : Except ε α) = .ok b ↔ a = b := by
  constructor
  · intro h; cases h; rfl
  · rintro rfl; rfl

theorem mapError_eq_ok {ε' : Type} {f : ε → ε'} {x : Except ε α} {a : α} :
    x.mapError f = .ok a ↔ x = .ok a := by
  cases x with
  | error e => exact ⟨fun h => (nomatch h), fun h => (nomatch h)⟩
  | ok b =>
    constructor
    · intro h; cases h; rfl
    · intro h; cases h; rfl

theorem map_eq_ok {f : α → β} {x : Except ε α} {b : β} : x.map f = .ok b ↔ ∃ a, x = .ok a ∧ f a = b := by
  cases x with
  | error e =>
    constructor
    · intro h; cases h
    · rintro ⟨_, h, _⟩; cases h
  | ok a =>
    constructor
    · intro h; cases h; exact ⟨a, rfl, rfl⟩
    · rintro ⟨_, h, hf⟩; cases h; rw [← hf]; rfl

/-- A check that fails with `e` before the rest. -/
theorem ite_error_eq_ok {p : Prop} [Decidable p] {e : ε} {rest : Except ε β} {b : β} :
    (if p then .error e else rest) = .ok b ↔ ¬ p ∧ rest = .ok b := by
  by_cases h : p
  · rw [if_pos h]; exact ⟨fun h' => (nomatch h'), fun h' => absurd h h'.1⟩
  · rw [if_neg h]; exact ⟨fun h' => ⟨h, h'⟩, fun h' => h'.2⟩

theorem ite_throw_eq_ok {p : Prop} [Decidable p] {e : ε} {rest : Except ε β} {b : β} :
    (if p then (throw e : Except ε Unit) >>= fun _ => rest else rest) = .ok b ↔ ¬ p ∧ rest = .ok b :=
  ite_error_eq_ok

/-! ## Failures -/

theorem bind_eq_error {x : Except ε α} {f : α → Except ε β} {e : ε} :
    x >>= f = .error e ↔ x = .error e ∨ ∃ a, x = .ok a ∧ f a = .error e := by
  cases x with
  | error e' =>
    constructor
    · intro h; cases h; exact .inl rfl
    · rintro (h | ⟨_, h, _⟩)
      · cases h; rfl
      · cases h
  | ok a =>
    constructor
    · intro h; exact .inr ⟨a, rfl, h⟩
    · rintro (h | ⟨_, h, hf⟩)
      · cases h
      · cases h; exact hf

theorem map_eq_error {f : α → β} {x : Except ε α} {e : ε} : x.map f = .error e ↔ x = .error e := by
  cases x with
  | error e' =>
    constructor
    · intro h; cases h; rfl
    · intro h; cases h; rfl
  | ok a =>
    constructor
    · intro h; cases h
    · intro h; cases h

theorem ite_throw_eq_error {p : Prop} [Decidable p] {e e' : ε} {rest : Except ε β} :
    (if p then (throw e : Except ε Unit) >>= fun _ => rest else rest) = .error e' ↔
      p ∧ e = e' ∨ ¬ p ∧ rest = .error e' := by
  by_cases h : p
  · rw [if_pos h]
    constructor
    · intro h'; cases h'; exact .inl ⟨h, rfl⟩
    · rintro (⟨_, rfl⟩ | ⟨hn, _⟩)
      · rfl
      · exact absurd h hn
  · rw [if_neg h]
    exact ⟨fun h' => .inr ⟨h, h'⟩, fun h' => h'.elim (fun h' => absurd h'.1 h) fun h' => h'.2⟩

/-! ## Computations that are alike -/

/-- Both succeed, with results that `R` relates, or both fail, with errors that `E` relates. -/
inductive Alike {ε ε' α α' : Type} (E : ε → ε' → Prop) (R : α → α' → Prop) :
    Except ε α → Except ε' α' → Prop
  | ok {a : α} {a' : α'} : R a a' → Alike E R (.ok a) (.ok a')
  | error {e : ε} {e' : ε'} : E e e' → Alike E R (.error e) (.error e')

namespace Alike

variable {ε' α' β' : Type} {E : ε → ε' → Prop} {R : α → α' → Prop} {S : β → β' → Prop}

theorem bind {x : Except ε α} {x' : Except ε' α'} {f : α → Except ε β} {f' : α' → Except ε' β'}
    (h : Alike E R x x') (hf : ∀ a a', R a a' → Alike E S (f a) (f' a')) :
    Alike E S (x >>= f) (x' >>= f') := by
  cases h with
  | ok hr => exact hf _ _ hr
  | error he => exact .error he

theorem map {x : Except ε α} {x' : Except ε' α'} {f : α → β} {f' : α' → β'} (h : Alike E R x x')
    (hf : ∀ a a', R a a' → S (f a) (f' a')) : Alike E S (f <$> x) (f' <$> x') := by
  cases h with
  | ok hr => exact .ok (hf _ _ hr)
  | error he => exact .error he

theorem ite {p : Prop} [Decidable p] {x y : Except ε α} {x' y' : Except ε' α'} (hx : Alike E R x x')
    (hy : Alike E R y y') : Alike E R (if p then x else y) (if p then x' else y') := by
  by_cases hp : p
  · rw [if_pos hp, if_pos hp]; exact hx
  · rw [if_neg hp, if_neg hp]; exact hy

/-- Two checks that fail together, before rests that are alike. -/
theorem ite_throw {p q : Prop} [Decidable p] [Decidable q] {e : ε} {e' : ε'} {rest : Except ε β}
    {rest' : Except ε' β'} (hpq : p ↔ q) (he : E e e') (h : Alike E S rest rest') :
    Alike E S (if p then (throw e : Except ε Unit) >>= fun _ => rest else rest)
      (if q then (throw e' : Except ε' Unit) >>= fun _ => rest' else rest') := by
  by_cases hp : p
  · rw [if_pos hp, if_pos (hpq.1 hp)]; exact .error he
  · rw [if_neg hp, if_neg fun hq => hp (hpq.2 hq)]; exact h

/-- What is alike up to a function on the results is its image. -/
theorem eq_map {f : α → α'} {x : Except ε α} {x' : Except ε α'}
    (h : Alike Eq (fun a a' => a' = f a) x x') : x' = x.map f := by
  cases h with
  | ok hr => rw [hr]; rfl
  | error he => rw [he]; rfl

/-- What is alike up to a function on the errors is its image. -/
theorem eq_mapError_of_eq {g : ε → ε'} {x : Except ε α} {x' : Except ε' α}
    (h : Alike (fun e e' => e' = g e) Eq x x') : x' = x.mapError g := by
  cases h with
  | ok hr => rw [hr]; rfl
  | error he => rw [he]; rfl

theorem eq_mapError {f : α → α'} {g : ε → ε'} {x : Except ε α} {x' : Except ε' α'}
    (h : Alike (fun e e' => e' = g e) (fun a a' => a' = f a) x x') : x' = (x.map f).mapError g := by
  cases h with
  | ok hr => rw [hr]; rfl
  | error he => rw [he]; rfl

end Alike

end LetIf
