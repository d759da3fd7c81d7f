/-
Reading from the front of a list. A reader gives its result together with what it has not read,
and the latter is shorter than what it was given, which is what makes loops of readers end.
-/

namespace LetIf

/-- The result of a reader and the rest, of which there is less than `before`. -/
structure Read {τ : Type} (α : Type) (before : List τ) where
  result : α
  rest : List τ
  shorter : rest.length < before.length

namespace Read

/-! ## Shorter lists -/

theorem tail_lt {τ : Type} {t : τ} {a : List τ} : a.length < (t :: a).length := by simp

theorem lt_cons {τ : Type} {t : τ} {a b : List τ} (h : b.length < a.length) :
    b.length < (t :: a).length := by
  rw [List.length_cons]; omega

theorem lt_cons₂ {τ : Type} {t : τ} {a b c : List τ} (h₁ : b.length < a.length)
    (h₂ : c.length < b.length) : c.length < (t :: a).length := by
  rw [List.length_cons]; omega

theorem lt_cons₃ {τ : Type} {t : τ} {a b c d : List τ} (h₁ : b.length < a.length)
    (h₂ : c.length < b.length) (h₃ : d.length < c.length) : d.length < (t :: a).length := by
  rw [List.length_cons]; omega

theorem lt_cons₄ {τ : Type} {t : τ} {a b c d e : List τ} (h₁ : b.length < a.length)
    (h₂ : c.length < b.length) (h₃ : d.length < c.length) (h₄ : e.length < d.length) :
    e.length < (t :: a).length := by
  rw [List.length_cons]; omega

/-! ## Results of readers -/

variable {τ α β : Type} {before : List τ}

def map (f : α → β) (r : Read α before) : Read β before := ⟨f r.result, r.rest, r.shorter⟩

/-- What was read from a rest was read from the whole. -/
def after {longer : List τ} (r : Read α before) (h : before.length ≤ longer.length) :
    Read α longer :=
  ⟨r.result, r.rest, Nat.lt_of_lt_of_le r.shorter h⟩

end Read

end LetIf
