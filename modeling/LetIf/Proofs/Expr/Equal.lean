/-
Equality up to annotations. On finished expressions the comparison from the left decides whether
the trees are the same once their annotations are erased.
-/
import LetIf.Proofs.Expr.Basic

namespace LetIf.Expr

variable {A B : Type}

theorem isValued_map (f : A → B) : ∀ e : Expr A, (e.map f).isValued = e.isValued
  | .lit _ _ | .var _ _ | .hole => rfl
  | .cond _ c y n => by
    simp only [map, isValued, isValued_map f c, isValued_map f y, isValued_map f n]
  | .bind _ _ b k => by simp only [map, isValued, isValued_map f b, isValued_map f k]

theorem isValued_of_erase {x : Expr A} {y : Expr B} (h : x.erase = y.erase)
    (hy : y.isValued = true) : x.isValued = true := by
  rw [← isValued_map (fun _ => ()) x]
  exact (congrArg isValued h).trans ((isValued_map _ y).trans hy)

theorem isWhole_of_isValued : ∀ {e : Expr A}, e.isValued = true → e.isWhole = true
  | .lit _ _, _ | .var _ _, _ => rfl
  | .cond _ _ _ _, h => by
    obtain ⟨hc, hy, hn⟩ := isValued_cond.1 h
    simp only [isWhole, isWhole_of_isValued hc, isWhole_of_isValued hy, isWhole_of_isValued hn,
      Bool.and_self]
  | .bind _ _ _ _, h => by
    obtain ⟨hb, hk⟩ := isValued_bind.1 h
    simp only [isWhole, isWhole_of_isValued hb, isWhole_of_isValued hk, Bool.and_self]

theorem erase_cond_eq_iff {a : A} {b : B} {c t e : Expr A} {c' t' e' : Expr B} :
    (Expr.cond a c t e).erase = (Expr.cond b c' t' e').erase ↔
      c.erase = c'.erase ∧ t.erase = t'.erase ∧ e.erase = e'.erase := by
  simp only [erase, map, Expr.cond.injEq, true_and]

theorem erase_bind_eq_iff {a : A} {b : B} {x x' : Ident} {e k : Expr A} {e' k' : Expr B} :
    (Expr.bind a x e k).erase = (Expr.bind b x' e' k').erase ↔
      x = x' ∧ e.erase = e'.erase ∧ k.erase = k'.erase := by
  simp only [erase, map, Expr.bind.injEq, true_and]

/-- Only the left expression has to be finished: from a missing value on the right it differs. -/
theorem agree_of_isValued {x : Expr A} {y : Expr B} (hx : x.isValued = true) :
    x.agree y = .ok (decide (x.erase = y.erase)) := by
  induction x generalizing y with
  | lit _ v =>
    obtain ⟨v, rfl⟩ := Option.isSome_iff_exists.1 hx
    cases y with
    | lit _ w =>
      have hdec : (some v == w) = decide (some v = w) := Bool.eq_iff_iff.2 (by simp)
      simp only [agree, hdec, erase, map, Expr.lit.injEq, true_and]
    | _ => simp [agree, erase, map]
  | var _ z => cases y <;> simp [agree, erase, map]
  | cond _ c t e ihc iht ihe =>
    obtain ⟨hc, ht, he⟩ := isValued_cond.1 hx
    cases y with
    | cond _ c' t' e' =>
      simp only [agree, ihc hc, iht ht, ihe he, erase_cond_eq_iff]
      by_cases h₁ : c.erase = c'.erase
      · by_cases h₂ : t.erase = t'.erase
        · simp only [h₁, h₂, decide_true, true_and]; rfl
        · simp only [h₁, h₂, decide_true, decide_false, true_and, false_and]; rfl
      · simp only [h₁, decide_false, false_and]; rfl
    | _ => simp [agree, erase, map]
  | bind _ z b k ihb ihk =>
    obtain ⟨hb, hk⟩ := isValued_bind.1 hx
    cases y with
    | bind _ z' b' k' =>
      simp only [agree, ihb hb, ihk hk, erase_bind_eq_iff]
      by_cases h₁ : z = z'
      · rw [if_neg (not_not_intro h₁)]
        by_cases h₂ : b.erase = b'.erase
        · simp only [h₁, h₂, decide_true, true_and]; rfl
        · simp only [h₂, decide_false, false_and, and_false]; rfl
      · rw [if_pos h₁]
        simp only [h₁, decide_false, false_and]; rfl
    | _ => simp [agree, erase, map]
  | hole => cases hx

theorem equal_of_isValued {x : Expr A} {y : Expr B} (hx : x.isValued = true)
    (hy : y.isValued = true) : x.equal y = .ok (decide (x.erase = y.erase)) := by
  unfold equal whole
  rw [if_pos (isWhole_of_isValued hx), if_pos (isWhole_of_isValued hy)]
  exact agree_of_isValued hx

end LetIf.Expr
