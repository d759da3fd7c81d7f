/-
Which error elaboration reports. An offence of an expression is a check that fails at one of its
nodes, whatever the other checks come to; its place says where among all checks it stands.
Elaboration succeeds exactly on the expressions that have a kind, which are those without an
offence, and on all others it reports the offence whose place comes first.
-/
import LetIf.Proofs.Typing.Rules

namespace LetIf

variable {A : Type}

/-- The annotation of the leaf to which first arms and bodies lead. -/
def Expr.origin? : Expr A → Option A
  | .lit a _ | .var a _ => some a
  | .cond _ _ y _ => y.origin?
  | .bind _ _ _ k => k.origin?
  | .hole => none

namespace Typing

/-! ## Kinds -/

/-- An expression has at most one kind. -/
theorem HasKind.unique {Γ : Env Kind} {e : Expr A} {K L : Kind} (h : HasKind Γ e K)
    (h' : HasKind Γ e L) : K = L := by
  induction h generalizing L with
  | lit a v => cases h'; rfl
  | var a hx =>
    cases h' with
    | var _ hx' => exact Option.some.inj (hx.symm.trans hx')
  | cond a _ _ _ _ ihy _ =>
    cases h' with
    | cond _ _ hy _ => exact ihy hy
  | bind a _ _ ihb ihk =>
    cases h' with
    | bind _ hb hk =>
      cases ihb hb
      exact ihk hk

/-- An expression with a kind elaborates to a model of this kind. -/
theorem exists_infer : ∀ {e : Expr A} {scope : Env (Model A)} {K : Kind},
    HasKind (scope.mapValues Model.kind) e K →
      ∃ t, infer (scope.mapValues some) e = .ok t ∧ t.model.kind = K
  | .lit a _, scope, _, .lit _ v => ⟨_, infer_lit_eq_ok.2 ⟨v, rfl, rfl⟩, rfl⟩
  | .var a x, scope, K, .var _ hx => by
    rw [Env.get?_mapValues, Option.map_eq_some_iff] at hx
    obtain ⟨m, hm, rfl⟩ := hx
    refine ⟨_, infer_var_eq_ok.2 ⟨m, ?_, rfl⟩, rfl⟩
    rw [Env.get?_mapValues, hm]
    rfl
  | .cond a c y n, scope, K, .cond _ hc hy hn => by
    obtain ⟨c', hc', hck⟩ := exists_infer hc
    obtain ⟨y', hy', hyk⟩ := exists_infer hy
    obtain ⟨n', hn', hnk⟩ := exists_infer hn
    exact ⟨_, infer_cond_eq_ok.2 ⟨c', y', n', hc', hck, hy', hn', hnk.trans hyk.symm, rfl⟩, hyk⟩
  | .bind a x b k, scope, K, .bind _ hb hk => by
    obtain ⟨b', hb', rfl⟩ := exists_infer hb
    have hk : HasKind (Env.mapValues Model.kind ((x, b'.model) :: scope)) k K := hk
    obtain ⟨k', hk', hkk⟩ := exists_infer hk
    exact ⟨_, infer_bind_eq_ok.2 ⟨b', k', hb', hk', rfl⟩, hkk⟩

/-- A model comes from the leaf to which first arms and bodies lead. -/
theorem origin?_of_infer : ∀ {e : Expr A} {env : Env (Option (Model A))} {t : Elaborated A},
    infer env e = .ok t → e.origin? = some t.model.ann
  | .lit a v, env, t, h => by obtain ⟨w, rfl, rfl⟩ := infer_lit_eq_ok.1 h; rfl
  | .var a x, env, t, h => by obtain ⟨m, -, rfl⟩ := infer_var_eq_ok.1 h; rfl
  | .cond a c y n, env, t, h => by
    obtain ⟨c', y', n', -, -, hy, -, -, rfl⟩ := infer_cond_eq_ok.1 h
    have hyo : y.origin? = some y'.model.ann := origin?_of_infer hy
    exact hyo
  | .bind a x b k, env, t, h => by
    obtain ⟨b', k', -, hk, rfl⟩ := infer_bind_eq_ok.1 h
    have hko : k.origin? = some k'.model.ann := origin?_of_infer hk
    exact hko
  | .hole, _, _, h => nomatch h

/-! ## Offences -/

/-- What is found at an expression: its kind, and the annotation of the leaf it comes from. -/
structure Finds (Γ : Env Kind) (e : Expr A) (m : Model A) : Prop where
  hasKind : HasKind Γ e m.kind
  origin : e.origin? = some m.ann

theorem Finds.unique {Γ : Env Kind} {e : Expr A} {m m' : Model A} (h : Finds Γ e m)
    (h' : Finds Γ e m') : m = m' := by
  obtain ⟨K, a⟩ := m
  obtain ⟨K', a'⟩ := m'
  have hK : K = K' := h.hasKind.unique h'.hasKind
  have ha : a = a' := Option.some.inj (h.origin.symm.trans h'.origin)
  rw [hK, ha]

theorem finds_of_infer {e : Expr A} {scope : Env (Model A)} {t : Elaborated A}
    (h : infer (scope.mapValues some) e = .ok t) :
    Finds (scope.mapValues Model.kind) e t.model :=
  ⟨hasKind_of_infer h, origin?_of_infer h⟩

/-- The expression `e` offends with `err` at a place: the numbers of the parts that lead to the
node, and the number of the failing check among the parts of that node. A conditional has its test
(0), the check of the test (1), its arms (2 and 3) and their comparison (4); a binding has what is
bound (0) and its body (1), which is looked at only when what is bound has a kind. -/
inductive Offends : Env Kind → Expr A → List Nat → TypeError A → Prop
  | unbound {Γ : Env Kind} (a : A) {x : Ident} :
      Γ.get? x = none → Offends Γ (.var a x) [] (.unbound a x)
  | inTest {Γ : Env Kind} {a : A} {c y n : Expr A} {p : List Nat} {err : TypeError A} :
      Offends Γ c p err → Offends Γ (.cond a c y n) (0 :: p) err
  | predicate {Γ : Env Kind} {a : A} {c y n : Expr A} {m : Model A} :
      Finds Γ c m → m.kind ≠ .bool → Offends Γ (.cond a c y n) [1] (.predicateNotBool a m)
  | inYes {Γ : Env Kind} {a : A} {c y n : Expr A} {p : List Nat} {err : TypeError A} :
      Offends Γ y p err → Offends Γ (.cond a c y n) (2 :: p) err
  | inNo {Γ : Env Kind} {a : A} {c y n : Expr A} {p : List Nat} {err : TypeError A} :
      Offends Γ n p err → Offends Γ (.cond a c y n) (3 :: p) err
  | branches {Γ : Env Kind} {a : A} {c y n : Expr A} {m m' : Model A} :
      Finds Γ y m → Finds Γ n m' → m'.kind ≠ m.kind →
        Offends Γ (.cond a c y n) [4] (.branchesDiffer a m m')
  | inBound {Γ : Env Kind} {a : A} {x : Ident} {b k : Expr A} {p : List Nat} {err : TypeError A} :
      Offends Γ b p err → Offends Γ (.bind a x b k) (0 :: p) err
  | inBody {Γ : Env Kind} {a : A} {x : Ident} {b k : Expr A} {L : Kind} {p : List Nat}
      {err : TypeError A} :
      HasKind Γ b L → Offends ((x, L) :: Γ) k p err → Offends Γ (.bind a x b k) (1 :: p) err

/-- At one place there is at most one offence. -/
theorem Offends.unique {Γ : Env Kind} {e : Expr A} {p : List Nat} {err err' : TypeError A}
    (h : Offends Γ e p err) (h' : Offends Γ e p err') : err = err' := by
  induction h with
  | unbound a hx => cases h'; rfl
  | inTest _ ih => cases h' with | inTest h' => exact ih h'
  | predicate hm _ => cases h' with | predicate hm' _ => rw [hm.unique hm']
  | inYes _ ih => cases h' with | inYes h' => exact ih h'
  | inNo _ ih => cases h' with | inNo h' => exact ih h'
  | branches hm hn _ => cases h' with | branches hm' hn' _ => rw [hm.unique hm', hn.unique hn']
  | inBound _ ih => cases h' with | inBound h' => exact ih h'
  | inBody hb _ ih =>
    cases h' with
    | inBody hb' h' =>
      cases hb.unique hb'
      exact ih h'

/-- What has a kind does not offend. -/
theorem HasKind.not_offends {Γ : Env Kind} {e : Expr A} {K : Kind} (h : HasKind Γ e K)
    {p : List Nat} {err : TypeError A} : ¬ Offends Γ e p err := by
  induction h generalizing p with
  | lit a v => intro ho; cases ho
  | var a hx =>
    intro ho
    cases ho with
    | unbound _ hx' => cases hx.symm.trans hx'
  | cond a hc hy hn ihc ihy ihn =>
    intro ho
    cases ho with
    | inTest ho => exact ihc ho
    | predicate hm hne => exact hne (hm.hasKind.unique hc)
    | inYes ho => exact ihy ho
    | inNo ho => exact ihn ho
    | branches hm hm' hne => exact hne ((hm'.hasKind.unique hn).trans (hy.unique hm.hasKind))
  | bind a hb _ ihb ihk =>
    intro ho
    cases ho with
    | inBound ho => exact ihb ho
    | inBody hb' ho =>
      cases hb.unique hb'
      exact ihk ho

/-! ## The first offence -/

/-- Place `p` comes before place `q`: the parts of a node are gone through in the order of their
numbers. -/
def Before (p q : List Nat) : Prop := List.Lex (fun i j => i < j) p q

theorem not_before_nil (p : List Nat) : ¬ Before p [] := by
  intro h
  cases h

theorem before_cons {i j : Nat} {p q : List Nat} :
    Before (i :: p) (j :: q) ↔ i < j ∨ i = j ∧ Before p q := by
  constructor
  · intro h
    cases h with
    | rel h => exact .inl h
    | cons h => exact .inr ⟨rfl, h⟩
  · rintro (h | ⟨rfl, h⟩)
    · exact .rel h
    · exact .cons h

theorem before_of_cons {i : Nat} {p q : List Nat} (h : Before (i :: p) (i :: q)) : Before p q :=
  ((before_cons.1 h).resolve_left (Nat.lt_irrefl i)).2

theorem not_before_of_lt {i j : Nat} {p q : List Nat} (h : j < i) : ¬ Before (i :: p) (j :: q) := by
  rw [before_cons]
  omega

theorem eq_of_not_before : ∀ {p q : List Nat}, ¬ Before p q → ¬ Before q p → p = q
  | [], [], _, _ => rfl
  | [], _ :: _, h, _ => absurd .nil h
  | _ :: _, [], _, h => absurd .nil h
  | i :: p, j :: q, h, h' => by
    rw [before_cons] at h h'
    have hij : i = j := by omega
    subst hij
    rw [eq_of_not_before (fun hb => h (.inr ⟨rfl, hb⟩)) (fun hb => h' (.inr ⟨rfl, hb⟩))]

/-- The expression offends with `err` at `p`, and nowhere before. -/
structure First (Γ : Env Kind) (e : Expr A) (p : List Nat) (err : TypeError A) : Prop where
  offends : Offends Γ e p err
  least : ∀ {q : List Nat} {err' : TypeError A}, Offends Γ e q err' → ¬ Before q p

theorem First.unique {Γ : Env Kind} {e : Expr A} {p q : List Nat} {err err' : TypeError A}
    (h : First Γ e p err) (h' : First Γ e q err') : err = err' := by
  have hpq : p = q := eq_of_not_before (h'.least h.offends) (h.least h'.offends)
  subst hpq
  exact h.offends.unique h'.offends

theorem first_unbound {Γ : Env Kind} (a : A) {x : Ident} (hx : Γ.get? x = none) :
    First Γ (.var a x) [] (.unbound a x) :=
  ⟨.unbound a hx, fun _ => not_before_nil _⟩

section Conditional

variable {Γ : Env Kind} {a : A} {c y n : Expr A} {p : List Nat} {err : TypeError A}

theorem First.inTest (h : First Γ c p err) : First Γ (.cond a c y n) (0 :: p) err := by
  refine ⟨.inTest h.offends, fun ho hb => ?_⟩
  cases ho with
  | inTest ho => exact h.least ho (before_of_cons hb)
  | _ => exact not_before_of_lt (by decide) hb

theorem first_predicate {m : Model A} (hm : Finds Γ c m) (hne : m.kind ≠ .bool) :
    First Γ (.cond a c y n) [1] (.predicateNotBool a m) := by
  refine ⟨.predicate hm hne, fun ho hb => ?_⟩
  cases ho with
  | inTest ho => exact hm.hasKind.not_offends ho
  | predicate => exact not_before_nil _ (before_of_cons hb)
  | _ => exact not_before_of_lt (by decide) hb

theorem First.inYes (hc : HasKind Γ c .bool) (h : First Γ y p err) :
    First Γ (.cond a c y n) (2 :: p) err := by
  refine ⟨.inYes h.offends, fun ho hb => ?_⟩
  cases ho with
  | inTest ho => exact hc.not_offends ho
  | predicate hm hne => exact hne (hm.hasKind.unique hc)
  | inYes ho => exact h.least ho (before_of_cons hb)
  | _ => exact not_before_of_lt (by decide) hb

theorem First.inNo {K : Kind} (hc : HasKind Γ c .bool) (hy : HasKind Γ y K) (h : First Γ n p err) :
    First Γ (.cond a c y n) (3 :: p) err := by
  refine ⟨.inNo h.offends, fun ho hb => ?_⟩
  cases ho with
  | inTest ho => exact hc.not_offends ho
  | predicate hm hne => exact hne (hm.hasKind.unique hc)
  | inYes ho => exact hy.not_offends ho
  | inNo ho => exact h.least ho (before_of_cons hb)
  | branches => exact not_before_of_lt (by decide) hb

theorem first_branches {m m' : Model A} (hc : HasKind Γ c .bool) (hm : Finds Γ y m)
    (hm' : Finds Γ n m') (hne : m'.kind ≠ m.kind) :
    First Γ (.cond a c y n) [4] (.branchesDiffer a m m') := by
  refine ⟨.branches hm hm' hne, fun ho hb => ?_⟩
  cases ho with
  | inTest ho => exact hc.not_offends ho
  | predicate hf hne => exact hne (hf.hasKind.unique hc)
  | inYes ho => exact hm.hasKind.not_offends ho
  | inNo ho => exact hm'.hasKind.not_offends ho
  | branches => exact not_before_nil _ (before_of_cons hb)

end Conditional

section Binding

variable {Γ : Env Kind} {a : A} {x : Ident} {b k : Expr A} {p : List Nat} {err : TypeError A}

theorem First.inBound (h : First Γ b p err) : First Γ (.bind a x b k) (0 :: p) err := by
  refine ⟨.inBound h.offends, fun ho hb => ?_⟩
  cases ho with
  | inBound ho => exact h.least ho (before_of_cons hb)
  | inBody => exact not_before_of_lt (by decide) hb

theorem First.inBody {L : Kind} (hL : HasKind Γ b L) (h : First ((x, L) :: Γ) k p err) :
    First Γ (.bind a x b k) (1 :: p) err := by
  refine ⟨.inBody hL h.offends, fun ho hb => ?_⟩
  cases ho with
  | inBound ho => exact hL.not_offends ho
  | inBody hL' ho =>
    cases hL.unique hL'
    exact h.least ho (before_of_cons hb)

end Binding

/-! ## What elaboration reports -/

theorem infer_cond_eq_error {env : Env (Option (Model A))} {a : A} {c y n : Expr A} {f : Failure A} :
    infer env (.cond a c y n) = .error f ↔ infer env c = .error f ∨ ∃ c', infer env c = .ok c' ∧
      (c'.model.kind ≠ .bool ∧ .illTyped (.predicateNotBool a c'.model) = f ∨
        c'.model.kind = .bool ∧ (infer env y = .error f ∨ ∃ y', infer env y = .ok y' ∧
          (infer env n = .error f ∨ ∃ n', infer env n = .ok n' ∧ n'.model.kind ≠ y'.model.kind ∧
            .illTyped (.branchesDiffer a y'.model n'.model) = f))) := by
  have hpure : ∀ t : Elaborated A, ¬ (pure t : Except (Failure A) (Elaborated A)) = .error f :=
    fun t h => nomatch h
  simp only [infer, bind_eq_error, ite_throw_eq_error, hpure, and_false, or_false, ne_eq,
    Decidable.not_not]

theorem infer_bind_eq_error {env : Env (Option (Model A))} {a : A} {x : Ident} {b k : Expr A}
    {f : Failure A} :
    infer env (.bind a x b k) = .error f ↔ infer env b = .error f ∨
      ∃ b', infer env b = .ok b' ∧ infer ((x, some b'.model) :: env) k = .error f := by
  have hpure : ∀ t : Elaborated A, ¬ (pure t : Except (Failure A) (Elaborated A)) = .error f :=
    fun t h => nomatch h
  simp only [infer, bind_eq_error, hpure, and_false, exists_false, or_false]

/-- A failure of elaboration is the first offence. -/
theorem first_of_infer : ∀ {e : Expr A} {scope : Env (Model A)} {f : Failure A},
    e.isValued = true → infer (scope.mapValues some) e = .error f →
      ∃ err p, f = .illTyped err ∧ First (scope.mapValues Model.kind) e p err
  | .lit a v, scope, f, hv, h => by
    obtain ⟨w, rfl⟩ := Option.isSome_iff_exists.1 hv
    cases h
  | .var a x, scope, f, _, h => by
    rw [infer, Env.get?_mapValues] at h
    cases hx : scope.get? x with
    | none =>
      rw [hx] at h
      cases h
      exact ⟨_, [], rfl, first_unbound a (by rw [Env.get?_mapValues, hx]; rfl)⟩
    | some m =>
      rw [hx] at h
      cases h
  | .cond a c y n, scope, f, hv, h => by
    obtain ⟨hvc, hvy, hvn⟩ := Expr.isValued_cond.1 hv
    -- each part in turn either fails or has the kind that the checks after it rely on
    rcases infer_cond_eq_error.1 h with hc | ⟨c', hc, ⟨hne, rfl⟩ | ⟨hb, h⟩⟩
    · obtain ⟨err, p, rfl, hp⟩ := first_of_infer hvc hc
      exact ⟨err, 0 :: p, rfl, hp.inTest⟩
    · exact ⟨_, [1], rfl, first_predicate (finds_of_infer hc) hne⟩
    have hck : HasKind (scope.mapValues Model.kind) c .bool := by
      rw [← hb]
      exact hasKind_of_infer hc
    rcases h with hy | ⟨y', hy, h⟩
    · obtain ⟨err, p, rfl, hp⟩ := first_of_infer hvy hy
      exact ⟨err, 2 :: p, rfl, hp.inYes hck⟩
    rcases h with hn | ⟨n', hn, hne, rfl⟩
    · obtain ⟨err, p, rfl, hp⟩ := first_of_infer hvn hn
      exact ⟨err, 3 :: p, rfl, hp.inNo hck (hasKind_of_infer hy)⟩
    · exact ⟨_, [4], rfl, first_branches hck (finds_of_infer hy) (finds_of_infer hn) hne⟩
  | .bind a x b k, scope, f, hv, h => by
    obtain ⟨hvb, hvk⟩ := Expr.isValued_bind.1 hv
    rcases infer_bind_eq_error.1 h with hb | ⟨b', hb, hk⟩
    · obtain ⟨err, p, rfl, hp⟩ := first_of_infer hvb hb
      exact ⟨err, 0 :: p, rfl, hp.inBound⟩
    · have hk : infer (Env.mapValues some ((x, b'.model) :: scope)) k = .error f := hk
      obtain ⟨err, p, rfl, hp⟩ := first_of_infer hvk hk
      exact ⟨err, 1 :: p, rfl, hp.inBody (hasKind_of_infer hb)⟩
  | .hole, _, _, hv, _ => nomatch hv

/-- No elaboration reports a mismatch, whatever the expression and its scope. -/
theorem infer_ne_mismatch : ∀ {e : Expr A} {env : Env (Option (Model A))} {m m' : Model A},
    infer env e ≠ .error (.illTyped (.mismatch m m'))
  | .lit a v, env, m, m', h => by cases v <;> cases h
  | .var a x, env, m, m', h => by
    rw [infer] at h
    rcases hx : env.get? x with _ | _ | m₀ <;> rw [hx] at h <;> cases h
  | .cond a c y n, env, m, m', h => by
    rcases infer_cond_eq_error.1 h with hc | ⟨c', -, ⟨-, h⟩ | ⟨-, hy | ⟨y', -, hn | ⟨n', -, -, h⟩⟩⟩⟩
    · exact infer_ne_mismatch hc
    · cases h
    · exact infer_ne_mismatch hy
    · exact infer_ne_mismatch hn
    · cases h
  | .bind a x b k, env, m, m', h => by
    rcases infer_bind_eq_error.1 h with hb | ⟨b', -, hk⟩
    · exact infer_ne_mismatch hb
    · exact infer_ne_mismatch hk
  | .hole, _, _, _, h => by cases h

/-- Elaboration decides the type system. In a scope of models it succeeds on a finished expression
exactly when that has a kind, which is then the only one and that of the root's model; on any other
it reports the offence that comes first, which is never a mere mismatch. -/
theorem infer_decides (scope : Env (Model A)) {e : Expr A} (hv : e.isValued = true) :
    ((∃ t, infer (scope.mapValues some) e = .ok t) ↔
      ∃ K, HasKind (scope.mapValues Model.kind) e K) ∧
    (∀ t, infer (scope.mapValues some) e = .ok t → t.tree.ann? = some t.model ∧
      ∀ K, HasKind (scope.mapValues Model.kind) e K ↔ K = t.model.kind) ∧
    (∀ f, infer (scope.mapValues some) e = .error f ↔
      ∃ err p, f = .illTyped err ∧ First (scope.mapValues Model.kind) e p err) ∧
    ∀ m m', infer (scope.mapValues some) e ≠ .error (.illTyped (.mismatch m m')) := by
  refine ⟨⟨?_, ?_⟩, fun t ht => ⟨ann?_of_infer ht, fun K => ?_⟩, fun f => ⟨first_of_infer hv, ?_⟩,
    fun m m' => infer_ne_mismatch⟩
  · rintro ⟨t, ht⟩
    exact ⟨_, hasKind_of_infer ht⟩
  · rintro ⟨K, hK⟩
    obtain ⟨t, ht, -⟩ := exists_infer hK
    exact ⟨t, ht⟩
  · constructor
    · intro hK
      exact hK.unique (hasKind_of_infer ht)
    · rintro rfl
      exact hasKind_of_infer ht
  · rintro ⟨err, p, rfl, hp⟩
    -- an expression that offends does not elaborate, and what is reported of it is the first offence
    cases ht : infer (scope.mapValues some) e with
    | ok t => exact absurd hp.offends (hasKind_of_infer ht).not_offends
    | error g =>
      obtain ⟨err', q, rfl, hq⟩ := first_of_infer hv ht
      rw [hp.unique hq]

/-- A conditional whose second arm has a number for its test, though a boolean is bound in it, and
offends again in its own first arm. -/
def numberAsPredicate : Expr Nat :=
  .cond 1 (.lit 2 (some (.bool true))) (.var 3 nameX)
    (.cond 4 (.bind 5 nameX (.lit 6 (some (.bool true))) (.lit 7 (some (.int 7))))
      (.cond 8 (.var 9 nameX) (.var 10 nameX) (.var 11 nameX)) (.var 12 nameX))

theorem infer_numberAsPredicate :
    numberAsPredicate.isValued = true ∧
      infer [(nameX, some ⟨.int, 0⟩)] numberAsPredicate =
        .error (.illTyped (.predicateNotBool 4 ⟨.int, 7⟩)) ∧
      ∃ p, First [(nameX, .int)] numberAsPredicate p (.predicateNotBool 4 ⟨.int, 7⟩) := by
  have hv : numberAsPredicate.isValued = true := rfl
  have herr : infer (Env.mapValues some [(nameX, ⟨.int, 0⟩)]) numberAsPredicate =
      .error (.illTyped (.predicateNotBool 4 ⟨.int, 7⟩)) := rfl
  obtain ⟨err, p, herr', hp⟩ := ((infer_decides [(nameX, ⟨.int, 0⟩)] hv).2.2.1 _).1 herr
  cases herr'
  exact ⟨hv, herr, p, hp⟩

/-! ## Checking against a model -/

/-- A mismatch, told as what it means where it shows. -/
def Failure.retag (f : Model A → Model A → TypeError A) : Failure A → Failure A
  | .illTyped (.mismatch m m') => .illTyped (f m m')
  | g => g

theorem retag_of_infer {e : Expr A} {env : Env (Option (Model A))} {g : Failure A}
    (h : infer env e = .error g) (f : Model A → Model A → TypeError A) : g.retag f = g := by
  unfold Failure.retag
  split
  · exact absurd h infer_ne_mismatch
  · rfl

theorem subtype_some (m m' : Model A) : subtype (some m) (some m') =
    if m'.kind = m.kind then .ok m else .error (.illTyped (.mismatch m m')) := by
  show Except.mapError Failure.illTyped (unify m m') = _
  unfold unify
  by_cases h : m.Compatible m'
  · rw [if_pos h, if_pos (Eq.symm h)]; rfl
  · rw [if_neg h, if_neg (Ne.symm h)]; rfl

theorem check_eq (env : Env (Option (Model A))) (e : Expr A) (m : Model A)
    (f : Model A → Model A → TypeError A) :
    (check env e (some m)).mapError (·.retag f) = infer env e >>= fun t =>
      if t.model.kind = m.kind then pure (t.recast m) else throw (.illTyped (f m t.model)) := by
  unfold check
  cases h : infer env e with
  | error g => exact congrArg Except.error (retag_of_infer h f)
  | ok t =>
    show Except.mapError _ (subtype (some m) (some t.model) >>= fun m' => pure (t.recast m')) = ite _ _ _
    rw [subtype_some]
    split <;> rfl

/-- A conditional may as well be elaborated by checking its test and its second arm and telling the
mismatches apart by where they arise: none comes from deeper down. -/
theorem infer_cond_eq_check (env : Env (Option (Model A))) (a : A) (c y n : Expr A) :
    infer env (.cond a c y n) = do
      let c ← (check env c (some ⟨.bool, a⟩)).mapError (·.retag fun _ found => .predicateNotBool a found)
      let y ← infer env y
      let n ← (check env n (some y.model)).mapError (·.retag fun yes no => .branchesDiffer a yes no)
      return ⟨n.model, .cond n.model c.tree y.tree n.tree⟩ := by
  simp only [check_eq, infer, bind_assoc]
  refine bind_congr fun c' => ?_
  by_cases hb : c'.model.kind = .bool
  · simp only [hb, ne_eq, not_true_eq_false, if_true, if_false, pure_bind]
    refine bind_congr fun y' => bind_congr fun n' => ?_
    by_cases hk : n'.model.kind = y'.model.kind
    · simp only [hk, not_true_eq_false, if_true, if_false]
      rfl
    · simp only [hk, not_false_eq_true, if_true, if_false]
      rfl
  · simp only [hb, ne_eq, not_false_eq_true, if_true, if_false]
    rfl

end Typing

end LetIf
