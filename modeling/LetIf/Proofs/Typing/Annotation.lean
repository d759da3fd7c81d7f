/-
Elaboration against one pass from the root. Elaboration works from the leaves and rewrites a whole
subtree whenever the check around it succeeds, so an inner node may be rewritten many times; the
pass visits every node once. The model of the root is found before the rest is looked at, and the
subtrees that elaboration checks get one model without being looked into. Both give the same tree,
because the last rewriting of a node is that of the outermost check around it.
-/
import LetIf.Program
import LetIf.Proofs.Typing.Offences

namespace LetIf.Typing

variable {A : Type}

/-! ## The pass -/

/-- The model of the root: that of the leaf to which first arms and bodies lead. -/
def rootModel? (scope : Env (Model A)) : Expr A → Option (Model A)
  | .lit a v => v.map fun v => ⟨v.kind, a⟩
  | .var a x => (scope.get? x).map fun m => ⟨m.kind, a⟩
  | .cond _ _ y _ => rootModel? scope y
  | .bind _ x b k => do
    let l ← rootModel? scope b
    rootModel? ((x, l) :: scope) k
  | .hole => none

/-- The same expression with one model at every node. -/
def uniform (m : Model A) (e : Expr A) : Expr (Model A) := e.map fun _ => m

/-- Annotates an expression from the root down. The test and the second arm of a conditional are
uniform, whatever is in them; the other parts are annotated by themselves. -/
def annotate (scope : Env (Model A)) : Expr A → Option (Expr (Model A))
  | .lit a v => do
    let m ← rootModel? scope (.lit a v)
    return .lit m v
  | .var a x => do
    let m ← rootModel? scope (.var a x)
    return .var m x
  | .cond a c y n => do
    let m ← rootModel? scope y
    let y ← annotate scope y
    return .cond m (uniform ⟨.bool, a⟩ c) y (uniform m n)
  | .bind _ x b k => do
    let l ← rootModel? scope b
    let m ← rootModel? ((x, l) :: scope) k
    let b ← annotate scope b
    let k ← annotate ((x, l) :: scope) k
    return .bind m x b k
  | .hole => none

/-! ## Elaborated trees -/

theorem rootModel?_of_infer : ∀ {e : Expr A} {scope : Env (Model A)} {t : Elaborated A},
    infer (scope.mapValues some) e = .ok t → rootModel? scope e = some t.model
  | .lit a v, scope, t, h => by
    obtain ⟨w, rfl, rfl⟩ := infer_lit_eq_ok.1 h
    rfl
  | .var a x, scope, t, h => by
    obtain ⟨m, hm, rfl⟩ := infer_var_eq_ok.1 h
    rw [Env.get?_mapValues, Option.map_eq_some_iff] at hm
    obtain ⟨m', hm', h'⟩ := hm
    cases h'
    rw [rootModel?, hm']
    rfl
  | .cond a c y n, scope, t, h => by
    obtain ⟨c', y', n', -, -, hy, -, -, rfl⟩ := infer_cond_eq_ok.1 h
    have hm : rootModel? scope y = some y'.model := rootModel?_of_infer hy
    exact hm
  | .bind a x b k, scope, t, h => by
    obtain ⟨b', k', hb, hk, rfl⟩ := infer_bind_eq_ok.1 h
    have hk : rootModel? ((x, b'.model) :: scope) k = some k'.model := rootModel?_of_infer hk
    rw [rootModel?, rootModel?_of_infer hb]
    exact hk
  | .hole, _, _, h => by cases h

/-- Rewriting forgets what the tree carried before, so a tree that has been elaborated is rewritten
to what the expression itself would be. -/
theorem recast_tree_of_infer {e : Expr A} {env : Env (Option (Model A))} {t : Elaborated A}
    (h : infer env e = .ok t) (m : Model A) : (t.recast m).tree = uniform m e := by
  have herase : t.tree.erase.map (fun _ => m) = e.erase.map fun _ => m :=
    congrArg (·.map fun _ => m) (erase_of_infer h)
  unfold Expr.erase at herase
  rw [Expr.map_map, Expr.map_map] at herase
  exact herase

theorem annotate_of_infer : ∀ {e : Expr A} {scope : Env (Model A)} {t : Elaborated A},
    infer (scope.mapValues some) e = .ok t → annotate scope e = some t.tree
  | .lit a v, scope, t, h => by
    have hm := rootModel?_of_infer h
    obtain ⟨w, rfl, rfl⟩ := infer_lit_eq_ok.1 h
    rw [annotate, hm]
    rfl
  | .var a x, scope, t, h => by
    have hm := rootModel?_of_infer h
    obtain ⟨m, -, rfl⟩ := infer_var_eq_ok.1 h
    rw [annotate, hm]
    rfl
  | .cond a c y n, scope, t, h => by
    obtain ⟨c', y', n', hc, -, hy, hn, -, rfl⟩ := infer_cond_eq_ok.1 h
    rw [annotate, rootModel?_of_infer hy, annotate_of_infer hy, recast_tree_of_infer hc,
      recast_tree_of_infer hn]
    rfl
  | .bind a x b k, scope, t, h => by
    obtain ⟨b', k', hb, hk, rfl⟩ := infer_bind_eq_ok.1 h
    have hm : rootModel? ((x, b'.model) :: scope) k = some k'.model := rootModel?_of_infer hk
    have hk : annotate ((x, b'.model) :: scope) k = some k'.tree := annotate_of_infer hk
    rw [annotate, rootModel?_of_infer hb, annotate_of_infer hb, Option.bind_eq_bind, Option.bind_some, hm, hk]
    rfl
  | .hole, _, _, h => by cases h

/-- A check succeeds when the kinds agree, and its tree is uniform. -/
theorem check_eq_ok {env : Env (Option (Model A))} {e : Expr A} {want : Model A} {r : Elaborated A} :
    check env e (some want) = .ok r ↔
      (∃ t, infer env e = .ok t ∧ t.model.kind = want.kind) ∧ r = ⟨want, uniform want e⟩ := by
  unfold check
  simp only [bind_eq_ok, pure_eq_ok, subtype_some]
  constructor
  · rintro ⟨t, ht, m, hm, rfl⟩
    split at hm
    · rename_i hk
      cases hm
      refine ⟨⟨t, ht, hk⟩, ?_⟩
      rw [← recast_tree_of_infer ht]
      rfl
    · cases hm
  · rintro ⟨⟨t, ht, hk⟩, rfl⟩
    refine ⟨t, ht, want, if_pos hk, ?_⟩
    rw [← recast_tree_of_infer ht]
    rfl

theorem origin?_of_eval {src : Text} {v : Value} {m : Model Position} (h : Program.eval src = .ok (v, m)) :
    ∃ e, Source.parse src = .ok e ∧ e.origin? = some m.ann := by
  unfold Program.eval Program.check at h
  simp only [bind_eq_ok, pure_eq_ok, mapError_eq_ok] at h
  obtain ⟨t, ⟨e, he, ht⟩, w, -, hvm⟩ := h
  cases hvm
  exact ⟨e, he, origin?_of_infer ht⟩

/-- Elaboration is one pass from the root. An expression that elaborates in a scope of models keeps
its structure, names and values, and carries the models of the pass; the model of the root, which
evaluating a source reports too, has the annotation of the leaf to which first arms and bodies lead.
A check against a model succeeds exactly when the expression elaborates to one of its kind, and puts
it at every node. -/
theorem infer_eq_annotate (scope : Env (Model A)) (e : Expr A) :
    (∀ t, infer (scope.mapValues some) e = .ok t → t.tree.erase = e.erase ∧
      annotate scope e = some t.tree ∧ t.tree.ann? = some t.model ∧ e.origin? = some t.model.ann) ∧
    (∀ want r, check (scope.mapValues some) e (some want) = .ok r ↔
      (∃ t, infer (scope.mapValues some) e = .ok t ∧ t.model.kind = want.kind) ∧
        r = ⟨want, uniform want e⟩) ∧
    ∀ src v m, Program.eval src = .ok (v, m) → ∃ x, Source.parse src = .ok x ∧ x.origin? = some m.ann := by
  refine ⟨fun t ht => ⟨erase_of_infer ht, annotate_of_infer ht, ann?_of_infer ht, origin?_of_infer ht⟩,
    fun want r => check_eq_ok, fun src v m h => origin?_of_eval h⟩

/-- A binding whose body is a conditional. The test binds a number around a conditional, and the second
arm is a conditional too. Every node has another annotation. -/
def layeredChecks : Expr Nat :=
  .bind 0 nameX (.lit 1 (some (.bool true)))
    (.cond 2
      (.bind 3 nameX (.lit 4 (some (.int 5))) (.cond 5 (.lit 6 (some (.bool true))) (.lit 7 (some (.bool false)))
        (.lit 8 (some (.bool true)))))
      (.var 9 nameX)
      (.cond 10 (.var 11 nameX) (.lit 12 (some (.bool false))) (.var 13 nameX)))

/-- Its elaboration: the test carries annotation 2 throughout, and the second arm annotation 9. -/
def layeredTree : Expr (Model Nat) :=
  .bind ⟨.bool, 9⟩ nameX (.lit ⟨.bool, 1⟩ (some (.bool true)))
    (.cond ⟨.bool, 9⟩
      (.bind ⟨.bool, 2⟩ nameX (.lit ⟨.bool, 2⟩ (some (.int 5))) (.cond ⟨.bool, 2⟩ (.lit ⟨.bool, 2⟩ (some (.bool true)))
        (.lit ⟨.bool, 2⟩ (some (.bool false))) (.lit ⟨.bool, 2⟩ (some (.bool true)))))
      (.var ⟨.bool, 9⟩ nameX)
      (.cond ⟨.bool, 9⟩ (.var ⟨.bool, 9⟩ nameX) (.lit ⟨.bool, 9⟩ (some (.bool false))) (.var ⟨.bool, 9⟩ nameX)))

theorem infer_layeredChecks :
    infer [] layeredChecks = .ok ⟨⟨.bool, 9⟩, layeredTree⟩ ∧ annotate [] layeredChecks = some layeredTree ∧
      layeredChecks.origin? = some 9 ∧
      check [] layeredChecks (some ⟨.bool, 14⟩) = .ok ⟨⟨.bool, 14⟩, uniform ⟨.bool, 14⟩ layeredChecks⟩ := by
  have h : infer [] layeredChecks = .ok ⟨⟨.bool, 9⟩, layeredTree⟩ := rfl
  obtain ⟨-, ha, -, ho⟩ := (infer_eq_annotate [] layeredChecks).1 _ h
  exact ⟨h, ha, ho, ((infer_eq_annotate [] layeredChecks).2.1 _ _).2 ⟨⟨_, h, rfl⟩, rfl⟩⟩

end LetIf.Typing
