/-
Annotations carry no meaning. Whatever function is applied to the annotations of an expression, and to
those of the models around it, elaboration gives the elaboration of the expression with the function
applied to the annotations of all its models, or the same error with the function applied to the
annotations it carries. Evaluation gives the same literal with its annotation replaced, and lowering
the same module.
-/
import LetIf.Lowering
import LetIf.Typing.Elaborate
import LetIf.Proofs.Eval
import LetIf.Proofs.Expr.Basic

namespace LetIf

variable {A B : Type}

/-! ## Elaboration -/

namespace Typing

def Elaborated.map (f : A → B) (t : Elaborated A) : Elaborated B := ⟨t.model.map f, t.tree.map (Model.map f)⟩

def Failure.map (f : A → B) : Failure A → Failure B
  | .illTyped e => .illTyped (e.map f)
  | .defect d => .defect d

/-- A tree that is rewritten to one model may have had any annotations. -/
theorem tree_recast_map (f : A → B) (m : Model A) (t : Elaborated A) :
    ((t.map f).recast (m.map f)).tree = (t.recast m).tree.map (Model.map f) := by
  simp only [Elaborated.recast, Elaborated.map, Expr.map_map]
  rfl

theorem infer_map (f : A → B) : ∀ (e : Expr A) (env : Env (Option (Model A))),
    Alike (fun g g' => g' = g.map f) (fun t t' => t' = t.map f) (infer env e)
      (infer (env.mapValues (Option.map (Model.map f))) (e.map f))
  | .lit _ (some _), _ => .ok rfl
  | .lit _ none, _ => .error rfl
  | .var a x, env => by
    rw [Expr.map, infer, infer, Env.get?_mapValues]
    rcases env.get? x with _ | _ | m
    · exact .error rfl
    · exact .error rfl
    · exact .ok rfl
  | .cond a c y n, env => by
    rw [Expr.map, infer, infer]
    refine (infer_map f c env).bind fun c' _ hc => ?_
    subst hc
    refine Alike.ite_throw Iff.rfl rfl ?_
    refine (infer_map f y env).bind fun y' _ hy => ?_
    subst hy
    refine (infer_map f n env).bind fun n' _ hn => ?_
    subst hn
    refine Alike.ite_throw Iff.rfl rfl (.ok ?_)
    show Elaborated.mk _ (.cond _ ((c'.map f).recast (Model.map f ⟨.bool, a⟩)).tree _
      ((n'.map f).recast (y'.model.map f)).tree) = _
    rw [tree_recast_map, tree_recast_map]
    rfl
  | .bind a x b k, env => by
    rw [Expr.map, infer, infer]
    refine (infer_map f b env).bind fun b' _ hb => ?_
    subst hb
    refine (infer_map f k ((x, some b'.model) :: env)).bind fun k' _ hk => ?_
    subst hk
    exact .ok rfl
  | .hole, _ => .error rfl

end Typing

/-! ## Evaluation -/

def Literal.map (f : A → B) (l : Literal A) : Literal B := ⟨f l.ann, l.value⟩

namespace Expr

theorem evaluateIn_map (f : A → B) : ∀ (e : Expr A) (env : Env (Literal A)),
    Alike Eq (fun l l' => l' = l.map f) (e.evaluateIn env)
      ((e.map f).evaluateIn (env.mapValues (Literal.map f)))
  | .lit _ _, _ => .ok rfl
  | .var a x, env => by
    rw [map, evaluateIn, evaluateIn, Env.get?_mapValues]
    rcases env.get? x with _ | l
    · exact .error rfl
    · exact .ok rfl
  | .cond a c y n, env =>
    alike_evaluateIn_cond (fun l l' h => by rw [h]; rfl) (evaluateIn_map f c env) (evaluateIn_map f y env)
      (evaluateIn_map f n env)
  | .bind a x b k, env => by
    rw [map, evaluateIn, evaluateIn]
    refine (evaluateIn_map f b env).bind fun lb _ hb => ?_
    subst hb
    exact evaluateIn_map f k ((x, lb) :: env)
  | .hole, _ => .error rfl

/-! ## Lowering -/

theorem code_map (f : A → B) (s : Strategy) : ∀ (e : Expr A) (env : Env UInt32) (next : UInt32),
    (e.map f).code s env next = e.code s env next
  | .lit _ (some _), _, _ | .lit _ none, _, _ | .hole, _, _ => rfl
  | .var _ x, env, next => by rw [map, code, code]
  | .cond _ c y n, env, next => by
    cases s <;> simp only [map, code, code_map f _ c, code_map f _ y, code_map f _ n]
  | .bind _ x b k, env, next => by
    rw [map, code, code]
    simp only [code_map f s b, code_map f s k]

/-! ## All passes -/

/-- No pass looks at an annotation: each commutes with any function on them, where it succeeds and
where it fails. -/
theorem passes_map (f : A → B) (e : Expr A) :
    (∀ scope : Env (Model A), Typing.infer ((scope.mapValues (Model.map f)).mapValues some) (e.map f) =
      ((Typing.infer (scope.mapValues some) e).map (Typing.Elaborated.map f)).mapError
        (Typing.Failure.map f)) ∧
    (e.map f).evaluate = e.evaluate.map (Literal.map f) ∧
    ∀ target, (e.map f).lower target = e.lower target := by
  refine ⟨fun scope => ?_, ?_, fun target => ?_⟩
  · have hscope : (scope.mapValues (Model.map f)).mapValues some =
        (scope.mapValues some).mapValues (Option.map (Model.map f)) := by
      simp only [Env.mapValues, List.map_map]
      rfl
    rw [hscope]
    exact (Typing.infer_map f e _).eq_mapError
  · exact (evaluateIn_map f e []).eq_map
  · rw [lower, lower, code_map]

end Expr

end LetIf
