/-
Elaboration: every node of a well-typed expression gets a model. A leaf carries its own type and
annotation, a conditional the model of its first arm, a binding that of its body. A subexpression
that is checked against an expected model (a predicate, a second arm) carries that model at all of
its nodes.
-/
import LetIf.Typing.Error
import LetIf.Expr.Basic
import LetIf.Scope

namespace LetIf.Typing

variable {A : Type}

/-- Why an expression has no elaboration: it is ill-typed, or it is not fit to be typed. -/
inductive Failure (A : Type) where
  | illTyped (e : TypeError A)
  | defect (d : Defect)
  deriving DecidableEq

/-- An elaborated expression with the model of its root. -/
structure Elaborated (A : Type) where
  model : Model A
  tree : Expr (Model A)

/-- An elaborated expression with one model at all of its nodes. -/
def Elaborated.recast (m : Model A) (e : Elaborated A) : Elaborated A :=
  ⟨m, e.tree.map fun _ => m⟩

/-- Checks two models for compatibility and gives the first. -/
def unify (a b : Model A) : Except (TypeError A) (Model A) :=
  if a.Compatible b then .ok a else .error (.mismatch a b)

/-- A model where one has to be there. -/
def present (m : Option (Model A)) : Except (Failure A) (Model A) :=
  match m with
  | some m => .ok m
  | none => .error (.defect .noModel)

/-- `unify` for models that may be missing. -/
def subtype (a b : Option (Model A)) : Except (Failure A) (Model A) := do
  (unify (← present a) (← present b)).mapError .illTyped

/-- The elaboration of an expression in a scope. -/
def infer (env : Env (Option (Model A))) : Expr A → Except (Failure A) (Elaborated A)
  | .lit a (some v) =>
    let m : Model A := ⟨match v with | .bool _ => .bool | .int _ => .int, a⟩
    .ok ⟨m, .lit m (some v)⟩
  | .lit _ none => .error (.defect (.internal .inferNoValue))
  | .var a x =>
    match env.get? x with
    | none => .error (.illTyped (.unbound a x))
    | some none => .error (.defect .noModel)
    | some (some m) =>
      let m := m.map fun _ => a
      .ok ⟨m, .var m x⟩
  | .cond a c y n => do
    let c ← infer env c
    if c.model.kind ≠ .bool then throw (.illTyped (.predicateNotBool a c.model))
    let y ← infer env y
    let n ← infer env n
    if n.model.kind ≠ y.model.kind then throw (.illTyped (.branchesDiffer a y.model n.model))
    return ⟨y.model, .cond y.model (c.recast ⟨.bool, a⟩).tree y.tree (n.recast y.model).tree⟩
  | .bind _ x b k => do
    let b ← infer env b
    let k ← infer ((x, some b.model) :: env) k
    return ⟨k.model, .bind k.model x b.tree k.tree⟩
  | .hole => .error (.defect (.internal .inferHole))

/-- Elaborates an expression and holds it against an expected model, which then stands at every
node. -/
def check (env : Env (Option (Model A))) (e : Expr A) (expected : Option (Model A)) :
    Except (Failure A) (Elaborated A) := do
  let e ← infer env e
  let m ← subtype expected (some e.model)
  return e.recast m

end LetIf.Typing
