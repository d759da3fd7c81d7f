/-
Evaluation. The value of an expression is a literal that occurs in it, with that literal's
annotation; only the arm that is taken is evaluated.
-/
import LetIf.Expr.Basic
import LetIf.Scope

namespace LetIf

/-- A literal by itself. -/
structure Literal (A : Type) where
  ann : A
  value : Option Value
  deriving DecidableEq

namespace Expr

variable {A : Type}

def evaluateIn (env : Env (Literal A)) : Expr A → Except InternalError (Literal A)
  | .lit a v => .ok ⟨a, v⟩
  | .var _ x =>
    match env.get? x with
    | some l => .ok l
    | none => .error (.evaluateFree x)
  | .cond _ c y n => do
    match (← evaluateIn env c).value with
    | some (.bool true) => evaluateIn env y
    | some (.bool false) => evaluateIn env n
    | v => throw (.evaluateCondition v)
  | .bind _ x b k => do
    let l ← evaluateIn env b
    evaluateIn ((x, l) :: env) k
  | .hole => .error .evaluateHole

/-- The literal that an expression evaluates to. -/
def evaluate (e : Expr A) : Except InternalError (Literal A) := e.evaluateIn []

/-- The value that an expression evaluates to. -/
def value (e : Expr A) : Except Defect Value := do
  match (← e.evaluate.mapError .internal).value with
  | some v => return v
  | none => throw .absent

end Expr

end LetIf
