/-
Lowering of expressions to modules. Every binding gets a slot of its own, numbered in the order in
which bindings are met; a variable reads the slot of the binding around it.
-/
import LetIf.Expr.Basic
import LetIf.Scope
import LetIf.Code.Instr

namespace LetIf

/-- How an expression is to be lowered, and under which name exported. -/
structure Target where
  strategy : Strategy
  name : Text
  deriving DecidableEq, Repr

/-- The export name of a target; an empty one stands for the default. -/
def Target.exportName (t : Target) : Text :=
  if t.name.isEmpty then Module.defaultName else t.name

namespace Expr

variable {A : Type}

/-- The code of an expression and the next free slot. -/
def code (strategy : Strategy) (env : Env UInt32) (next : UInt32) :
    Expr A → Except Defect (List Instr × UInt32)
  | .lit _ (some v) => .ok ([.const v.word], next)
  | .lit _ none => .error .absent
  | .var _ x =>
    match env.get? x with
    | some slot => .ok ([.localGet slot], next)
    | none => .error (.internal (.lowerFree x))
  | .cond _ c y n =>
    match strategy with
    | .select => do
      let (y, next) ← code strategy env next y
      let (n, next) ← code strategy env next n
      let (c, next) ← code strategy env next c
      return (y ++ n ++ c ++ [.select], next)
    | .branch => do
      let (c, next) ← code strategy env next c
      let (y, next) ← code strategy env next y
      let (n, next) ← code strategy env next n
      return (c ++ [.branch y n], next)
    | .unnamed _ => .error (.internal (.lowerStrategy strategy))
  | .bind _ x b k => do
    let slot := next
    let (b, next) ← code strategy env (next + 1) b
    let (k, next) ← code strategy ((x, slot) :: env) next k
    return (b ++ .localSet slot :: k, next)
  | .hole => .error (.internal .lowerHole)

/-- The module of a closed expression. -/
def lower (target : Target) (e : Expr A) : Except Defect Module := do
  let (code, slots) ← e.code target.strategy [] 0
  return ⟨target.exportName, slots, code ++ [.stop]⟩

end Expr

end LetIf
