/-
Expressions as source text. A conditional or a binding is put in parentheses unless it is the
whole text or stands at the end of an enclosing one, so the text reads back as the same
expression.
-/
import LetIf.Expr.Basic

namespace LetIf.Expr

variable {A : Type}

/-- Parentheses around a text that stands inside another. -/
def parens (nested : Bool) (t : Text) : Text := if nested then "(" ++ t ++ ")" else t

/-- The source text of an expression. -/
def printNested : (nested : Bool) → Expr A → Except Defect Text
  | _, .lit _ (some v) => .ok v.text
  | _, .lit _ none => .error .absent
  | _, .var _ x => .ok x.text
  | nested, .cond _ c y n => do
    let c ← c.printNested true
    let y ← y.printNested true
    let n ← n.printNested false
    return parens nested ("if " ++ c ++ " then " ++ y ++ " else " ++ n)
  | nested, .bind _ x b k => do
    let b ← b.printNested true
    let k ← k.printNested false
    return parens nested ("let " ++ x.text ++ " = " ++ b ++ " in " ++ k)
  | _, .hole => .error .printHole

def print (e : Expr A) : Except Defect Text := e.printNested false

end LetIf.Expr
