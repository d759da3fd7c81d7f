/-
Expressions with an annotation at every node: literals, variables, conditionals and bindings. An
expression under construction may have holes and literals without a value; the operations that
cannot work on those say so.
-/
import LetIf.Defect

namespace LetIf

inductive Expr (A : Type) where
  | lit (ann : A) (value : Option Value)
  | var (ann : A) (name : Ident)
  | cond (ann : A) (test yes no : Expr A)
  | bind (ann : A) (name : Ident) (bound body : Expr A)
  | hole
  deriving DecidableEq

namespace Expr

variable {A B : Type}

/-- The annotation of the root, unless it is a hole. -/
def ann? : Expr A → Option A
  | .lit a _ | .var a _ | .cond a .. | .bind a .. => some a
  | .hole => none

/-- Expressions without holes. -/
def isWhole : Expr A → Bool
  | .lit .. | .var .. => true
  | .cond _ c y n => c.isWhole && y.isWhole && n.isWhole
  | .bind _ _ b k => b.isWhole && k.isWhole
  | .hole => false

/-- The number of nodes, holes included. -/
def size : Expr A → Nat
  | .lit .. | .var .. | .hole => 1
  | .cond _ c y n => 1 + c.size + y.size + n.size
  | .bind _ _ b k => 1 + b.size + k.size

/-! ## Annotations -/

def map (f : A → B) : Expr A → Expr B
  | .lit a v => .lit (f a) v
  | .var a x => .var (f a) x
  | .cond a c y n => .cond (f a) (c.map f) (y.map f) (n.map f)
  | .bind a x b k => .bind (f a) x (b.map f) (k.map f)
  | .hole => .hole

/-- Replaces the annotations in order, a node before its children and those from the left, each
with the next state. -/
def mapState {S : Type} (f : A → S → B × S) : Expr A → S → Expr B × S
  | .lit a v, s => let (b, s) := f a s; (.lit b v, s)
  | .var a x, s => let (b, s) := f a s; (.var b x, s)
  | .cond a c y n, s =>
    let (b, s) := f a s
    let (c, s) := c.mapState f s
    let (y, s) := y.mapState f s
    let (n, s) := n.mapState f s
    (.cond b c y n, s)
  | .bind a x e k, s =>
    let (b, s) := f a s
    let (e, s) := e.mapState f s
    let (k, s) := k.mapState f s
    (.bind b x e k, s)
  | .hole, s => (.hole, s)

def erase (e : Expr A) : Expr Unit := e.map fun _ => ()

/-- An expression, provided it has no hole. -/
def whole (e : Expr A) : Except Defect (Expr A) :=
  if e.isWhole then .ok e else .error .mapHole

/-! ## Equality up to annotations -/

/-- Compares two expressions without regard to annotations, from the left. A literal without a
value on the left cannot be compared. -/
def agree : Expr A → Expr B → Except Defect Bool
  | .lit _ v, .lit _ w =>
    match v with
    | some v => .ok (some v == w)
    | none => .error .absent
  | .var _ x, .var _ y => .ok (x = y)
  | .cond _ c y n, .cond _ c' y' n' => do
    if ← c.agree c' then
      if ← y.agree y' then n.agree n' else return false
    else return false
  | .bind _ x b k, .bind _ x' b' k' => do
    if x ≠ x' then return false
    if ← b.agree b' then k.agree k' else return false
  | _, _ => .ok false

/-- Whether two expressions are the same up to annotations. -/
def equal (x : Expr A) (y : Expr B) : Except Defect Bool := do
  let x ← x.whole
  let y ← y.whole
  x.agree y

end Expr

end LetIf
