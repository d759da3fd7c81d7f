/-
Scopes. `Env` is the chain of bindings around one point of an expression. `Scopes` is a growing
collection of scopes in which a child keeps seeing what is later set in its parents.
-/
import LetIf.Ident

namespace LetIf

/-- The bindings in force at a point, the innermost first. -/
abbrev Env (V : Type) := List (Ident × V)

/-- What the innermost binding of a name gives it. -/
def Env.get? {V : Type} (env : Env V) (x : Ident) : Option V := env.lookup x

/-- A scope of a collection: its parent, if it has one, and its own bindings, the latest first. -/
structure Scope (V : Type) where
  parent : Option Nat
  bindings : Env V

/-- A collection of scopes, the newest first. A scope is named by the number of scopes that are
older. -/
structure Scopes (V : Type) where
  newestFirst : List (Scope V) := []

namespace Scopes

variable {V : Type}

def count (s : Scopes V) : Nat := s.newestFirst.length

/-- Adds a scope without bindings below `parent`, and gives its number. -/
def add (s : Scopes V) (parent : Option Nat) : Nat × Scopes V :=
  (s.count, ⟨⟨parent, []⟩ :: s.newestFirst⟩)

/-- Looks a name up in the scope called `id` and then in its ancestors. A parent is older than its
children, so the search goes down the list once. -/
def find : List (Scope V) → (id : Nat) → Ident → Option V
  | [], _, _ => none
  | scope :: older, id, x =>
    if id = older.length then
      match scope.bindings.get? x with
      | some v => some v
      | none => scope.parent.bind fun p => find older p x
    else find older id x

/-- What a name means in a scope; without a scope it means nothing. -/
def get? (s : Scopes V) (id : Option Nat) (x : Ident) : Option V :=
  id.bind fun id => find s.newestFirst id x

/-- Binds a name in one scope, hiding its earlier binding there. -/
def setIn : List (Scope V) → (id : Nat) → Ident → V → List (Scope V)
  | [], _, _, _ => []
  | scope :: older, id, x, v =>
    if id = older.length then { scope with bindings := (x, v) :: scope.bindings } :: older
    else scope :: setIn older id x v

def set (s : Scopes V) (id : Nat) (x : Ident) (v : V) : Scopes V := ⟨setIn s.newestFirst id x v⟩

end Scopes

end LetIf
