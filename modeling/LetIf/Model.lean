/-
Models, the types of the language. A model is a kind together with an annotation that says where
it came from; two models are compatible when their kinds agree.
-/
import LetIf.Report

namespace LetIf

inductive Kind where
  | int
  | bool
  deriving DecidableEq, Repr

namespace Kind

def name : Kind → Text
  | .int => "Int"
  | .bool => "Bool"

def ofCode? : UInt8 → Option Kind
  | 1 => some .int
  | 2 => some .bool
  | _ => none

/-- The name of a kind by its number. -/
def nameOfCode (code : UInt8) : Text := ((ofCode? code).map name).getD "Invalid"

end Kind

structure Model (A : Type) where
  kind : Kind
  ann : A
  deriving DecidableEq, Repr

namespace Model

variable {A B : Type}

def map (f : A → B) (m : Model A) : Model B := ⟨m.kind, f m.ann⟩

def erase (m : Model A) : Model Unit := m.map fun _ => ()

/-- Models of the same kind. -/
def Compatible (a : Model A) (b : Model B) : Prop := a.kind = b.kind

instance (a : Model A) (b : Model B) : Decidable (Compatible a b) :=
  inferInstanceAs (Decidable (a.kind = b.kind))

/-- A model as a report shows it: its kind, and where it comes from. -/
def describe [Located A] : Option (Model A) → Text
  | none => "(unknown)"
  | some m =>
    let place := Located.location m.ann
    if place.isEmpty then m.kind.name else m.kind.name ++ " (at " ++ place ++ ")"

end Model

end LetIf
