/-
Dumps: the structure of trees and modules, laid out for reading. A record is a line for each of its
fields, and the values of neighbouring fields are aligned; a value that takes several lines ends
such a run of neighbours.
-/
import LetIf.Code.Instr
import LetIf.Expr.Basic
import LetIf.Model

namespace LetIf.Dump

open Text

/-- What is laid out: something on one line, a record, or a sequence. -/
inductive Layout where
  | inline (t : Text)
  | record (type : Text) (fields : List (Text × Layout))
  | sequence (items : List Layout)

def Layout.isInline : Layout → Bool
  | .inline _ => true
  | _ => false

/-- The least width of a column of field names. -/
def minWidth : Nat := 5

/-- The width of the names of the first run of neighbours, given whether each value is on one
line. -/
def runWidth : List (Nat × Bool) → Nat
  | [] => minWidth
  | (length, inline) :: rest =>
    let width := max minWidth (length + 2)
    if inline then max width (runWidth rest) else width

/-- The column of names for each field. -/
def widths (current : Option Nat) : List (Nat × Bool) → List Nat
  | [] => []
  | (length, inline) :: rest =>
    let width := current.getD (runWidth ((length, inline) :: rest))
    width :: widths (if inline then some width else none) rest

def spaces (n : Nat) : Text := List.replicate n (byte ' ')

mutual

/-- The text of a layout whose first line is already indented by `indent`. -/
def render (indent : Nat) : Layout → Text
  | .inline t => t
  | .record type fields =>
    type ++ "\x7b\n" ++
      renderFields (indent + 4) (widths none (fields.map fun (n, v) => (n.length, v.isInline)))
        fields ++
      spaces indent ++ "\x7d"
  | .sequence items => "\x7b\n" ++ renderItems (indent + 4) items ++ spaces indent ++ "\x7d"

def renderFields (indent : Nat) : List Nat → List (Text × Layout) → Text
  | width :: more, (name, v) :: rest =>
    spaces indent ++ name ++ ":" ++ spaces (width - (name.length + 1)) ++ render indent v ++
      ",\n" ++ renderFields indent more rest
  | _, _ => []

def renderItems (indent : Nat) : List Layout → Text
  | [] => []
  | v :: rest => spaces indent ++ render indent v ++ ",\n" ++ renderItems indent rest

end

/-! ## Expressions -/

/-- Annotations that have a layout and a type name. -/
class Shape (A : Type) where
  typeName : Text
  layout : A → Layout

def positionType : Text := "github.com/karmarun/exprc/parse.Position"

instance : Shape Position where
  typeName := positionType
  layout p := .inline
    ("parse.Position\x7bLine:" ++ Text.ofNat p.line ++ ", Column:" ++ Text.ofNat p.column ++
      "\x7d")

instance {A : Type} [Shape A] : Shape (Model A) where
  typeName := "github.com/karmarun/exprc/kvm/mdl.Model[" ++ Shape.typeName A ++ "]"
  layout m :=
    .record ("mdl." ++ m.kind.name ++ "[" ++ Shape.typeName A ++ "]") [("Ann", Shape.layout m.ann)]

def ofValue : Value → Layout
  | .bool true => .inline "val.Bool(true)"
  | .bool false => .inline "val.Bool(false)"
  | .int n => .inline ("val.Int32(" ++ ofInt n.toInt ++ ")")

def ofIdent (x : Ident) : Layout := .inline ("xpr.Identifier\x7bname:" ++ quoted x.text ++ "\x7d")

def ofExpr {A : Type} [Shape A] : Expr A → Layout
  | .lit a v =>
    .record (node "Literal")
      [("Ann", Shape.layout a), ("Value", (v.map ofValue).getD (.inline "nil"))]
  | .var a x => .record (node "Var") [("Ann", Shape.layout a), ("Name", ofIdent x)]
  | .cond a c y n =>
    .record (node "If")
      [("Ann", Shape.layout a), ("Condition", ofExpr c), ("Then", ofExpr y), ("Else", ofExpr n)]
  | .bind a x b k =>
    .record (node "Let")
      [("Ann", Shape.layout a), ("Name", ofIdent x), ("Bound", ofExpr b), ("Body", ofExpr k)]
  | .hole => .inline "nil"
where
  node (name : Text) : Text := "xpr." ++ name ++ "[" ++ Shape.typeName A ++ "]"

/-! ## Modules -/

def hexNumber (n : Nat) : Text := "0x" ++ hex 1 n

/-- An instruction that holds one number, which is left out when it is zero. -/
def oneField (type field : Text) (isZero : Bool) (n : Text) : Layout :=
  let shown : Text := if isZero then [] else field ++ ":" ++ n
  .inline (type ++ "\x7b" ++ shown ++ "\x7d")

/-- The nesting from which on instructions are not shown. -/
def maxNesting : Nat := 10

mutual

/-- An instruction inside `nesting` conditionals. -/
def ofInstr (nesting : Nat) : Instr → Layout
  | .const n => oneField "inst.Constant" "Value" (n == 0) (ofInt n.toInt)
  | .select => .inline "inst.Select\x7b\x7d"
  | .branch yes no =>
    .record "inst.If" [("Then", ofCode (nesting + 1) yes), ("Else", ofCode (nesting + 1) no)]
  | .localGet i => oneField "inst.LocalGet" "Index" (i == 0) (hexNumber i.toNat)
  | .localSet i => oneField "inst.LocalSet" "Index" (i == 0) (hexNumber i.toNat)
  | .stop => .inline "inst.End\x7b\x7d"
  | .unknown => .inline "nil"

def ofCode (nesting : Nat) (code : List Instr) : Layout :=
  .sequence (ofInstrs nesting code)

def ofInstrs (nesting : Nat) : List Instr → List Layout
  | [] => []
  | i :: rest =>
    (if maxNesting ≤ nesting then .inline "!%v(DEPTH EXCEEDED)" else ofInstr nesting i) ::
      ofInstrs nesting rest

end

def ofModule (m : Module) : Layout :=
  .record "inst.Module"
    [("Export", .inline (quoted m.name)), ("Locals", .inline (hexNumber m.locals.toNat)),
      ("Body", ofCode 0 m.body)]

/-- The dump of an expression. -/
def expr {A : Type} [Shape A] (e : Expr A) : Text := render 0 (ofExpr e)

/-- The dump of a module. -/
def module (m : Module) : Text := render 0 (ofModule m)

end LetIf.Dump
