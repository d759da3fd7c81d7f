/-
Values of the language: booleans and 32-bit integers. On the machine both are one 32-bit word.
-/
import LetIf.Text.Basic

namespace LetIf

inductive Value where
  | bool (b : Bool)
  | int (n : Int32)
  deriving DecidableEq, Repr

namespace Value

/-- A value as it is printed. -/
def text : Value → Text
  | .bool true => "True"
  | .bool false => "False"
  | .int n => Text.ofInt n.toInt

/-- The word that stands for the value on the machine. -/
def word : Value → Int32
  | .bool b => if b then 1 else 0
  | .int n => n

/-- The machine-level class of a value. -/
inductive Class where
  | bool
  | int32
  deriving DecidableEq, Repr

def Class.name : Class → Text
  | .bool => "bool"
  | .int32 => "int32"

def Class.ofCode? : UInt8 → Option Class
  | 1 => some .bool
  | 2 => some .int32
  | _ => none

def class_ : Value → Class
  | .bool _ => .bool
  | .int _ => .int32

end Value

/-- The name of a value class by its number. -/
def classNameOfCode (code : UInt8) : Text :=
  ((Value.Class.ofCode? code).map Value.Class.name).getD "invalid"

end LetIf
