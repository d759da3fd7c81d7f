/-
Instructions of the stack machine and the modules made of them. A module is one function without
parameters that returns one word; it is exported under a name, has a number of local slots, and
its body ends in `stop`.
-/
import LetIf.Text.Basic

namespace LetIf

inductive Instr where
  /-- Pushes a word. -/
  | const (n : Int32)
  /-- Pops a condition, then two words, and pushes the lower of the two if the condition is not
  zero, else the upper. -/
  | select
  /-- Pops a condition and runs one of the arms. -/
  | branch (yes no : List Instr)
  | localGet (slot : UInt32)
  | localSet (slot : UInt32)
  /-- Ends a function body. -/
  | stop
  /-- An instruction that the machine does not have. -/
  | unknown
  deriving Repr

namespace Instr

mutual

/-- Whether two instructions are the same, arms included. -/
def same : Instr → Instr → Bool
  | .const m, .const n => m == n
  | .select, .select => true
  | .branch y n, .branch y' n' => sameAll y y' && sameAll n n'
  | .localGet i, .localGet j => i == j
  | .localSet i, .localSet j => i == j
  | .stop, .stop => true
  | .unknown, .unknown => true
  | _, _ => false

def sameAll : List Instr → List Instr → Bool
  | [], [] => true
  | a :: as, b :: bs => same a b && sameAll as bs
  | _, _ => false

end

end Instr

structure Module where
  /-- The name under which the function is exported. -/
  name : Text
  locals : UInt32
  body : List Instr
  deriving Repr

def Module.same (m n : Module) : Bool :=
  m.name == n.name && m.locals == n.locals && Instr.sameAll m.body n.body

/-- The export name of modules that are given none. -/
def Module.defaultName : Text := "main"

end LetIf
