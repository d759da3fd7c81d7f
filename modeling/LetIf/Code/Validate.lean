/-
Validation of modules. The depth of the stack is followed through the body: no instruction takes
what is not there, slots are in range, every arm leaves one word, and so does the function, whose
body ends in its only `stop`.
-/
import LetIf.Code.Instr
import LetIf.Report

namespace LetIf

inductive ValidationError where
  | noName
  | emptyBody
  | unterminated
  | selectOperands (pc depth : Nat)
  | noCondition (pc : Nat)
  | armDepth (pc depth : Nat)
  | getRange (slot locals : UInt32)
  | setRange (slot locals : UInt32)
  | setOperand (pc : Nat)
  | unexpectedStop (pc : Nat)
  | unknownInstr (pc : Nat)
  | finalDepth (depth : Nat)
  deriving DecidableEq, Repr

namespace ValidationError

def message : ValidationError → Text
  | .noName => "module has no export name"
  | .emptyBody => "empty function body"
  | .unterminated => "function body is not terminated by end"
  | .selectOperands pc d =>
    "select at " ++ Text.ofNat pc ++ " needs 3 operands, have " ++ Text.ofNat d
  | .noCondition pc => "if at " ++ Text.ofNat pc ++ " has no condition"
  | .armDepth pc d =>
    "arm of if at " ++ Text.ofNat pc ++ " leaves " ++ Text.ofNat d ++ " values, want 1"
  | .getRange i n =>
    "local.get " ++ Text.ofNat i.toNat ++ " out of range (" ++ Text.ofNat n.toNat ++ " locals)"
  | .setRange i n =>
    "local.set " ++ Text.ofNat i.toNat ++ " out of range (" ++ Text.ofNat n.toNat ++ " locals)"
  | .setOperand pc => "local.set at " ++ Text.ofNat pc ++ " has no operand"
  | .unexpectedStop pc => "unexpected end at " ++ Text.ofNat pc
  | .unknownInstr pc => "unknown instruction <nil> at " ++ Text.ofNat pc
  | .finalDepth d => "function leaves " ++ Text.ofNat d ++ " values on the stack, want 1"

def report (e : ValidationError) : Report := .ofProblem .validationError e.message none

end ValidationError

namespace Code

mutual

/-- The stack depth after one instruction at place `pc`. -/
def depthAfter (locals : UInt32) (pc depth : Nat) : Instr → Except ValidationError Nat
  | .const _ => .ok (depth + 1)
  | .select => if depth < 3 then .error (.selectOperands pc depth) else .ok (depth - 2)
  | .branch yes no =>
    if depth < 1 then .error (.noCondition pc)
    else do
      let y ← depthFrom locals 0 0 yes
      if y ≠ 1 then throw (.armDepth pc y)
      let n ← depthFrom locals 0 0 no
      if n ≠ 1 then throw (.armDepth pc n)
      return depth
  | .localGet i => if locals ≤ i then .error (.getRange i locals) else .ok (depth + 1)
  | .localSet i =>
    if locals ≤ i then .error (.setRange i locals)
    else if depth < 1 then .error (.setOperand pc)
    else .ok (depth - 1)
  | .stop => .error (.unexpectedStop pc)
  | .unknown => .error (.unknownInstr pc)

/-- The stack depth after a sequence that starts at place `pc` and depth `depth`. -/
def depthFrom (locals : UInt32) (pc depth : Nat) : List Instr → Except ValidationError Nat
  | [] => .ok depth
  | i :: rest => do
    let depth ← depthAfter locals pc depth i
    depthFrom locals (pc + 1) depth rest

end

/-- The number of words that a sequence leaves on an empty stack. -/
def depth (locals : UInt32) (s : List Instr) : Except ValidationError Nat := depthFrom locals 0 0 s

end Code

/-- Checks a module; the first violation is reported. -/
def Module.validate (m : Module) : Except ValidationError Unit :=
  if m.name.isEmpty then .error .noName
  else match m.body.getLast? with
    | none => .error .emptyBody
    | some .stop => do
      let d ← Code.depth m.locals m.body.dropLast
      if d ≠ 1 then throw (.finalDepth d)
    | some _ => .error .unterminated

end LetIf
