/-
The stack machine. A sequence of instructions runs on a stack of words and a fixed number of local
slots. A run that cannot go on stops with the reason and the state it has reached.
-/
import LetIf.Code.Validate
import LetIf.Defect

namespace LetIf

/-- A number of slots and their contents. -/
structure Slots where
  count : Nat
  word : Nat → Int32

namespace Slots

def zeros (count : Nat) : Slots := ⟨count, fun _ => 0⟩

def get? (s : Slots) (i : Nat) : Option Int32 := if i < s.count then some (s.word i) else none

def set? (s : Slots) (i : Nat) (v : Int32) : Option Slots :=
  if i < s.count then some { s with word := fun j => if j = i then v else s.word j } else none

def ofList (l : List Int32) : Slots := ⟨l.length, fun i => l.getD i 0⟩

def toList (s : Slots) : List Int32 := (List.range s.count).map s.word

end Slots

namespace Machine

/-- A stack, its top first. -/
abbrev Stack := List Int32

/-- The top of a stack and what is below it. -/
def Stack.pop? : Stack → Option (Int32 × Stack)
  | [] => none
  | v :: below => some (v, below)

structure State where
  stack : Stack
  slots : Slots

/-- Why a run cannot go on. -/
inductive Trap where
  | selectUnderflow (pc : Nat)
  | branchUnderflow (pc : Nat)
  | setUnderflow (pc : Nat)
  | noSlot (slot : UInt32)
  | unknownInstr
  deriving DecidableEq, Repr

/-- A run that has stopped too early. -/
structure Stuck where
  trap : Trap
  state : State

mutual

/-- Runs one instruction, which is not `stop`. -/
def step (pc : Nat) (s : State) : Instr → Except Stuck State
  | .const n => .ok { s with stack := n :: s.stack }
  | .select =>
    match s.stack with
    | c :: b :: a :: below => .ok { s with stack := (if c ≠ 0 then a else b) :: below }
    | _ => .error ⟨.selectUnderflow pc, s⟩
  | .branch yes no =>
    match s.stack with
    | c :: below =>
      if c ≠ 0 then run 0 { s with stack := below } yes else run 0 { s with stack := below } no
    | [] => .error ⟨.branchUnderflow pc, s⟩
  | .localGet i =>
    match s.slots.get? i.toNat with
    | some v => .ok { s with stack := v :: s.stack }
    | none => .error ⟨.noSlot i, s⟩
  | .localSet i =>
    match s.stack with
    | v :: below =>
      match s.slots.set? i.toNat v with
      | some slots => .ok ⟨below, slots⟩
      | none => .error ⟨.noSlot i, { s with stack := below }⟩
    | [] => .error ⟨.setUnderflow pc, s⟩
  | .stop => .ok s
  | .unknown => .error ⟨.unknownInstr, s⟩

/-- Runs a sequence whose first instruction is at place `pc`. A `stop` ends the sequence it stands
in, which for an arm is the arm. -/
def run (pc : Nat) (s : State) : List Instr → Except Stuck State
  | [] => .ok s
  | .stop :: _ => .ok s
  | i :: rest => do
    let s ← step pc s i
    run (pc + 1) s rest

end

end Machine

/-- Why a module yields no word. -/
inductive ExecutionError where
  | invalid (e : ValidationError)
  | underflow (operation : Text) (pc : Nat)
  | leftover (depth : Nat)
  deriving DecidableEq, Repr

namespace ExecutionError

def message : ExecutionError → Text
  | .invalid _ => "refusing to execute invalid module"
  | .underflow operation pc => "stack underflow in " ++ operation ++ " at " ++ Text.ofNat pc
  | .leftover d => "function returned with " ++ Text.ofNat d ++ " values on the stack"

def report (e : ExecutionError) : Report :=
  .ofProblem .executionError e.message
    (match e with
    | .invalid cause => some cause.report
    | _ => none)

end ExecutionError

namespace Machine

/-- What a run or an execution may end in instead of a result. -/
inductive Failure where
  | error (e : ExecutionError)
  | defect (d : Defect)
  deriving DecidableEq

/-- A lack of operands is an error of the program; the other traps are defects. -/
def Trap.failure : Trap → Failure
  | .selectUnderflow pc => .error (.underflow "select" pc)
  | .branchUnderflow pc => .error (.underflow "if" pc)
  | .setUnderflow pc => .error (.underflow "local.set" pc)
  | .noSlot _ => .defect .absent
  | .unknownInstr => .defect (.internal .runUnknown)

end Machine

/-- Validates a module and runs it on an empty stack and zeroed slots. -/
def Module.execute (m : Module) : Except Machine.Failure Int32 :=
  match m.validate with
  | .error e => .error (.error (.invalid e))
  | .ok () =>
    match Machine.run 0 ⟨[], .zeros m.locals.toNat⟩ m.body with
    | .error stuck => .error stuck.trap.failure
    | .ok s =>
      match s.stack with
      | [v] => .ok v
      | stack => .error (.error (.leftover stack.length))

end LetIf
