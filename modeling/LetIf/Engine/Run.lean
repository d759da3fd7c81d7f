/-
The built-in engine. Data are read and validated, and exported functions that take nothing are run.
-/
import LetIf.Engine.Typing

namespace LetIf.Engine

/-- A value of each type; floating-point ones by their bits. -/
inductive Val where
  | i32 (n : Int32)
  | i64 (n : Int64)
  | f32 (bits : UInt32)
  | f64 (bits : UInt64)
  deriving DecidableEq, Repr

/-- What a local variable holds at first. -/
def Val.zero : ValType → Val
  | .i32 => .i32 0
  | .i64 => .i64 0
  | .f32 => .f32 0
  | .f64 => .f64 0

structure State where
  stack : List Val
  locals : Nat → Option Val

mutual

/-- Runs one instruction; none is a trap. -/
def step (s : State) : Op → Option State
  | .trap => none
  | .const32 n => some { s with stack := .i32 n :: s.stack }
  | .const64 n => some { s with stack := .i64 n :: s.stack }
  | .select =>
    match s.stack with
    | .i32 c :: b :: a :: below => some { s with stack := (if c ≠ 0 then a else b) :: below }
    | _ => none
  | .localGet i =>
    match s.locals i with
    | some v => some { s with stack := v :: s.stack }
    | none => none
  | .localSet i =>
    match s.stack with
    | v :: below =>
      some ⟨below, fun j => if j = i then some v else s.locals j⟩
    | [] => none
  | .branch _ yes no =>
    match s.stack with
    | .i32 c :: below =>
      if c ≠ 0 then run { s with stack := below } yes else run { s with stack := below } no
    | _ => none

/-- Runs a sequence of instructions. -/
def run (s : State) : List Op → Option State
  | [] => some s
  | op :: rest =>
    match step s op with
    | some s => run s rest
    | none => none

end

/-- The signature and body of the function exported under a name. -/
def Program.export? (p : Program) (name : Text) : Option (Signature × Body) := do
  let i ← p.exports.lookup name
  let b ← p.bodies[i]?
  let s ← p.signatures[(← p.functions[i]?)]?
  return (s, b)

/-- The word in which a value is handed over. -/
def Val.word : Val → UInt64
  | .i32 n => n.toUInt32.toUInt64
  | .i64 n => n.toUInt64
  | .f32 bits => bits.toUInt64
  | .f64 bits => bits

/-- Runs a function from zeroed local variables; the words of its results, the first of them deepest on the
stack. -/
def Body.call (s : Signature) (b : Body) : Option { words : List UInt64 // words.length = s.results.length } :=
  match run ⟨[], fun i => (localType b.locals i).map .zero⟩ b.code with
  | none => none
  | some ⟨stack, _⟩ =>
    if h : (stack.reverse.map Val.word).length = s.results.length then some ⟨stack.reverse.map Val.word, h⟩
    else none

/-- An instance of a module. Nothing is passed to its functions, so those with parameters are not run. -/
def Program.instantiated (p : Program) : Instance where
  function? name := (p.export? name).map fun (s, b) =>
    ⟨s.params, s.results, if s.params.isEmpty then b.call s else none⟩

/-- The engine that is built in. -/
instance builtin : Runtime where
  instantiate data := do
    let p ← program data
    if p.isValid then some p.instantiated else none

end LetIf.Engine
