/-
From modules to LLVM's intermediate representation. The stack is run on operands instead of words:
a conditional becomes two blocks that meet in a third, where a phi picks what the arm that was run
has left on the stack. Slots are allocated and zeroed on entry.
-/
import LetIf.Code.Instr
import LetIf.Llvm.Ir

namespace LetIf.Llvm

/-- A function under construction. -/
structure Builder where
  blocks : List Block
  /-- The number of slots. -/
  slots : Nat
  /-- The operands on the stack, the top first. -/
  stack : List Operand
  /-- The next value. -/
  nextResult : Nat
  /-- The next conditional. -/
  nextIf : Nat

namespace Builder

/-- Changes the block with a label. -/
def modify (b : Builder) (label : Label) (f : Block → Block) : Builder :=
  { b with blocks := b.blocks.map fun block => if block.label = label then f block else block }

/-- Appends an operation to a block. -/
def emit (b : Builder) (label : Label) (op : Op) : Builder :=
  b.modify label fun block => { block with ops := block.ops ++ [op] }

/-- Ends a block; a second end replaces the first. -/
def finish (b : Builder) (label : Label) (t : Terminator) : Builder :=
  b.modify label fun block => { block with terminator := some t }

def addBlock (b : Builder) (label : Label) : Builder :=
  { b with blocks := b.blocks ++ [⟨label, [], none⟩] }

def push (b : Builder) (v : Operand) : Builder := { b with stack := v :: b.stack }

def pop (b : Builder) : Except Defect (Operand × Builder) :=
  match b.stack with
  | v :: below => .ok (v, { b with stack := below })
  | [] => .error (.internal .llvmUnderflow)

/-- Appends an operation that defines a new value. -/
def define (b : Builder) (label : Label) (op : Nat → Op) : Nat × Builder :=
  let id := b.nextResult
  (id, { b with nextResult := id + 1 }.emit label (op id))

end Builder

mutual

/-- Lowers one instruction into the block `cur`, and gives the block in which to go on. -/
def lowerInstr (cur : Label) (b : Builder) : Instr → Except Defect (Label × Builder)
  | .const n => .ok (cur, b.push (.const n))
  | .select => do
    let (c, b) ← b.pop
    let (no, b) ← b.pop
    let (yes, b) ← b.pop
    let (test, b) := b.define cur fun id => .isNonzero id c
    let (v, b) := b.define cur fun id => .select id test yes no
    return (cur, b.push (.result v))
  | .localGet i =>
    if i.toNat < b.slots then
      let (v, b) := b.define cur fun id => .load id i.toNat
      .ok (cur, b.push (.result v))
    else .error .absent
  | .localSet i => do
    let (v, b) ← b.pop
    if i.toNat < b.slots then return (cur, b.emit cur (.store v i.toNat)) else throw .absent
  | .branch yes no => do
    let n := b.nextIf
    let (c, b) ← { b with nextIf := n + 1 }.pop
    let (test, b) := b.define cur fun id => .isNonzero id c
    let b := ((b.addBlock (.yes n)).addBlock (.no n)).addBlock (.merge n)
    let b := b.finish cur (.branch test (.yes n) (.no n))
    let (yesEnd, b) ← lower (.yes n) b yes
    let (y, b) ← b.pop
    let b := b.finish yesEnd (.jump (.merge n))
    let (noEnd, b) ← lower (.no n) b no
    let (z, b) ← b.pop
    let b := b.finish noEnd (.jump (.merge n))
    let (v, b) := b.define (.merge n) fun id => .phi id y yesEnd z noEnd
    return (.merge n, b.push (.result v))
  | .stop => do
    let (v, b) ← b.pop
    return (cur, b.finish cur (.ret v))
  | .unknown => .error (.internal .llvmUnknown)

/-- Lowers a sequence of instructions. -/
def lower (cur : Label) (b : Builder) : List Instr → Except Defect (Label × Builder)
  | [] => .ok (cur, b)
  | i :: rest => do
    let (cur, b) ← lowerInstr cur b i
    lower cur b rest

end

/-- The allocation of slots on entry, each followed by its first store. -/
def allocations (slots : Nat) : List Op :=
  (List.range slots).flatMap fun i => [.alloca i, .store (.const 0) i]

/-- The function of a module. -/
def ofModule (m : Module) : Except Defect Func := do
  let slots := m.locals.toNat
  let b : Builder := ⟨[⟨.entry, allocations slots, none⟩], slots, [], 0, 0⟩
  let (_, b) ← lower .entry b m.body
  return ⟨m.name, b.blocks⟩

/-- A module as LLVM text. -/
def encode (m : Module) : Except Defect Text := do
  (← ofModule m).text

end LetIf.Llvm
