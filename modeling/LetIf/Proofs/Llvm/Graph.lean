/-
The graph of a function: its blocks, and the ways from each to those to which its end may lead, taken or not.
A function is well formed when every block has an end and can be come to, the phis stand where two ways meet
and name just these, the slots are allocated and zeroed before anything else, and no value is used but behind
its one definition: on every way that leads there. For the last it is enough to name, for every block, some
values that are there at its start, as long as every way into it brings them along.
-/
import LetIf.Proofs.Llvm.Building
import Mathlib.Data.List.Nodup
import Mathlib.Data.List.Pairwise

namespace LetIf.Llvm

/-! ## What is used -/

/-- The values in an operand. -/
def Operand.uses : Operand → List Nat
  | .const _ => []
  | .result id => [id]

/-- The values that an operation uses where it stands. A phi uses none there: it takes its operands from
the ends of other blocks. -/
def Op.uses : Op → List Nat
  | .alloca _ | .load .. | .phi .. => []
  | .store v _ => v.uses
  | .isNonzero _ v => v.uses
  | .select _ test yes no => test :: (yes.uses ++ no.uses)

def Terminator.uses : Terminator → List Nat
  | .ret v => v.uses
  | .jump _ => []
  | .branch test _ _ => [test]

/-- The blocks to which an end may lead. -/
def Terminator.goals : Terminator → List Label
  | .ret _ => []
  | .jump goal => [goal]
  | .branch _ yes no => [yes, no]

/-- The slot that an operation works on. -/
def Op.slot? : Op → Option Nat
  | .alloca slot | .store _ slot | .load _ slot => some slot
  | .isNonzero .. | .select .. | .phi .. => none

/-- The slot that an operation allocates. -/
def Op.allocated? : Op → Option Nat
  | .alloca slot => some slot
  | .store .. | .load .. | .isNonzero .. | .select .. | .phi .. => none

/-- The values that operations define, in order. -/
def definedBy (ops : List Op) : List Nat := ops.filterMap Op.result?

theorem definedBy_append (ops ops' : List Op) : definedBy (ops ++ ops') = definedBy ops ++ definedBy ops' :=
  List.filterMap_append

/-! ## Ways through a function -/

/-- The labels of the blocks of a conditional. -/
def Label.parts (n : Nat) : List Label := [.yes n, .no n, .merge n]

theorem Label.number_of_mem_parts {n : Nat} {l : Label} (h : l ∈ parts n) : l.number = n + 1 := by
  simp only [parts, List.mem_cons, List.not_mem_nil, or_false] at h
  obtain rfl | rfl | rfl := h <;> rfl

/-- The labels of a function with so many conditionals. -/
def Label.all (ifs : Nat) : List Label := .entry :: (List.range ifs).flatMap parts

namespace Func

variable (f : Func)

/-- Control may go from the one block to the other. -/
def Edge (source goal : Label) : Prop :=
  ∃ blk ∈ f.blocks, blk.label = source ∧ ∃ t, blk.terminator = some t ∧ goal ∈ t.goals

/-- A way from the entry to the start of a block, with the blocks that it goes through, the last first. -/
inductive Walk : Label → List Label → Prop
  | start : Walk .entry []
  | step {source goal : Label} {path : List Label} (h : Walk source path) (he : f.Edge source goal) :
      Walk goal (source :: path)

/-- Every way to the block `l` goes through the block `d` before. -/
def Dominates (d l : Label) : Prop := ∀ path, f.Walk l path → d ∈ path

/-- The value is defined in the block. -/
def Defines (l : Label) (id : Nat) : Prop := ∃ blk ∈ f.blocks, blk.label = l ∧ id ∈ definedBy blk.ops

/-- The definition of the value dominates the start of the block. -/
def AvailableAt (l : Label) (id : Nat) : Prop := ∃ d, f.Defines d id ∧ f.Dominates d l

/-- The definition of the value dominates the end of the block. -/
def AvailableBehind (l : Label) (id : Nat) : Prop := f.Defines l id ∨ f.AvailableAt l id

/-- A block in which two ways meet starts with a phi of both: its labels are those of the two blocks that
lead there, and each of its operands is there at the end of the block that it comes from. -/
structure Joins (blk : Block) (n : Nat) (id : Nat) (yes : Operand) (yesFrom : Label) (no : Operand)
    (noFrom : Label) : Prop where
  first : blk.ops.head? = some (.phi id yes yesFrom no noFrom)
  ne : yesFrom ≠ noFrom
  edges : ∀ l, f.Edge l (.merge n) ↔ l = yesFrom ∨ l = noFrom
  yes : ∀ id ∈ yes.uses, f.AvailableBehind yesFrom id
  no : ∀ id ∈ no.uses, f.AvailableBehind noFrom id

/-- The function has so many slots and conditionals, and is as the reader of its text wants it. -/
structure WellFormed (slots ifs : Nat) : Prop where
  /-- The blocks are an entry and three for every conditional. -/
  count : f.blocks.length = 3 * ifs + 1
  labels : (f.blocks.map Block.label).Perm (Label.all ifs)
  distinct : (f.blocks.map fun blk => blk.label.text).Nodup
  first : f.blocks.head?.map Block.label = some .entry
  /-- Every block has an end, and just one of them returns. -/
  ends : ∀ blk ∈ f.blocks, blk.terminator ≠ none
  returns : ∃ blk ∈ f.blocks, ∀ blk' ∈ f.blocks, (∃ v, blk'.terminator = some (.ret v)) ↔ blk' = blk
  reached : ∀ blk ∈ f.blocks, ∃ path, f.Walk blk.label path
  entry : ∀ l, ¬ f.Edge l .entry
  /-- Phis stand first in the blocks where two ways meet, and there is one in each of these. -/
  placed : ∀ blk ∈ f.blocks, blk.Placed
  joins : ∀ blk ∈ f.blocks, ∀ n, blk.label = .merge n →
    ∃ id y yesFrom z noFrom, f.Joins blk n id y yesFrom z noFrom
  /-- Slots are allocated on entry, one after the other, and each is zeroed at once. -/
  allocated : ∀ blk ∈ f.blocks,
    blk.ops.filterMap Op.allocated? = if blk.label = .entry then List.range slots else []
  zeroed : ∀ blk ∈ f.blocks, ∀ before slot after, blk.ops = before ++ .alloca slot :: after →
    after.head? = some (.store (.const 0) slot) ∧ ∀ op ∈ before, op.slot? ≠ some slot
  slots : ∀ blk ∈ f.blocks, ∀ op ∈ blk.ops, ∀ slot, op.slot? = some slot → slot < slots
  /-- Every value is defined once, and its definition dominates its uses. -/
  once : f.results.Nodup
  uses : ∀ blk ∈ f.blocks, ∀ before op after, blk.ops = before ++ op :: after →
    ∀ id ∈ op.uses, id ∈ definedBy before ∨ f.AvailableAt blk.label id
  usesAtEnd : ∀ blk ∈ f.blocks, ∀ t, blk.terminator = some t → ∀ id ∈ t.uses, f.AvailableBehind blk.label id

/-! ## Values at the start of a block -/

variable {f : Func}

/-- A value is defined in one block. -/
theorem Defines.unique (honce : f.results.Nodup) {d d' : Label} {id : Nat} (h : f.Defines d id)
    (h' : f.Defines d' id) : d = d' := by
  obtain ⟨blk, hblk, rfl, hid⟩ := h
  obtain ⟨blk', hblk', rfl, hid'⟩ := h'
  by_contra hne
  have : Std.Symm (Function.onFun List.Disjoint fun blk : Block => blk.ops.filterMap Op.result?) :=
    ⟨fun _ _ h => List.disjoint_symm h⟩
  exact (List.nodup_flatMap.1 honce).2.forall hblk hblk' (fun h => hne (by rw [h])) hid hid'

/-- Values `scope l` are there at the start of every block `l`, if none is at the entry and every way into a
block brings them along. -/
theorem availableAt_of_scope (scope : Label → Nat → Prop) (honce : f.results.Nodup)
    (hentry : ∀ id, ¬ scope .entry id)
    (hedge : ∀ l goal, f.Edge l goal → ∀ id, scope goal id → scope l id ∨ f.Defines l id) {l : Label}
    {path : List Label} (hpath : f.Walk l path) {id : Nat} (hid : scope l id) : f.AvailableAt l id := by
  -- every way to a block goes through one that defines the value
  have hwalk : ∀ {l path}, f.Walk l path → scope l id → ∃ d ∈ path, f.Defines d id := by
    intro l path h
    induction h with
    | start => exact fun hid => absurd hid (hentry id)
    | @step source goal path _ he ih =>
      intro hid
      obtain hid | hdef := hedge source goal he id hid
      · obtain ⟨d, hd, hdef⟩ := ih hid
        exact ⟨d, List.mem_cons_of_mem _ hd, hdef⟩
      · exact ⟨source, List.mem_cons_self, hdef⟩
  obtain ⟨d, -, hd⟩ := hwalk hpath hid
  refine ⟨d, hd, fun path hpath => ?_⟩
  obtain ⟨d', hd', hdef⟩ := hwalk hpath hid
  rwa [hd.unique honce hdef]

end Func

end LetIf.Llvm
