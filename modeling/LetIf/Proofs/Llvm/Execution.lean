/-
The meaning of the fragment. Values are assigned as operations run, slots are cells of memory that
are allocated before they are used, and the phis at the head of a block are read all at once on the
way in, each from the block that control comes from. What has no meaning (a value that is not
defined, a cell without a word, a block that is not there or has no end) has no step, so a function
returns a word only on a run that is defined throughout; and no function returns two.
-/
import LetIf.Llvm.Ir

namespace LetIf.Llvm

/-- The result of an operation: a word, or the bit of a comparison. -/
inductive Datum where
  | word (n : Int32)
  | bit (b : Bool)
  deriving DecidableEq, Repr

structure State where
  values : Nat → Option Datum
  /-- The cells of the slots that are allocated, without a word until the first store. -/
  cells : Nat → Option (Option Int32)

namespace State

def empty : State := ⟨fun _ => none, fun _ => none⟩

def define (s : State) (id : Nat) (d : Datum) : State :=
  { s with values := fun j => if j = id then some d else s.values j }

def write (s : State) (slot : Nat) (content : Option Int32) : State :=
  { s with cells := fun j => if j = slot then some content else s.cells j }

def word? (s : State) : Operand → Option Int32
  | .const n => some n
  | .result id =>
    match s.values id with
    | some (.word n) => some n
    | _ => none

def bit? (s : State) (id : Nat) : Option Bool :=
  match s.values id with
  | some (.bit b) => some b
  | _ => none

end State

def Op.isPhi : Op → Bool
  | .phi .. => true
  | _ => false

/-- Runs an operation that is no phi. -/
def Op.exec (s : State) : Op → Option State
  | .alloca slot => some (s.write slot none)
  | .store v slot => do
    let w ← s.word? v
    let _ ← s.cells slot
    return s.write slot (some w)
  | .load id slot => do
    let w ← ← s.cells slot
    return s.define id (.word w)
  | .isNonzero id v => do
    let w ← s.word? v
    return s.define id (.bit (w != 0))
  | .select id test yes no => do
    let b ← s.bit? test
    let y ← s.word? yes
    let n ← s.word? no
    return s.define id (.word (if b then y else n))
  | .phi .. => none

/-- A place in a function: the operations of the block that are still to be run. -/
structure Config where
  block : Label
  rest : List Op
  state : State

/-- The operand that a phi takes when control comes from the block `source`. -/
def pick (source : Label) (yes : Operand) (yesFrom : Label) (no : Operand) (noFrom : Label) : Option Operand :=
  if source = yesFrom then some yes else if source = noFrom then some no else none

/-- Enters a list of operations from the block `source`. The phis at its head read the state `s` as
it was before, whatever `now` has been assigned already. -/
def enter (source : Label) (s : State) (now : State) : List Op → Option (List Op × State)
  | .phi id yes yesFrom no noFrom :: rest => do
    let v ← pick source yes yesFrom no noFrom
    let w ← s.word? v
    enter source s (now.define id (.word w)) rest
  | rest => some (rest, now)

namespace Func

def block? (f : Func) (l : Label) : Option Block := f.blocks.find? fun b => b.label = l

/-- Control goes from the block `source` to the block `goal`. -/
def goto (f : Func) (s : State) (source goal : Label) : Option Config := do
  let b ← f.block? goal
  let (rest, s) ← enter source s s b.ops
  return ⟨goal, rest, s⟩

/-- One step: to another place, or out of the function with a word. -/
def step (f : Func) (c : Config) : Option (Config ⊕ Int32) :=
  match c.rest with
  | op :: rest => do
    let s ← op.exec c.state
    return .inl ⟨c.block, rest, s⟩
  | [] => do
    let b ← f.block? c.block
    match ← b.terminator with
    | .ret v => return .inr (← c.state.word? v)
    | .jump goal => return .inl (← f.goto c.state c.block goal)
    | .branch test yes no =>
      let bit ← c.state.bit? test
      return .inl (← f.goto c.state c.block (if bit then yes else no))

/-- A function starts with its first block. -/
def start? (f : Func) : Option Config := f.blocks.head?.map fun b => ⟨b.label, b.ops, .empty⟩

/-- Any number of steps within the function. -/
inductive Reaches (f : Func) : Config → Config → Prop
  | refl (c : Config) : Reaches f c c
  | head {c c' c'' : Config} (h : f.step c = some (.inl c')) (h' : Reaches f c' c'') : Reaches f c c''

/-- A run from the start ends in a return of `w`. -/
def Returns (f : Func) (w : Int32) : Prop :=
  ∃ c c', f.start? = some c ∧ f.Reaches c c' ∧ f.step c' = some (.inr w)

end Func

/-! ## Values and cells -/

namespace State

variable (s : State)

@[simp] theorem values_define (id j : Nat) (d : Datum) :
    (s.define id d).values j = if j = id then some d else s.values j := rfl

@[simp] theorem cells_write (slot j : Nat) (w : Option Int32) :
    (s.write slot w).cells j = if j = slot then some w else s.cells j := rfl

@[simp] theorem word?_const (n : Int32) : s.word? (.const n) = some n := rfl

@[simp] theorem word?_define_self (id : Nat) (n : Int32) :
    (s.define id (.word n)).word? (.result id) = some n := by
  simp [word?]

@[simp] theorem bit?_define_self (id : Nat) (b : Bool) : (s.define id (.bit b)).bit? id = some b := by
  simp [bit?]

theorem word?_congr {s s' : State} (h : s'.values = s.values) (v : Operand) : s'.word? v = s.word? v := by
  cases v with
  | const n => rfl
  | result id => simp only [word?, h]

@[simp] theorem word?_write (slot : Nat) (w : Option Int32) (v : Operand) :
    (s.write slot w).word? v = s.word? v :=
  word?_congr rfl v

end State

/-! ## Entering a block -/

theorem enter_of_noPhi {ops : List Op} (h : ∀ op ∈ ops, op.isPhi = false) (source : Label) (s now : State) :
    enter source s now ops = some (ops, now) := by
  unfold enter
  split
  · simp [Op.isPhi] at h
  · rfl

/-! ## Runs -/

/-- Runs operations one after the other. -/
def execAll (s : State) : List Op → Option State
  | [] => some s
  | op :: ops => do execAll (← op.exec s) ops

theorem execAll_append {ops' : List Op} : ∀ (ops : List Op) (s : State),
    execAll s (ops ++ ops') = (execAll s ops).bind fun s' => execAll s' ops'
  | [], s => rfl
  | op :: ops, s => by
    simp only [List.cons_append, execAll]
    cases op.exec s with
    | none => rfl
    | some s' => exact execAll_append ops s'

namespace Func

variable {f : Func} {c c' c'' : Config} {l : Label} {ops : List Op} {s : State}

theorem Reaches.trans (h : f.Reaches c c') (h' : f.Reaches c' c'') : f.Reaches c c'' := by
  induction h with
  | refl => exact h'
  | head hs _ ih => exact .head hs (ih h')

theorem Reaches.exec {rest : List Op} : ∀ {ops : List Op} {s s' : State}, execAll s ops = some s' →
    f.Reaches ⟨l, ops ++ rest, s⟩ ⟨l, rest, s'⟩
  | [], s, s', h => by
    cases h
    exact .refl _
  | op :: ops, s, s', h => by
    obtain ⟨s₁, hs₁, h⟩ := Option.bind_eq_some_iff.1 h
    exact .head (by simp [step, hs₁]) (exec h)

theorem goto_of_noPhi {goal : Label} {t : Option Terminator} (hb : f.block? goal = some ⟨goal, ops, t⟩)
    (h : ∀ op ∈ ops, op.isPhi = false) (s : State) (source : Label) :
    f.goto s source goal = some ⟨goal, ops, s⟩ := by
  simp [goto, hb, enter_of_noPhi h]

theorem goto_of_phi {goal source yesFrom noFrom : Label} {id : Nat} {yes no v : Operand} {w : Int32}
    {t : Option Terminator} (hb : f.block? goal = some ⟨goal, .phi id yes yesFrom no noFrom :: ops, t⟩)
    (h : ∀ op ∈ ops, op.isPhi = false) (hv : pick source yes yesFrom no noFrom = some v)
    (hw : s.word? v = some w) :
    f.goto s source goal = some ⟨goal, ops, s.define id (.word w)⟩ := by
  have henter : enter source s s (.phi id yes yesFrom no noFrom :: ops) =
      some (ops, s.define id (.word w)) := by
    simp [enter, hv, hw, enter_of_noPhi h]
  simp [goto, hb, henter]

theorem step_ret {v : Operand} {w : Int32} (hb : f.block? l = some ⟨l, ops, some (.ret v)⟩)
    (hw : s.word? v = some w) : f.step ⟨l, [], s⟩ = some (.inr w) := by
  simp [step, hb, hw]

theorem reaches_jump {goal : Label} (hb : f.block? l = some ⟨l, ops, some (.jump goal)⟩)
    (hc : f.goto s l goal = some c) : f.Reaches ⟨l, [], s⟩ c :=
  .head (by simp [step, hb, hc]) (.refl c)

theorem reaches_branch {test : Nat} {yes no : Label} {bit : Bool}
    (hb : f.block? l = some ⟨l, ops, some (.branch test yes no)⟩) (ht : s.bit? test = some bit)
    (hc : f.goto s l (if bit then yes else no) = some c) : f.Reaches ⟨l, [], s⟩ c :=
  .head (by simp [step, hb, ht, hc]) (.refl c)

/-- A run goes on in one way only, so two that return, return the same word. -/
theorem Reaches.return_unique {v w : Int32} (h : f.Reaches c c') (hv : f.step c' = some (.inr v))
    (h' : f.Reaches c c'') (hw : f.step c'' = some (.inr w)) : v = w := by
  -- a step that returns is no step within the function, so both runs have the same length
  induction h with
  | refl =>
    cases h' with
    | refl => rw [hv] at hw; cases hw; rfl
    | head hs _ => rw [hv] at hs; cases hs
  | head hs _ ih =>
    cases h' with
    | refl => rw [hs] at hw; cases hw
    | head hs' h' => rw [hs] at hs'; cases hs'; exact ih hv h'

theorem Returns.unique {v w : Int32} (hv : f.Returns v) (hw : f.Returns w) : v = w := by
  obtain ⟨c, c₁, hc, h₁, hv⟩ := hv
  obtain ⟨c', c₂, hc', h₂, hw⟩ := hw
  rw [hc] at hc'
  cases hc'
  exact h₁.return_unique hv h₂ hw

end Func

end LetIf.Llvm
