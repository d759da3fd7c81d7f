/-
What building a function does to its blocks. Blocks are looked up by label: an operation or an end
goes to one block and the others stay, and a new block hides no old one. `Sound` is what every
builder keeps: labels are numbered below the next conditional, so those of a new one are fresh; phis
stand only at the head of the blocks in which two arms meet; and the stack holds only values that are
defined. `Extends` says that what was there before is still there: an open block may have grown, a
block with an end is as it was.
-/
import LetIf.Llvm.Builder
import LetIf.Proofs.Except
import LetIf.Proofs.Llvm.Execution

namespace LetIf.Llvm

/-- The number of a label, one more than that of its conditional. -/
def Label.number : Label → Nat
  | .entry => 0
  | .yes n | .no n | .merge n => n + 1

/-- Every value in the operand is numbered below `n`. -/
def Operand.Below (n : Nat) : Operand → Prop
  | .const _ => True
  | .result id => id < n

theorem Operand.Below.mono {n m : Nat} {v : Operand} (h : v.Below n) (hnm : n ≤ m) : v.Below m := by
  cases v with
  | const _ => trivial
  | result id => exact Nat.lt_of_lt_of_le h hnm

/-- A phi stands only first in a block, and only in one where two arms meet. -/
structure Block.Placed (b : Block) : Prop where
  tail : ∀ op ∈ b.ops.tail, op.isPhi = false
  arm : (∀ n, b.label ≠ .merge n) → ∀ op ∈ b.ops, op.isPhi = false

theorem Block.Placed.append {l : Label} {ops new : List Op} {t t' : Option Terminator}
    (h : Block.Placed ⟨l, ops, t⟩) (hnew : ∀ op ∈ new, op.isPhi = false) :
    Block.Placed ⟨l, ops ++ new, t'⟩ where
  tail := by
    intro op hop
    cases ops with
    | nil => exact hnew op (List.mem_of_mem_tail hop)
    | cons o ops => exact (List.mem_append.1 hop).elim (h.tail op) (hnew op)
  arm hl op hop := (List.mem_append.1 hop).elim (h.arm hl op) (hnew op)

/-! ## Blocks by label -/

namespace Builder

variable {b : Builder} {l k : Label} {blk : Block}

def block? (b : Builder) (l : Label) : Option Block := b.blocks.find? fun blk => blk.label = l

theorem label_of_block? (h : b.block? l = some blk) : blk.label = l := by
  have := List.find?_some h
  simpa using this

theorem block?_modify {g : Block → Block} (hg : ∀ blk, (g blk).label = blk.label) :
    (b.modify l g).block? k = if k = l then (b.block? k).map g else b.block? k := by
  unfold block? modify
  induction b.blocks with
  | nil => simp
  | cons a blocks ih =>
    rw [List.map_cons, List.find?_cons, List.find?_cons, ih]
    by_cases ha : a.label = l
    · subst ha
      rw [if_pos rfl, hg]
      by_cases hk : a.label = k
      · subst hk; simp
      · simp [hk]
    · rw [if_neg ha]
      by_cases hk : a.label = k
      · subst hk; simp [ha]
      · simp [hk]

theorem block?_finish (t : Terminator) : (b.finish l t).block? k =
    if k = l then (b.block? k).map fun blk => { blk with terminator := some t } else b.block? k :=
  block?_modify fun _ => rfl

theorem block?_addBlock :
    (b.addBlock l).block? k = (b.block? k).or (if l = k then some ⟨l, [], none⟩ else none) := by
  unfold block? addBlock
  rw [List.find?_append]
  by_cases h : l = k
  · simp [h]
  · simp [h]

/-- The label of the first block. -/
def first? (b : Builder) : Option Label := b.blocks.head?.map Block.label

theorem first?_modify {g : Block → Block} (hg : ∀ blk, (g blk).label = blk.label) :
    (b.modify l g).first? = b.first? := by
  unfold first? modify
  cases b.blocks with
  | nil => rfl
  | cons a blocks =>
    simp only [List.map_cons, List.head?_cons, Option.map_some]
    split
    · rw [hg]
    · rfl

theorem head?_of_first (h : b.first? = some l) : b.blocks.head? = b.block? l := by
  unfold first? at h
  unfold block?
  cases hb : b.blocks with
  | nil => rfl
  | cons a blocks =>
    rw [hb] at h
    have ha : a.label = l := Option.some.inj h
    simp [ha]

theorem first?_finish (t : Terminator) : (b.finish l t).first? = b.first? := first?_modify fun _ => rfl

theorem first?_addBlock (h : b.first? = some k) : (b.addBlock l).first? = some k := by
  unfold first? addBlock at *
  cases hb : b.blocks with
  | nil => rw [hb] at h; cases h
  | cons a blocks => rw [hb] at h; exact h

end Builder

/-! ## Blocks that grow -/

/-- Every block is still there, with its operations and those that came behind them, and exactly as
it was if it had an end. -/
def Extends (g h : Label → Option Block) : Prop :=
  ∀ l ops t, g l = some ⟨l, ops, t⟩ →
    ∃ more t', h l = some ⟨l, ops ++ more, t'⟩ ∧ (t ≠ none → more = [] ∧ t' = t)

namespace Extends

variable {g h i : Label → Option Block} {l : Label} {ops : List Op}

theorem trans (hg : Extends g h) (hh : Extends h i) : Extends g i := by
  intro l ops t hl
  obtain ⟨more, t₁, h₁, hc₁⟩ := hg l ops t hl
  obtain ⟨more', t₂, h₂, hc₂⟩ := hh l (ops ++ more) t₁ h₁
  refine ⟨more ++ more', t₂, by rw [← List.append_assoc]; exact h₂, fun ht => ?_⟩
  obtain ⟨rfl, rfl⟩ := hc₁ ht
  obtain ⟨rfl, rfl⟩ := hc₂ ht
  exact ⟨rfl, rfl⟩

/-- All blocks stay but an open one, which may grow and get its end. -/
theorem of_frame {cur : Label} {more : List Op} {t : Option Terminator}
    (hopen : g cur = some ⟨cur, ops, none⟩) (hcur : h cur = some ⟨cur, ops ++ more, t⟩)
    (hframe : ∀ l blk, l ≠ cur → g l = some blk → h l = some blk) : Extends g h := by
  intro l ops' t' hl
  by_cases hlc : l = cur
  · subst hlc
    rw [hopen] at hl
    cases hl
    exact ⟨more, t, hcur, fun ht => absurd rfl ht⟩
  · exact ⟨[], t', by rw [List.append_nil]; exact hframe l _ hlc hl, fun _ => ⟨rfl, rfl⟩⟩

theorem closed (hg : Extends g h) {t : Terminator} (hl : g l = some ⟨l, ops, some t⟩) :
    h l = some ⟨l, ops, some t⟩ := by
  obtain ⟨more, t', h', hc⟩ := hg l ops (some t) hl
  obtain ⟨rfl, rfl⟩ := hc nofun
  rw [List.append_nil] at h'
  exact h'

/-- What stands behind the operations `ops` of a block begins with what stood there before. -/
theorem rest (hg : Extends g h) {new rest : List Op} {t t' : Option Terminator}
    (hl : g l = some ⟨l, ops ++ new, t⟩) (hh : h l = some ⟨l, ops ++ rest, t'⟩) :
    ∃ more, rest = new ++ more ∧ (t ≠ none → more = [] ∧ t' = t) := by
  obtain ⟨more, t₁, h', hc⟩ := hg l _ t hl
  rw [hh, Option.some.injEq, Block.mk.injEq, List.append_assoc] at h'
  obtain ⟨-, hops, rfl⟩ := h'
  exact ⟨more, List.append_cancel_left hops, hc⟩

end Extends

/-! ## What every builder keeps -/

namespace Builder

variable {b b' : Builder} {l cur : Label} {ops : List Op}

structure Sound (b : Builder) : Prop where
  fresh : ∀ l blk, b.block? l = some blk → l.number ≤ b.nextIf
  placed : ∀ l blk, b.block? l = some blk → blk.Placed
  below : ∀ v ∈ b.stack, v.Below b.nextResult
  first : b.first? = some .entry

theorem Sound.block?_eq_none (hb : b.Sound) (h : b.nextIf < l.number) : b.block? l = none := by
  cases hl : b.block? l with
  | none => rfl
  | some blk => exact absurd (hb.fresh l blk hl) (Nat.not_le_of_gt h)

/-- Only the block `cur` is changed, and only by operations behind its own. -/
theorem Sound.of_emits {new : List Op} {t : Option Terminator} (hb : b.Sound)
    (hopen : b.block? cur = some ⟨cur, ops, none⟩)
    (hcur : b'.block? cur = some ⟨cur, ops ++ new, t⟩)
    (hframe : ∀ l, l ≠ cur → b'.block? l = b.block? l)
    (hnew : (∀ op ∈ new, op.isPhi = false) ∨ ∃ n op, cur = .merge n ∧ ops = [] ∧ new = [op])
    (hif : b'.nextIf = b.nextIf) (hbelow : ∀ v ∈ b'.stack, v.Below b'.nextResult)
    (hfirst : b'.first? = b.first?) : b'.Sound where
  fresh l blk h := by
    rw [hif]
    by_cases hl : l = cur
    · rw [hl]; exact hb.fresh cur _ hopen
    · rw [hframe l hl] at h; exact hb.fresh l blk h
  placed l blk h := by
    by_cases hl : l = cur
    · rw [hl, hcur] at h
      cases h
      obtain hnew | ⟨n, op, rfl, rfl, rfl⟩ := hnew
      · exact (hb.placed cur _ hopen).append hnew
      · exact ⟨fun _ h => (by cases h), fun h => absurd rfl (h n)⟩
    · rw [hframe l hl] at h; exact hb.placed l blk h
  below := hbelow
  first := hfirst.trans hb.first

/-! ## Operations -/

/-- Operations at the end of the block `cur`, with the stack and the next value behind them. -/
def append (b : Builder) (cur : Label) (new : List Op) (stack : List Operand) (nextResult : Nat) : Builder :=
  { b.modify cur fun blk => { blk with ops := blk.ops ++ new } with stack := stack, nextResult := nextResult }

section Append

variable {new : List Op} {stack : List Operand} {k : Nat}

theorem append_nil : b.append cur [] stack k = { b with stack := stack, nextResult := k } := by
  simp [append, modify]

theorem append_append {new' : List Op} {stack' : List Operand} {k' : Nat} :
    (b.append cur new stack k).append cur new' stack' k' = b.append cur (new ++ new') stack' k' := by
  simp only [append, modify, List.map_map, mk.injEq, and_self, and_true]
  refine List.map_congr_left fun blk _ => ?_
  by_cases h : blk.label = cur <;> simp [h]

theorem block?_append : (b.append cur new stack k).block? l =
    if l = cur then (b.block? l).map fun blk => { blk with ops := blk.ops ++ new } else b.block? l :=
  block?_modify (g := fun blk => { blk with ops := blk.ops ++ new }) fun _ => rfl

theorem block?_append_cur (h : b.block? cur = some ⟨cur, ops, none⟩) :
    (b.append cur new stack k).block? cur = some ⟨cur, ops ++ new, none⟩ := by
  rw [block?_append, if_pos rfl, h]
  rfl

theorem block?_append_of_ne (h : l ≠ cur) : (b.append cur new stack k).block? l = b.block? l := by
  rw [block?_append, if_neg h]

theorem first?_append : (b.append cur new stack k).first? = b.first? :=
  first?_modify (g := fun blk => { blk with ops := blk.ops ++ new }) fun _ => rfl

theorem Sound.append (hb : b.Sound) (h : b.block? cur = some ⟨cur, ops, none⟩)
    (hnew : ∀ op ∈ new, op.isPhi = false) (hstack : ∀ v ∈ stack, v.Below k) :
    (b.append cur new stack k).Sound :=
  hb.of_emits h (block?_append_cur h) (fun _ => block?_append_of_ne) (.inl hnew) rfl hstack
    first?_append

end Append

/-! ## Conditionals -/

/-- Leaves the block `cur` for the arms of a new conditional, with `below` on the stack. -/
def fork (b : Builder) (cur : Label) (c : Operand) (below : List Operand) : Builder :=
  let n := b.nextIf
  let test := b.nextResult
  let b := { b with nextIf := n + 1 }.append cur [.isNonzero test c] below (test + 1)
  (((b.addBlock (.yes n)).addBlock (.no n)).addBlock (.merge n)).finish cur (.branch test (.yes n) (.no n))

/-- Ends a block, with `below` on the stack. -/
def close (b : Builder) (l : Label) (t : Terminator) (below : List Operand) : Builder :=
  { b with stack := below }.finish l t

/-- Picks the operand of the arm that was run, in the block where the arms meet. -/
def join (b : Builder) (n : Nat) (y : Operand) (yesEnd : Label) (z : Operand) (noEnd : Label) : Builder :=
  let v := b.nextResult
  b.append (.merge n) [.phi v y yesEnd z noEnd] (.result v :: b.stack) (v + 1)

variable {c : Operand} {below : List Operand}

/-- The new blocks are those with the number of the conditional. -/
theorem block?_fork_of_ne (h : l ≠ cur) : (b.fork cur c below).block? l =
    (b.block? l).or (if l.number = b.nextIf + 1 then some ⟨l, [], none⟩ else none) := by
  unfold fork
  simp only [block?_finish, block?_addBlock, block?_append, if_neg h, Option.or_assoc]
  -- of the three blocks that are added, the label can be that of one at most
  congr 1
  cases l with
  | entry => rfl
  | yes n | no n | merge n =>
    by_cases hn : b.nextIf = n
    · subst hn; simp [Label.number]
    · simp [Label.number, hn, Ne.symm hn]

theorem block?_fork_cur (h : b.block? cur = some ⟨cur, ops, none⟩) :
    (b.fork cur c below).block? cur = some ⟨cur, ops ++ [.isNonzero b.nextResult c],
      some (.branch b.nextResult (.yes b.nextIf) (.no b.nextIf))⟩ := by
  have h' : ({ b with nextIf := b.nextIf + 1 }).block? cur = some ⟨cur, ops, none⟩ := h
  unfold fork
  rw [block?_finish, if_pos rfl, block?_addBlock, block?_addBlock, block?_addBlock, block?_append_cur h']
  rfl

theorem block?_fork_old {blk : Block} (h : l ≠ cur) (hl : b.block? l = some blk) :
    (b.fork cur c below).block? l = some blk := by
  rw [block?_fork_of_ne h, hl]
  rfl

theorem Sound.block?_fork_new (hb : b.Sound) (hopen : b.block? cur = some ⟨cur, ops, none⟩)
    (hl : l.number = b.nextIf + 1) : (b.fork cur c below).block? l = some ⟨l, [], none⟩ := by
  have hnone : b.block? l = none := hb.block?_eq_none (by omega)
  have hne : l ≠ cur := by
    rintro rfl
    rw [hnone] at hopen
    cases hopen
  rw [block?_fork_of_ne hne, hnone, if_pos hl]
  rfl

theorem Sound.fork (hb : b.Sound) (hopen : b.block? cur = some ⟨cur, ops, none⟩)
    (hbelow : ∀ v ∈ below, v.Below b.nextResult) : (b.fork cur c below).Sound := by
  -- a block is the one that was left, an old one, or a new one without operations
  have cases_block : ∀ l blk, (b.fork cur c below).block? l = some blk →
      l.number ≤ b.nextIf + 1 ∧ blk.Placed := by
    intro l blk h
    by_cases hl : l = cur
    · subst hl
      rw [block?_fork_cur hopen] at h
      cases h
      exact ⟨Nat.le_succ_of_le (hb.fresh _ _ hopen), (hb.placed _ _ hopen).append (by simp [Op.isPhi])⟩
    · rw [block?_fork_of_ne hl, Option.or_eq_some_iff] at h
      obtain h | ⟨-, h⟩ := h
      · exact ⟨Nat.le_succ_of_le (hb.fresh l blk h), hb.placed l blk h⟩
      · split at h
        · rename_i hnum
          cases h
          exact ⟨Nat.le_of_eq hnum, by simp, by simp⟩
        · cases h
  refine ⟨fun l blk h => (cases_block l blk h).1, fun l blk h => (cases_block l blk h).2, ?_, ?_⟩
  · intro v hv
    exact (hbelow v hv).mono (Nat.le_succ _)
  · unfold Builder.fork
    rw [first?_finish]
    exact first?_addBlock (first?_addBlock (first?_addBlock (first?_append.trans hb.first)))

section Close

variable {t : Terminator}

theorem block?_close : (b.close cur t below).block? l =
    if l = cur then (b.block? l).map fun blk => { blk with terminator := some t } else b.block? l :=
  block?_finish t

theorem block?_close_cur (h : b.block? cur = some ⟨cur, ops, none⟩) :
    (b.close cur t below).block? cur = some ⟨cur, ops, some t⟩ := by
  rw [block?_close, if_pos rfl, h]
  rfl

theorem block?_close_of_ne (h : l ≠ cur) : (b.close cur t below).block? l = b.block? l := by
  rw [block?_close, if_neg h]

theorem Sound.close (hb : b.Sound) (h : b.block? cur = some ⟨cur, ops, none⟩)
    (hbelow : ∀ v ∈ below, v.Below b.nextResult) : (b.close cur t below).Sound := by
  have hcur : (b.close cur t below).block? cur = some ⟨cur, ops ++ [], some t⟩ := by
    rw [block?_close_cur h, List.append_nil]
  exact hb.of_emits h hcur (fun _ => block?_close_of_ne) (.inl fun _ h => nomatch h) rfl hbelow
    (first?_finish t)

end Close

section Join

variable {n : Nat} {y z : Operand} {yesEnd noEnd : Label}

theorem block?_join_merge (h : b.block? (.merge n) = some ⟨.merge n, [], none⟩) :
    (b.join n y yesEnd z noEnd).block? (.merge n) =
      some ⟨.merge n, [.phi b.nextResult y yesEnd z noEnd], none⟩ :=
  block?_append_cur h

theorem block?_join_of_ne (h : l ≠ .merge n) : (b.join n y yesEnd z noEnd).block? l = b.block? l :=
  block?_append_of_ne h

theorem Sound.join (hb : b.Sound) (h : b.block? (.merge n) = some ⟨.merge n, [], none⟩) :
    (b.join n y yesEnd z noEnd).Sound := by
  refine hb.of_emits h (block?_join_merge h) (fun _ => block?_join_of_ne)
    (.inr ⟨n, _, rfl, rfl, rfl⟩) rfl ?_ first?_append
  intro v hv
  obtain rfl | hv := List.mem_cons.1 hv
  · exact Nat.lt_succ_self _
  · exact (hb.below v hv).mono (Nat.le_succ _)

end Join

end Builder

/-! ## Instructions -/

section Lower

attribute [local simp] lowerInstr lower

variable {b : Builder} {cur : Label} {below : List Operand}

theorem lower_append {js : List Instr} : ∀ {is : List Instr} {cur : Label} {b : Builder},
    lower cur b (is ++ js) = lower cur b is >>= fun p => lower p.1 p.2 js
  | [], cur, b => by simp; rfl
  | i :: is, cur, b => by
    simp only [List.cons_append, lower, bind_assoc, lower_append]

theorem lower_singleton (i : Instr) : lower cur b [i] = lowerInstr cur b i := by
  simp only [lower]
  cases lowerInstr cur b i <;> rfl

theorem Builder.pop_of_stack {v : Operand} (h : b.stack = v :: below) :
    b.pop = .ok (v, { b with stack := below }) := by
  simp only [pop, h]

theorem lowerInstr_const (cur : Label) (b : Builder) (n : Int32) :
    lowerInstr cur b (.const n) = .ok (cur, b.append cur [] (.const n :: b.stack) b.nextResult) := by
  rw [Builder.append_nil]
  simp [Builder.push]

theorem lowerInstr_select {c no yes : Operand} (h : b.stack = c :: no :: yes :: below) :
    lowerInstr cur b .select = .ok (cur, b.append cur
      [.isNonzero b.nextResult c, .select (b.nextResult + 1) b.nextResult yes no]
      (.result (b.nextResult + 1) :: below) (b.nextResult + 2)) := by
  rw [← List.singleton_append, ← Builder.append_append]
  simp only [lowerInstr, Builder.pop, h]
  rfl

theorem lowerInstr_get (cur : Label) {i : UInt32} (h : i.toNat < b.slots) :
    lowerInstr cur b (.localGet i) = .ok (cur, b.append cur [.load b.nextResult i.toNat]
      (.result b.nextResult :: b.stack) (b.nextResult + 1)) := by
  simp only [lowerInstr, if_pos h]
  rfl

theorem lowerInstr_set {i : UInt32} {v : Operand} (hv : b.stack = v :: below) (h : i.toNat < b.slots) :
    lowerInstr cur b (.localSet i) = .ok (cur, b.append cur [.store v i.toNat] below b.nextResult) := by
  simp only [lowerInstr, Builder.pop, hv]
  exact if_pos h

theorem lowerInstr_stop {v : Operand} (h : b.stack = v :: below) :
    lowerInstr cur b .stop = .ok (cur, b.close cur (.ret v) below) := by
  simp only [lowerInstr, Builder.pop, h]
  rfl

theorem lowerInstr_branch {c y z : Operand} {yes no : List Instr} {yesEnd noEnd : Label} {b₁ b₂ : Builder}
    {below₁ below₂ : List Operand} (hc : b.stack = c :: below)
    (hyes : lower (.yes b.nextIf) (b.fork cur c below) yes = .ok (yesEnd, b₁)) (hy : b₁.stack = y :: below₁)
    (hno : lower (.no b.nextIf) (b₁.close yesEnd (.jump (.merge b.nextIf)) below₁) no = .ok (noEnd, b₂))
    (hz : b₂.stack = z :: below₂) :
    lowerInstr cur b (.branch yes no) = .ok (.merge b.nextIf,
      (b₂.close noEnd (.jump (.merge b.nextIf)) below₂).join b.nextIf y yesEnd z noEnd) := by
  simp only [lowerInstr]
  refine bind_eq_ok.2 ⟨(c, _), Builder.pop_of_stack hc, ?_⟩
  refine bind_eq_ok.2 ⟨(yesEnd, b₁), hyes, bind_eq_ok.2 ⟨(y, _), Builder.pop_of_stack hy, ?_⟩⟩
  refine bind_eq_ok.2 ⟨(noEnd, b₂), hno, bind_eq_ok.2 ⟨(z, _), Builder.pop_of_stack hz, rfl⟩⟩

end Lower

end LetIf.Llvm
