/-
What building a function makes, by the structure of its code. A front is the block in which building is at
work, and a draft says which blocks are closed on the way from one front to the next and how: an instruction
that is no conditional adds operations to the block, and a conditional closes the block, the ends of its arms
and whatever the arms close, and goes on where they meet. A valid sequence has a draft, and the builder makes
the blocks of the draft, if in another order.
-/
import LetIf.Proofs.Code.Validation
import LetIf.Proofs.Llvm.Graph
import Mathlib.Data.List.Perm.Basic

namespace LetIf

namespace Instr

mutual

/-- The number of conditionals in an instruction, those in its arms included. -/
def conditionals : Instr → Nat
  | .branch yes no => 1 + conditionalsAll yes + conditionalsAll no
  | .const _ | .select | .localGet _ | .localSet _ | .stop | .unknown => 0

def conditionalsAll : List Instr → Nat
  | [] => 0
  | i :: is => conditionals i + conditionalsAll is

end

theorem conditionalsAll_append (is js : List Instr) :
    conditionalsAll (is ++ js) = conditionalsAll is + conditionalsAll js := by
  induction is with
  | nil => simp [conditionalsAll]
  | cons i is ih => rw [List.cons_append, conditionalsAll, conditionalsAll, ih, Nat.add_assoc]

theorem conditionalsAll_singleton (i : Instr) : conditionalsAll [i] = conditionals i := by
  simp [conditionalsAll]

end Instr

namespace Llvm

open Code

/-! ## Drafts -/

/-- A block in the making. It begins with operations that no instruction stands for, and carries the values
that are there on every way to it. -/
structure Part where
  label : Label
  head : List Op
  body : List Op
  scope : List Nat
  terminator : Option Terminator

namespace Part

def block (c : Part) : Block := ⟨c.label, c.head ++ c.body, c.terminator⟩

/-- The values that are there at the end of the block. -/
def values (c : Part) : List Nat := c.scope ++ (c.head ++ c.body).filterMap Op.result?

def close (c : Part) (t : Terminator) : Part := { c with terminator := some t }

end Part

/-- The block in which building is at work, and what it goes on with. -/
structure Front where
  part : Part
  stack : List Operand
  nextResult : Nat
  nextIf : Nat

/-- The operations `new` for an instruction that is no conditional, with the stack behind them and the number
of values that they define. -/
inductive Emits (slots k : Nat) : List Operand → Instr → List Op → List Operand → Nat → Prop
  | const (st : List Operand) (n : Int32) : Emits slots k st (.const n) [] (.const n :: st) 0
  | select (c no yes : Operand) (st : List Operand) : Emits slots k (c :: no :: yes :: st) .select
      [.isNonzero k c, .select (k + 1) k yes no] (.result (k + 1) :: st) 2
  | get (st : List Operand) {i : UInt32} (hi : i.toNat < slots) :
      Emits slots k st (.localGet i) [.load k i.toNat] (.result k :: st) 1
  | set (v : Operand) (st : List Operand) {i : UInt32} (hi : i.toNat < slots) :
      Emits slots k (v :: st) (.localSet i) [.store v i.toNat] st 0

namespace Front

def emit (p : Front) (new : List Op) (stack : List Operand) (n : Nat) : Front :=
  ⟨{ p.part with body := p.part.body ++ new }, stack, p.nextResult + n, p.nextIf⟩

/-- The block left for the arms of a conditional on `c`. -/
def forked (p : Front) (c : Operand) : Part :=
  { p.part with
    body := p.part.body ++ [.isNonzero p.nextResult c]
    terminator := some (.branch p.nextResult (.yes p.nextIf) (.no p.nextIf)) }

/-- The block at the end of an arm of conditional `n`. -/
def ended (q : Front) (n : Nat) : Part := q.part.close (.jump (.merge n))

/-- The start of the first arm. -/
def yesArm (p : Front) (c : Operand) (below : List Operand) : Front :=
  ⟨⟨.yes p.nextIf, [], [], (p.forked c).values, none⟩, below, p.nextResult + 1, p.nextIf + 1⟩

/-- The start of the second arm, when the first has come to `q`. -/
def noArm (p : Front) (c : Operand) (below : List Operand) (q : Front) : Front :=
  ⟨⟨.no p.nextIf, [], [], (p.forked c).values, none⟩, below, q.nextResult, q.nextIf⟩

/-- Where the arms meet, of which the second has come to `q`, before their values are brought together. -/
def meet (p : Front) (c : Operand) (below : List Operand) (q : Front) : Front :=
  ⟨⟨.merge p.nextIf, [], [], (p.forked c).values, none⟩, below, q.nextResult, q.nextIf⟩

/-- Where the arms meet, which have come to `q₁` and `q₂` and left `y` and `z`. -/
def joined (p : Front) (c : Operand) (below : List Operand) (q₁ q₂ : Front) (y z : Operand) : Front :=
  ⟨⟨.merge p.nextIf, [.phi q₂.nextResult y q₁.part.label z q₂.part.label], [], (p.forked c).values, none⟩,
    .result q₂.nextResult :: below, q₂.nextResult + 1, q₂.nextIf⟩

end Front

/-- Over the instructions, building goes from the one front to the other and closes the parts. -/
inductive Drafts (slots : Nat) : Front → List Instr → List Part → Front → Prop
  | nil (p : Front) : Drafts slots p [] [] p
  | emit {p : Front} {i : Instr} {new : List Op} {st : List Operand} {n : Nat}
      (h : Emits slots p.nextResult p.stack i new st n) : Drafts slots p [i] [] (p.emit new st n)
  | append {p q r : Front} {is js : List Instr} {closed closed' : List Part} (h : Drafts slots p is closed q)
      (h' : Drafts slots q js closed' r) : Drafts slots p (is ++ js) (closed ++ closed') r
  | branch {p q₁ q₂ : Front} {yes no : List Instr} {closed₁ closed₂ : List Part} {c y z : Operand}
      {below : List Operand} (hc : p.stack = c :: below)
      (hyes : Drafts slots (p.yesArm c below) yes closed₁ q₁) (hy : q₁.stack = y :: below)
      (hno : Drafts slots (p.noArm c below q₁) no closed₂ q₂) (hz : q₂.stack = z :: below) :
      Drafts slots p [.branch yes no]
        (p.forked c :: (closed₁ ++ q₁.ended p.nextIf :: (closed₂ ++ [q₂.ended p.nextIf])))
        (p.joined c below q₁ q₂ y z)

/-! ## Valid code -/

theorem exists_emits_select (slots k : Nat) (base : List Operand) {top : List Operand} (h : 3 ≤ top.length) :
    ∃ new top', Emits slots k (top ++ base) .select new (top' ++ base) 2 ∧ top'.length = top.length - 2 := by
  match top, h with
  | c :: no :: yes :: top, _ => exact ⟨_, _ :: top, .select c no yes (top ++ base), by simp⟩

theorem exists_emits_set {slots : Nat} (k : Nat) (base : List Operand) {i : UInt32} (hi : i.toNat < slots)
    {top : List Operand} (h : 1 ≤ top.length) :
    ∃ new top', Emits slots k (top ++ base) (.localSet i) new (top' ++ base) 0 ∧ top'.length = top.length - 1 := by
  match top, h with
  | v :: top, _ => exact ⟨_, top, .set v (top ++ base) hi, rfl⟩

mutual

/-- What stands below the operands that validation counts is left alone. -/
theorem exists_drafts_of_depthAfter {locals : UInt32} : ∀ {i : Instr} {pc d : Nat} (p : Front)
    (top base : List Operand), p.stack = top ++ base → depthAfter locals pc top.length i = .ok d →
      ∃ closed q top', Drafts locals.toNat p [i] closed q ∧ q.stack = top' ++ base ∧ top'.length = d
  | .const n, pc, d, p, top, base, hp, h => by
    simp only [depthAfter] at h
    cases h
    exact ⟨[], _, .const n :: top, .emit (by rw [hp]; exact .const (top ++ base) n), rfl, rfl⟩
  | .select, pc, d, p, top, base, hp, h => by
    obtain ⟨hd, rfl⟩ := depthAfter_select_eq_ok.1 h
    obtain ⟨new, top', hemits, htop'⟩ := exists_emits_select locals.toNat p.nextResult base hd
    exact ⟨[], _, top', .emit (by rw [hp]; exact hemits), rfl, htop'⟩
  | .localGet i, pc, d, p, top, base, hp, h => by
    obtain ⟨hi, rfl⟩ := depthAfter_get_eq_ok.1 h
    exact ⟨[], _, .result p.nextResult :: top,
      .emit (by rw [hp]; exact .get (top ++ base) (UInt32.lt_iff_toNat_lt.1 hi)), rfl, rfl⟩
  | .localSet i, pc, d, p, top, base, hp, h => by
    obtain ⟨hi, hd, rfl⟩ := depthAfter_set_eq_ok.1 h
    obtain ⟨new, top', hemits, htop'⟩ :=
      exists_emits_set p.nextResult base (UInt32.lt_iff_toNat_lt.1 hi) hd
    exact ⟨[], _, top', .emit (by rw [hp]; exact hemits), rfl, htop'⟩
  | .branch yes no, pc, d, p, top, base, hp, h => by
    obtain ⟨hd, hy, hn, rfl⟩ := depthAfter_branch_eq_ok.1 h
    match top, hd with
    | c :: top, _ =>
      -- each arm starts with nothing of its own on the stack, and leaves one operand
      obtain ⟨closed₁, q₁, top₁, hyes, hq₁, htop₁⟩ :=
        exists_drafts_of_depthFrom (p.yesArm c (top ++ base)) [] (top ++ base) rfl hy
      obtain ⟨y, rfl⟩ := List.length_eq_one_iff.1 htop₁
      obtain ⟨closed₂, q₂, top₂, hno, hq₂, htop₂⟩ :=
        exists_drafts_of_depthFrom (p.noArm c (top ++ base) q₁) [] (top ++ base) rfl hn
      obtain ⟨z, rfl⟩ := List.length_eq_one_iff.1 htop₂
      exact ⟨_, _, .result q₂.nextResult :: top, .branch hp hyes hq₁ hno hq₂, rfl, rfl⟩
  | .stop, _, _, _, _, _, _, h => by simp only [depthAfter] at h; cases h
  | .unknown, _, _, _, _, _, _, h => by simp only [depthAfter] at h; cases h

theorem exists_drafts_of_depthFrom {locals : UInt32} : ∀ {is : List Instr} {pc d : Nat} (p : Front)
    (top base : List Operand), p.stack = top ++ base → depthFrom locals pc top.length is = .ok d →
      ∃ closed q top', Drafts locals.toNat p is closed q ∧ q.stack = top' ++ base ∧ top'.length = d
  | [], pc, d, p, top, base, hp, h => by
    simp only [depthFrom] at h
    cases h
    exact ⟨[], p, top, .nil p, hp, rfl⟩
  | i :: is, pc, d, p, top, base, hp, h => by
    obtain ⟨d₁, hi, his⟩ := depthFrom_cons_eq_ok.1 h
    obtain ⟨closed, q, top₁, hq, hstack, rfl⟩ := exists_drafts_of_depthAfter p top base hp hi
    obtain ⟨closed', r, top₂, hr, hstack', hlen⟩ := exists_drafts_of_depthFrom q top₁ base hstack his
    exact ⟨closed ++ closed', r, top₂, hq.append hr, hstack', hlen⟩

end

/-! ## What the builder makes -/

/-- The builder is at the front, and has the blocks `others` beside the one in which it is at work. -/
structure Holds (slots : Nat) (b : Builder) (p : Front) (others : List Block) : Prop where
  blocks : b.blocks.Perm (p.part.block :: others)
  nodup : (b.blocks.map Block.label).Nodup
  fresh : ∀ l ∈ b.blocks.map Block.label, l.number ≤ b.nextIf
  slots : b.slots = slots
  stack : b.stack = p.stack
  nextResult : b.nextResult = p.nextResult
  nextIf : b.nextIf = p.nextIf

namespace Builder

variable {b : Builder} {l : Label} {g : Block → Block}

theorem labels_modify (hg : ∀ blk, (g blk).label = blk.label) :
    (b.modify l g).blocks.map Block.label = b.blocks.map Block.label := by
  rw [modify, List.map_map]
  refine List.map_congr_left fun blk _ => ?_
  by_cases h : blk.label = l <;> simp [h, hg]

/-- Of blocks with different labels, one is changed. -/
theorem perm_modify {blk : Block} {others : List Block} (hb : b.blocks.Perm (blk :: others))
    (hn : (b.blocks.map Block.label).Nodup) (hl : blk.label = l) :
    (b.modify l g).blocks.Perm (g blk :: others) := by
  have hnodup : ((blk :: others).map Block.label).Nodup := (hb.map _).nodup_iff.1 hn
  rw [List.map_cons, List.nodup_cons] at hnodup
  have hothers : others.map (fun blk => if blk.label = l then g blk else blk) = others.map id := by
    refine List.map_congr_left fun blk' hblk' => if_neg fun h => hnodup.1 ?_
    rw [hl, ← h]
    exact List.mem_map_of_mem hblk'
  have hmap := hb.map fun blk => if blk.label = l then g blk else blk
  rwa [List.map_cons, if_pos hl, hothers, List.map_id] at hmap

theorem labels_append (new : List Op) (st : List Operand) (k : Nat) :
    (b.append l new st k).blocks.map Block.label = b.blocks.map Block.label :=
  labels_modify (g := fun blk => { blk with ops := blk.ops ++ new }) fun _ => rfl

theorem labels_finish (t : Terminator) : (b.finish l t).blocks.map Block.label = b.blocks.map Block.label :=
  labels_modify (g := fun blk => { blk with terminator := some t }) fun _ => rfl

theorem labels_fork (c : Operand) (below : List Operand) :
    (b.fork l c below).blocks.map Block.label = b.blocks.map Block.label ++ Label.parts b.nextIf := by
  have hold : (({ b with nextIf := b.nextIf + 1 } : Builder).append l [.isNonzero b.nextResult c] below
      (b.nextResult + 1)).blocks.map Block.label = b.blocks.map Block.label := labels_append _ _ _
  rw [fork, labels_finish]
  simp [addBlock, hold, Label.parts]

/-- The blocks of a new conditional have new labels, if labels are numbered by conditionals. -/
theorem nodup_fork (hn : (b.blocks.map Block.label).Nodup)
    (hfresh : ∀ k ∈ b.blocks.map Block.label, k.number ≤ b.nextIf) (c : Operand) (below : List Operand) :
    ((b.fork l c below).blocks.map Block.label).Nodup := by
  rw [labels_fork]
  refine List.nodup_append.2 ⟨hn, by simp [Label.parts], fun k hk k' hk' heq => ?_⟩
  have hold := hfresh k hk
  rw [heq, Label.number_of_mem_parts hk'] at hold
  exact absurd hold (Nat.not_succ_le_self _)

section Perm

variable {blk : Block} {others : List Block} (hb : b.blocks.Perm (blk :: others))
  (hn : (b.blocks.map Block.label).Nodup) (hl : blk.label = l)

include hb hn hl

theorem perm_append (new : List Op) (st : List Operand) (k : Nat) :
    (b.append l new st k).blocks.Perm ({ blk with ops := blk.ops ++ new } :: others) :=
  perm_modify (g := fun blk => { blk with ops := blk.ops ++ new }) hb hn hl

theorem perm_finish (t : Terminator) :
    (b.finish l t).blocks.Perm ({ blk with terminator := some t } :: others) :=
  perm_modify (g := fun blk => { blk with terminator := some t }) hb hn hl

theorem perm_fork (hfresh : ∀ k ∈ b.blocks.map Block.label, k.number ≤ b.nextIf) (c : Operand)
    (below : List Operand) :
    (b.fork l c below).blocks.Perm
      (⟨blk.label, blk.ops ++ [.isNonzero b.nextResult c],
          some (.branch b.nextResult (.yes b.nextIf) (.no b.nextIf))⟩ ::
        (others ++ (Label.parts b.nextIf).map fun k => ⟨k, [], none⟩)) := by
  have htest := perm_append (b := { b with nextIf := b.nextIf + 1 }) hb hn hl [.isNonzero b.nextResult c] below
    (b.nextResult + 1)
  have hnodup := nodup_fork (l := l) hn hfresh c below
  rw [fork, labels_finish] at hnodup
  refine @perm_finish _ l ⟨blk.label, blk.ops ++ [.isNonzero b.nextResult c], blk.terminator⟩ _ ?_ hnodup hl _
  simpa [addBlock, Label.parts] using htest.append_right ((Label.parts b.nextIf).map fun k => ⟨k, [], none⟩)

end Perm

end Builder

namespace Holds

variable {slots : Nat} {b : Builder} {p q : Front} {before others others' : List Block}

theorem perm (h : Holds slots b p others) (hp : others.Perm others') : Holds slots b p others' :=
  { h with blocks := h.blocks.trans (hp.cons _) }

theorem emit (h : Holds slots b p others) (new : List Op) (st : List Operand) (n : Nat) :
    Holds slots (b.append p.part.label new st (p.nextResult + n)) (p.emit new st n) others where
  blocks := by
    have hpart : (p.emit new st n).part.block = { p.part.block with ops := p.part.block.ops ++ new } := by
      simp only [Part.block, Front.emit, List.append_assoc]
    rw [hpart]
    exact Builder.perm_append h.blocks h.nodup rfl new st _
  nodup := by rw [Builder.labels_append]; exact h.nodup
  fresh := by rw [Builder.labels_append]; exact h.fresh
  slots := h.slots
  stack := rfl
  nextResult := rfl
  nextIf := h.nextIf

/-- The block is closed, and building goes on in another one. -/
theorem close (h : Holds slots b q (p.part.block :: others)) (t : Terminator) (hr : p.nextResult = q.nextResult)
    (hi : p.nextIf = q.nextIf) :
    Holds slots (b.close q.part.label t p.stack) p ((q.part.close t).block :: others) where
  blocks :=
    (Builder.perm_finish (b := { b with stack := p.stack }) h.blocks h.nodup rfl t).trans (.swap _ _ _)
  nodup := by rw [Builder.close, Builder.labels_finish]; exact h.nodup
  fresh := by rw [Builder.close, Builder.labels_finish]; exact h.fresh
  slots := h.slots
  stack := rfl
  nextResult := h.nextResult.trans hr.symm
  nextIf := h.nextIf.trans hi.symm

/-- Three blocks are added, and building goes on in the first of them. -/
theorem fork (h : Holds slots b p others) (c : Operand) (below : List Operand) :
    Holds slots (b.fork p.part.label c below) (p.yesArm c below)
      (⟨.no p.nextIf, [], none⟩ :: ⟨.merge p.nextIf, [], none⟩ :: (p.forked c).block :: others) where
  blocks := by
    have hblocks := Builder.perm_fork h.blocks h.nodup rfl h.fresh c below
    rw [h.nextIf, h.nextResult, ← List.cons_append] at hblocks
    have hpart : (p.forked c).block = ⟨p.part.label, p.part.block.ops ++ [.isNonzero p.nextResult c],
        some (.branch p.nextResult (.yes p.nextIf) (.no p.nextIf))⟩ := by
      simp only [Part.block, Front.forked, List.append_assoc]
    rw [hpart]
    exact hblocks.trans List.perm_append_comm
  nodup := Builder.nodup_fork h.nodup h.fresh c below
  fresh := by
    rw [Builder.labels_fork]
    refine List.forall_mem_append.2 ⟨fun l hl => Nat.le_succ_of_le (h.fresh l hl), fun l hl => ?_⟩
    exact Nat.le_of_eq (Label.number_of_mem_parts hl)
  slots := h.slots
  stack := rfl
  nextResult := congrArg (· + 1) h.nextResult
  nextIf := congrArg (· + 1) h.nextIf

/-- The first arm is at its end, and building goes on in the second. -/
theorem noArm (h : Holds slots b q (before ++ ⟨.no p.nextIf, [], none⟩ :: others)) (c : Operand)
    (below : List Operand) :
    Holds slots (b.close q.part.label (.jump (.merge p.nextIf)) below) (p.noArm c below q)
      ((q.ended p.nextIf).block :: (before ++ others)) :=
  Holds.close (p := p.noArm c below q) (h.perm List.perm_middle) _ rfl rfl

/-- The second arm is at its end, and building goes on where they meet. -/
theorem meet (h : Holds slots b q (before ++ ⟨.merge p.nextIf, [], none⟩ :: others)) (c : Operand)
    (below : List Operand) :
    Holds slots (b.close q.part.label (.jump (.merge p.nextIf)) below) (p.meet c below q)
      ((q.ended p.nextIf).block :: (before ++ others)) :=
  Holds.close (p := p.meet c below q) (h.perm List.perm_middle) _ rfl rfl

theorem join {c : Operand} {below : List Operand} {q₂ : Front} (h : Holds slots b (p.meet c below q₂) others)
    (q₁ : Front) (y z : Operand) :
    Holds slots (b.join p.nextIf y q₁.part.label z q₂.part.label) (p.joined c below q₁ q₂ y z) others := by
  have hphi := h.emit [.phi q₂.nextResult y q₁.part.label z q₂.part.label] (.result q₂.nextResult :: below) 1
  have hk : b.nextResult = q₂.nextResult := h.nextResult
  have hstack : b.stack = below := h.stack
  rw [Builder.join, hk, hstack]
  exact { hphi with }

end Holds

theorem Emits.lowerInstr {slots k n : Nat} {st st' : List Operand} {i : Instr} {new : List Op}
    (h : Emits slots k st i new st' n) {b : Builder} (hslots : b.slots = slots) (hst : b.stack = st)
    (hk : b.nextResult = k) (cur : Label) : lowerInstr cur b i = .ok (cur, b.append cur new st' (k + n)) := by
  subst hslots hk
  cases h with
  | const => rw [lowerInstr_const, hst]; rfl
  | select => exact lowerInstr_select hst
  | get _ hi => rw [lowerInstr_get cur hi, hst]
  | set _ _ hi => exact lowerInstr_set hst hi

/-- The builder makes the blocks of the draft. -/
theorem Drafts.holds {slots : Nat} {p q : Front} {is : List Instr} {closed : List Part}
    (h : Drafts slots p is closed q) : ∀ {b : Builder} {others : List Block}, Holds slots b p others →
      ∃ b', lower p.part.label b is = .ok (q.part.label, b') ∧
        Holds slots b' q (closed.map Part.block ++ others) := by
  induction h with
  | nil p => exact fun hb => ⟨_, by simp only [lower], hb⟩
  | @emit p i new st n h =>
    intro b others hb
    refine ⟨_, ?_, hb.emit new st n⟩
    rw [lower_singleton]
    exact h.lowerInstr hb.slots hb.stack hb.nextResult _
  | append _ _ ih ih' =>
    intro b others hb
    obtain ⟨b₁, h₁, hb₁⟩ := ih hb
    obtain ⟨b₂, h₂, hb₂⟩ := ih' hb₁
    refine ⟨b₂, ?_, hb₂.perm ?_⟩
    · rw [lower_append, h₁]
      exact h₂
    · rw [List.map_append, ← List.append_assoc]
      exact List.perm_append_comm.append_right others
  | @branch p q₁ q₂ yes no closed₁ closed₂ c y z below hc _ hy _ hz ih₁ ih₂ =>
    intro b others hb
    have hstack : b.stack = c :: below := hb.stack.trans hc
    -- the arms are built one after the other, and the block in which they meet waits
    obtain ⟨b₁, h₁, hb₁⟩ := ih₁ (hb.fork c below)
    obtain ⟨b₂, h₂, hb₂⟩ := ih₂ (hb₁.noArm c below)
    have hwaits : ((q₁.ended p.nextIf).block :: (closed₁.map Part.block ++
        ⟨.merge p.nextIf, [], none⟩ :: (p.forked c).block :: others)).Perm
        (⟨.merge p.nextIf, [], none⟩ :: (q₁.ended p.nextIf).block :: (closed₁.map Part.block ++
          (p.forked c).block :: others)) :=
      (List.perm_middle.cons _).trans (.swap _ _ _)
    have hjoin := ((hb₂.perm (hwaits.append_left _)).meet c below).join q₁ y z
    refine ⟨_, ?_, hjoin.perm ?_⟩
    · have hyes : lower (.yes b.nextIf) (b.fork p.part.label c below) yes = .ok (q₁.part.label, b₁) := by
        rw [hb.nextIf]
        exact h₁
      have hno : lower (.no b.nextIf) (b₁.close q₁.part.label (.jump (.merge b.nextIf)) below) no =
          .ok (q₂.part.label, b₂) := by
        rw [hb.nextIf]
        exact h₂
      rw [lower_singleton, lowerInstr_branch hstack hyes (hb₁.stack.trans hy) hno (hb₂.stack.trans hz), hb.nextIf]
      rfl
    · rw [List.perm_iff_count]
      intro blk
      simp only [List.map_cons, List.map_append, List.map_nil, List.count_append, List.count_cons, List.count_nil]
      omega

end Llvm

end LetIf
