/-
The function of a valid module is well formed. It has the blocks of a finished draft, and what is said of the
parts of a draft is read off for the blocks. Every end leads to blocks that ask for no more values than are
there, so the values that a block asks for have definitions that dominate it; and as only two ends lead to
where the arms of a conditional meet, these are the two that its phi names.
-/
import LetIf.Proofs.Llvm.Closing
import LetIf.Proofs.Llvm.Parts
import LetIf.Proofs.Text.Decimal
import Mathlib.Data.List.Flatten

namespace LetIf.Llvm

open Instr

/-! ## Labels -/

theorem ofNat_injective {m n : Nat} (h : Text.ofNat m = Text.ofNat n) : m = n := by
  rw [← Text.decimalValue_ofNat m, h, Text.decimalValue_ofNat]

/-- Labels are told apart by their texts. -/
theorem Label.text_injective {l k : Label} (h : l.text = k.text) : l = k := by
  have hentry : Text.ofString "entry" = [101, 110, 116, 114, 121] := by decide
  have hyes : Text.ofString "then." = [116, 104, 101, 110, 46] := by decide
  have hno : Text.ofString "else." = [101, 108, 115, 101, 46] := by decide
  have hmerge : Text.ofString "merge." = [109, 101, 114, 103, 101, 46] := by decide
  cases l <;> cases k <;>
    simp only [Label.text, hentry, hyes, hno, hmerge, List.cons_append, List.nil_append, List.cons.injEq,
      true_and] at h
  all_goals first
    | rfl
    | rw [ofNat_injective h]
    | exact absurd h.1 (by decide)

theorem Label.length_all (ifs : Nat) : (Label.all ifs).length = 3 * ifs + 1 := by
  simp [Label.all, Label.parts, Nat.mul_comm]

theorem Label.all_eq (ifs : Nat) : Label.all ifs = .entry :: perIf Label.parts 0 ifs := by
  rw [Label.all, List.range_eq_range']
  rfl

/-- To where the arms of a conditional meet, two ends lead at most. -/
theorem Label.count_goals_le (n k : Nat) : (perIf Label.goals 0 k).count (.merge n) ≤ 2 := by
  have hcount : (perIf Label.goals 0 k).count (.merge n) = if n < k then 2 else 0 := by
    induction k with
    | zero => rfl
    | succ k ih =>
      rw [perIf_add, perIf_one, List.count_append, ih, Nat.zero_add]
      by_cases hn : k = n
      · subst hn
        simp [Label.goals]
      · have hlt : n < k + 1 ↔ n < k := by omega
        simp [Label.goals, hn, hlt]
  rw [hcount]
  split <;> omega

/-! ## Slots -/

theorem allocations_eq (slots : Nat) :
    allocations slots = perIf (fun i => [.alloca i, .store (.const 0) i]) 0 slots := by
  rw [allocations, List.range_eq_range']
  rfl

theorem mem_allocations {slots : Nat} {op : Op} (h : op ∈ allocations slots) :
    ∃ i < slots, op = .alloca i ∨ op = .store (.const 0) i := by
  rw [allocations_eq, mem_perIf] at h
  obtain ⟨i, -, hi, h⟩ := h
  simp only [List.mem_cons, List.not_mem_nil, or_false] at h
  exact ⟨i, by omega, h⟩

theorem definedBy_allocations (slots : Nat) : definedBy (allocations slots) = [] := by
  rw [definedBy, List.filterMap_eq_nil_iff]
  intro op hop
  obtain ⟨i, -, rfl | rfl⟩ := mem_allocations hop <;> rfl

theorem allocated_allocations (slots : Nat) : (allocations slots).filterMap Op.allocated? = List.range slots := by
  induction slots with
  | zero => rfl
  | succ n ih => simp [allocations_succ, ih, List.range_succ, Op.allocated?]

theorem ordered_allocations (slots : Nat) : Ordered [] (allocations slots) := by
  induction slots with
  | zero => trivial
  | succ n ih =>
    rw [allocations_succ, ordered_append, definedBy_allocations]
    exact ⟨ih, List.forall_mem_nil _, List.forall_mem_nil _, trivial⟩

/-- Each slot is zeroed right behind its allocation, and nothing before works on it. -/
theorem zeroed_allocations {rest : List Op} (hrest : ∀ op ∈ rest, op.allocated? = none) : ∀ {n s slot : Nat}
    {before after : List Op},
    perIf (fun i => [.alloca i, .store (.const 0) i]) s n ++ rest = before ++ .alloca slot :: after →
      s ≤ slot ∧ after.head? = some (.store (.const 0) slot) ∧ ∀ op ∈ before, op.slot? ≠ some slot
  | 0, s, slot, before, after, h => by
    have hmem : .alloca slot ∈ rest := by
      rw [perIf_zero, List.nil_append] at h
      rw [h]
      simp
    cases hrest _ hmem
  | n + 1, s, slot, before, after, h => by
    rw [Nat.add_comm n 1, perIf_add, perIf_one, List.append_assoc] at h
    match before, h with
    | [], h =>
      cases h
      exact ⟨Nat.le_refl _, rfl, List.forall_mem_nil _⟩
    | [_], h => cases h
    | _ :: _ :: before, h =>
      simp only [List.cons_append, List.nil_append, List.cons.injEq] at h
      obtain ⟨rfl, rfl, h⟩ := h
      obtain ⟨hle, hhead, hbefore⟩ := zeroed_allocations hrest h
      refine ⟨by omega, hhead, List.forall_mem_cons.2 ⟨?_, List.forall_mem_cons.2 ⟨?_, hbefore⟩⟩⟩
      · intro heq
        cases heq
        omega
      · intro heq
        cases heq
        omega

/-! ## Finished drafts -/

/-- Where building starts: the slots are there and nothing else. -/
def Front.start (slots : Nat) : Front := ⟨⟨.entry, allocations slots, [], [], none⟩, [], 0, 0⟩

theorem Front.tidy_start (slots : Nat) : (Front.start slots).Tidy slots := by
  refine ⟨⟨List.forall_mem_nil _, ?_, fun t ht => by cases ht⟩, rfl, List.forall_mem_nil _⟩
  show Ordered [] (allocations slots ++ [])
  rw [List.append_nil]
  exact ordered_allocations slots

/-- The function has the blocks of a draft, of which the last returns. -/
structure Finished (f : Func) (slots : Nat) (is : List Instr) (parts : List Part) : Prop where
  draft : ∃ closed q v, Drafts slots (.start slots) is closed q ∧ q.stack = [v] ∧
    parts = q.part.close (.ret v) :: closed
  blocks : f.blocks.Perm (parts.map Part.block)
  nodup : (f.blocks.map Block.label).Nodup

namespace Finished

variable {f : Func} {slots : Nat} {is : List Instr} {parts : List Part}

theorem mem_blocks (h : Finished f slots is parts) {blk : Block} :
    blk ∈ f.blocks ↔ ∃ c ∈ parts, c.block = blk := by
  rw [h.blocks.mem_iff, List.mem_map]

theorem forall_blocks (h : Finished f slots is parts) {P : Block → Prop} (hP : ∀ c ∈ parts, P c.block) :
    ∀ blk ∈ f.blocks, P blk := by
  intro blk hblk
  obtain ⟨c, hc, rfl⟩ := h.mem_blocks.1 hblk
  exact hP c hc

theorem labels (h : Finished f slots is parts) : (parts.map Part.label).Perm (Label.all (conditionalsAll is)) := by
  obtain ⟨closed, q, v, hdraft, -, rfl⟩ := h.draft
  rw [Label.all_eq]
  exact hdraft.labels

theorem blockLabels (h : Finished f slots is parts) : (f.blocks.map Block.label).Perm (parts.map Part.label) := by
  refine (h.blocks.map Block.label).trans (.of_eq ?_)
  rw [List.map_map]
  rfl

/-- Parts are told apart by their labels. -/
theorem part_ext (h : Finished f slots is parts) {c c' : Part} (hc : c ∈ parts) (hc' : c' ∈ parts)
    (hl : c.label = c'.label) : c = c' :=
  List.inj_on_of_nodup_map (h.blockLabels.nodup_iff.1 h.nodup) hc hc' hl

theorem edge_iff (h : Finished f slots is parts) {l goal : Label} :
    f.Edge l goal ↔ ∃ c ∈ parts, c.label = l ∧ goal ∈ c.goals := by
  constructor
  · rintro ⟨blk, hblk, rfl, t, ht, hgoal⟩
    obtain ⟨c, hc, rfl⟩ := h.mem_blocks.1 hblk
    exact ⟨c, hc, rfl, List.mem_flatMap.2 ⟨t, Option.mem_toList.2 ht, hgoal⟩⟩
  · rintro ⟨c, hc, rfl, hgoal⟩
    exact c.edge (h.mem_blocks.2 ⟨c, hc, rfl⟩) hgoal

theorem goals (h : Finished f slots is parts) :
    (parts.flatMap Part.goals).Perm (perIf Label.goals 0 (conditionalsAll is)) := by
  obtain ⟨closed, q, v, hdraft, -, rfl⟩ := h.draft
  exact hdraft.goals

theorem tidy (h : Finished f slots is parts) : ∀ c ∈ parts, c.Tidy slots := by
  obtain ⟨closed, q, v, hdraft, hstack, rfl⟩ := h.draft
  obtain ⟨hq, hclosed⟩ := hdraft.tidy (Front.tidy_start slots)
  refine List.forall_mem_cons.2 ⟨⟨hq.part.plain, hq.part.ordered, fun t ht => ?_⟩, hclosed⟩
  cases ht
  exact hq.stack v (by rw [hstack]; exact List.mem_cons_self)

theorem begins (h : Finished f slots is parts) :
    ∀ c ∈ parts, c.label = .entry ∧ c.head = allocations slots ∨ Begins parts c := by
  obtain ⟨closed, q, v, hdraft, -, rfl⟩ := h.draft
  obtain ⟨hq, hclosed⟩ := List.forall_mem_cons.1 (hdraft.begins (Front.tidy_start slots))
  have hsub : ∀ c ∈ closed, c ∈ q.part.close (.ret v) :: closed := fun c hc => List.mem_cons_of_mem _ hc
  refine List.forall_mem_cons.2 ⟨hq.imp_right fun h => h.of_eq rfl rfl hsub, fun c hc => ?_⟩
  exact (hclosed c hc).imp_right fun h => h.of_eq rfl rfl hsub

theorem goes (h : Finished f slots is parts) : ∀ c ∈ parts, ∀ goal ∈ c.goals, Enters parts goal c.values := by
  obtain ⟨closed, q, v, hdraft, -, rfl⟩ := h.draft
  have hsub : ∀ c ∈ q.part :: closed,
      ∃ c' ∈ q.part.close (.ret v) :: closed, c'.label = c.label ∧ c'.scope = c.scope :=
    List.forall_mem_cons.2
      ⟨⟨_, List.mem_cons_self, rfl, rfl⟩, fun c hc => ⟨c, List.mem_cons_of_mem _ hc, rfl, rfl⟩⟩
  refine List.forall_mem_cons.2 ⟨List.forall_mem_nil _, fun c hc goal hgoal => ?_⟩
  exact (hdraft.goes c hc goal hgoal).mono hsub

/-- Nothing is there at the entry. -/
theorem scope_entry (h : Finished f slots is parts) : ∀ c ∈ parts, c.label = .entry → c.scope = [] := by
  intro c hc hl
  obtain ⟨closed, q, v, hdraft, -, rfl⟩ := h.draft
  obtain ⟨c', hc', hl', hscope⟩ := hdraft.start
  obtain rfl | hc' := List.mem_cons.1 hc'
  · rw [h.part_ext hc List.mem_cons_self (hl.trans hl'.symm)]
    exact hscope
  · rw [h.part_ext hc (List.mem_cons_of_mem _ hc') (hl.trans hl'.symm)]
    exact hscope

theorem once (h : Finished f slots is parts) : f.results.Nodup := by
  have hperm : f.results.Perm (parts.flatMap Part.results) := by
    refine (h.blocks.flatMap_right _).trans (.of_eq ?_)
    rw [List.flatMap_map]
    rfl
  obtain ⟨closed, q, v, hdraft, -, rfl⟩ := h.draft
  obtain ⟨n, -, hn⟩ := hdraft.results
  have hstart : (Front.start slots).part.results = [] := by
    show definedBy (allocations slots ++ []) = []
    rw [List.append_nil, definedBy_allocations]
  rw [hstart, List.nil_append] at hn
  exact (hperm.trans hn).nodup_iff.2 List.nodup_range'

theorem reached (h : Finished f slots is parts) : ∀ c ∈ parts, ∃ path, f.Walk c.label path := by
  have hblocks : ∀ c ∈ parts, c.block ∈ f.blocks := fun c hc => h.mem_blocks.2 ⟨c, hc, rfl⟩
  obtain ⟨closed, q, v, hdraft, -, rfl⟩ := h.draft
  have hclosed := fun c hc => hblocks c (List.mem_cons_of_mem _ hc)
  obtain ⟨hq, hclosed⟩ := List.forall_mem_cons.1 (hdraft.reached hclosed ⟨[], .start⟩)
  exact List.forall_mem_cons.2 ⟨hq, hclosed⟩

/-! ## Values -/

/-- What a block asks for is there at its start. -/
theorem availableAt (h : Finished f slots is parts) {c : Part} (hc : c ∈ parts) {id : Nat} (hid : id ∈ c.scope) :
    f.AvailableAt c.label id := by
  obtain ⟨path, hpath⟩ := h.reached c hc
  refine Func.availableAt_of_scope (fun l id => ∃ c ∈ parts, c.label = l ∧ id ∈ c.scope) h.once ?_ ?_ hpath
    ⟨c, hc, rfl, hid⟩
  · rintro id ⟨c, hc, hl, hid⟩
    rw [h.scope_entry c hc hl] at hid
    cases hid
  · rintro l goal hedge id ⟨c', hc', rfl, hid⟩
    obtain ⟨c, hc, rfl, hgoal⟩ := h.edge_iff.1 hedge
    obtain ⟨c'', hc'', hl, hscope⟩ := h.goes c hc _ hgoal
    rw [h.part_ext hc' hc'' hl.symm] at hid
    exact (List.mem_append.1 (hscope id hid)).imp (fun hid => ⟨c, hc, rfl, hid⟩) fun hid =>
      ⟨c.block, h.mem_blocks.2 ⟨c, hc, rfl⟩, rfl, hid⟩

theorem availableBehind (h : Finished f slots is parts) {c : Part} (hc : c ∈ parts) {id : Nat}
    (hid : id ∈ c.values) : f.AvailableBehind c.label id :=
  (List.mem_append.1 hid).symm.imp (fun hid => ⟨c.block, h.mem_blocks.2 ⟨c, hc, rfl⟩, rfl, hid⟩)
    fun hid => h.availableAt hc hid

theorem uses (h : Finished f slots is parts) {c : Part} (hc : c ∈ parts) {before after : List Op} {op : Op}
    (hops : c.block.ops = before ++ op :: after) :
    ∀ id ∈ op.uses, id ∈ definedBy before ∨ f.AvailableAt c.label id := by
  have hordered : Ordered c.scope (before ++ op :: after) := by
    rw [← hops]
    exact (h.tidy c hc).ordered
  intro id hid
  obtain hid | hid := List.mem_append.1 ((ordered_append.1 hordered).2.1 id hid)
  · exact .inr (h.availableAt hc hid)
  · exact .inl hid

/-! ## Where two ways meet -/

/-- Three parts do not lead to where the arms of one conditional meet. -/
theorem eq_or_eq_of_goals (h : Finished f slots is parts) {n : Nat} {c c₁ c₂ : Part} (hc : c ∈ parts)
    (hc₁ : c₁ ∈ parts) (hc₂ : c₂ ∈ parts) (hne : c₁ ≠ c₂) (hgoal : .merge n ∈ c.goals)
    (hgoal₁ : .merge n ∈ c₁.goals) (hgoal₂ : .merge n ∈ c₂.goals) : c = c₁ ∨ c = c₂ := by
  by_contra hthree
  obtain ⟨h₁, h₂⟩ := not_or.1 hthree
  have hsub : [c, c₁, c₂] ⊆ parts := by simp [hc, hc₁, hc₂]
  have hnodup : [c, c₁, c₂].Nodup := by simp [h₁, h₂, hne]
  obtain ⟨some₃, hperm, hsublist⟩ := List.subperm_of_subset hnodup hsub
  have hcount : 3 ≤ ([c, c₁, c₂].flatMap Part.goals).count (.merge n) := by
    have hone {c : Part} (hgoal : .merge n ∈ c.goals) : 1 ≤ c.goals.count (.merge n) := List.count_pos_iff.2 hgoal
    have := hone hgoal
    have := hone hgoal₁
    have := hone hgoal₂
    simp only [List.flatMap_cons, List.flatMap_nil, List.count_append, List.count_nil]
    omega
  have hall : ([c, c₁, c₂].flatMap Part.goals).count (.merge n) ≤ 2 := by
    calc ([c, c₁, c₂].flatMap Part.goals).count (.merge n)
        = (some₃.flatMap Part.goals).count (.merge n) := ((hperm.flatMap_right Part.goals).count_eq _).symm
      _ ≤ (parts.flatMap Part.goals).count (.merge n) := (hsublist.flatMap Part.goals).count_le _
      _ = (perIf Label.goals 0 (conditionalsAll is)).count (.merge n) := h.goals.count_eq _
      _ ≤ 2 := Label.count_goals_le n _
  omega

theorem joins (h : Finished f slots is parts) {c : Part} (hc : c ∈ parts) {n : Nat} (hl : c.label = .merge n) :
    ∃ id y yesFrom z noFrom, f.Joins c.block n id y yesFrom z noFrom := by
  obtain ⟨hentry, -⟩ | hbegins := h.begins c hc
  · cases hentry.symm.trans hl
  cases hbegins with
  | arm harm => obtain harm | harm := harm <;> cases harm.symm.trans hl
  | @merge m id y z c₁ c₂ hmerge hhead hc₁ hc₂ hne hgoal₁ hgoal₂ hy hz =>
    cases hmerge.symm.trans hl
    refine ⟨id, y, c₁.label, z, c₂.label, ?_, hne, fun l => ⟨fun hedge => ?_, ?_⟩, ?_, ?_⟩
    · show (c.head ++ c.body).head? = _
      rw [hhead]
      rfl
    · obtain ⟨c', hc', rfl, hgoal⟩ := h.edge_iff.1 hedge
      have hparts : c₁ ≠ c₂ := fun heq => hne (by rw [heq])
      exact (h.eq_or_eq_of_goals hc' hc₁ hc₂ hparts hgoal hgoal₁ hgoal₂).imp (congrArg _) (congrArg _)
    · rintro (rfl | rfl)
      · exact h.edge_iff.2 ⟨c₁, hc₁, rfl, hgoal₁⟩
      · exact h.edge_iff.2 ⟨c₂, hc₂, rfl, hgoal₂⟩
    · exact fun id hid => h.availableBehind hc₁ (hy id hid)
    · exact fun id hid => h.availableBehind hc₂ (hz id hid)

theorem placed (h : Finished f slots is parts) {c : Part} (hc : c ∈ parts) : c.block.Placed := by
  have hbody : ∀ op ∈ c.body, op.isPhi = false := fun op hop => ((h.tidy c hc).plain op hop).noPhi
  have happend {head : List Op} (hhead : Block.Placed ⟨c.label, head, none⟩) (heq : c.head = head) :
      c.block.Placed := by
    rw [Part.block, heq]
    exact hhead.append hbody
  obtain ⟨-, hhead⟩ | hbegins := h.begins c hc
  · refine happend ⟨fun op hop => ?_, fun _ => noPhi_allocations slots⟩ hhead
    exact noPhi_allocations slots op (List.mem_of_mem_tail hop)
  · cases hbegins with
    | arm _ hhead => exact happend ⟨List.forall_mem_nil _, fun _ => List.forall_mem_nil _⟩ hhead
    | merge hl hhead => exact happend ⟨List.forall_mem_nil _, fun hne => absurd hl (hne _)⟩ hhead

/-! ## Slots in blocks -/

theorem allocated (h : Finished f slots is parts) {c : Part} (hc : c ∈ parts) :
    c.block.ops.filterMap Op.allocated? = if c.label = .entry then List.range slots else [] := by
  have hbody : c.body.filterMap Op.allocated? = [] :=
    List.filterMap_eq_nil_iff.2 fun op hop => ((h.tidy c hc).plain op hop).noAlloca
  rw [Part.block, List.filterMap_append, hbody, List.append_nil]
  obtain ⟨hl, hhead⟩ | hbegins := h.begins c hc
  · rw [if_pos hl, hhead, allocated_allocations]
  · cases hbegins with
    | arm hl hhead => obtain hl | hl := hl <;> rw [hl, hhead] <;> rfl
    | merge hl hhead => rw [hl, hhead]; rfl

theorem zeroed (h : Finished f slots is parts) {c : Part} (hc : c ∈ parts) {before after : List Op} {slot : Nat}
    (hops : c.block.ops = before ++ .alloca slot :: after) :
    after.head? = some (.store (.const 0) slot) ∧ ∀ op ∈ before, op.slot? ≠ some slot := by
  have hbody : ∀ op ∈ c.body, op.allocated? = none := fun op hop => ((h.tidy c hc).plain op hop).noAlloca
  have hlabel : c.label = .entry := by
    by_contra hl
    have hmem : slot ∈ c.block.ops.filterMap Op.allocated? := by
      rw [hops]
      exact List.mem_filterMap.2 ⟨.alloca slot, by simp, rfl⟩
    rw [h.allocated hc, if_neg hl] at hmem
    cases hmem
  obtain ⟨-, hhead⟩ | hbegins := h.begins c hc
  · rw [Part.block, hhead, allocations_eq] at hops
    exact (zeroed_allocations hbody hops).2
  · cases hbegins with
    | arm hl => obtain hl | hl := hl <;> cases hlabel.symm.trans hl
    | merge hl => cases hlabel.symm.trans hl

theorem slot_lt (h : Finished f slots is parts) {c : Part} (hc : c ∈ parts) {op : Op} (hop : op ∈ c.block.ops)
    {slot : Nat} (hslot : op.slot? = some slot) : slot < slots := by
  obtain hop | hop := List.mem_append.1 hop
  · obtain ⟨-, hhead⟩ | hbegins := h.begins c hc
    · rw [hhead] at hop
      obtain ⟨i, hi, rfl | rfl⟩ := mem_allocations hop <;> cases hslot <;> exact hi
    · cases hbegins with
      | arm _ hhead => rw [hhead] at hop; cases hop
      | merge _ hhead =>
        rw [hhead] at hop
        cases List.mem_singleton.1 hop
        cases hslot
  · exact ((h.tidy c hc).plain op hop).slot slot hslot

/-! ## Ends of blocks -/

theorem terminator_ne (h : Finished f slots is parts) : ∀ c ∈ parts, c.terminator ≠ none := by
  obtain ⟨closed, q, v, hdraft, -, rfl⟩ := h.draft
  refine List.forall_mem_cons.2 ⟨fun hnone => ?_, fun c hc hnone => ?_⟩
  · cases hnone
  · obtain ⟨t, ht, -⟩ := hdraft.ends c hc
    cases ht.symm.trans hnone

theorem returns (h : Finished f slots is parts) :
    ∃ blk ∈ f.blocks, ∀ blk' ∈ f.blocks, (∃ v, blk'.terminator = some (.ret v)) ↔ blk' = blk := by
  have hmem (blk : Block) : blk ∈ f.blocks ↔ ∃ c ∈ parts, c.block = blk := h.mem_blocks
  obtain ⟨closed, q, v, hdraft, -, rfl⟩ := h.draft
  refine ⟨_, (hmem _).2 ⟨_, List.mem_cons_self, rfl⟩, fun blk' hblk' => ⟨?_, ?_⟩⟩
  · rintro ⟨u, hu⟩
    obtain ⟨c, hc, rfl⟩ := (hmem _).1 hblk'
    obtain rfl | hc := List.mem_cons.1 hc
    · rfl
    · obtain ⟨t, ht, hret⟩ := hdraft.ends c hc
      exact absurd (Option.some.inj (ht.symm.trans hu)) (hret u)
  · rintro rfl
    exact ⟨v, rfl⟩

theorem no_edge_entry (h : Finished f slots is parts) (l : Label) : ¬ f.Edge l .entry := by
  intro hedge
  obtain ⟨c, hc, -, hgoal⟩ := h.edge_iff.1 hedge
  have hmem := h.goals.mem_iff.1 (List.mem_flatMap.2 ⟨c, hc, hgoal⟩)
  obtain ⟨n, -, -, hmem⟩ := (mem_perIf _).1 hmem
  simp [Label.goals] at hmem

theorem wellFormed (h : Finished f slots is parts) (hfirst : f.blocks.head?.map Block.label = some .entry) :
    f.WellFormed slots (conditionalsAll is) where
  count := by
    rw [← List.length_map Block.label, (h.blockLabels.trans h.labels).length_eq, Label.length_all]
  labels := h.blockLabels.trans h.labels
  distinct := by
    rw [← Function.comp_def, ← List.map_map]
    exact h.nodup.map fun _ _ => Label.text_injective
  first := hfirst
  ends := h.forall_blocks h.terminator_ne
  returns := h.returns
  reached := h.forall_blocks h.reached
  entry := h.no_edge_entry
  placed := h.forall_blocks fun _ hc => h.placed hc
  joins := h.forall_blocks fun _ hc _ hl => h.joins hc hl
  allocated := h.forall_blocks fun _ hc => h.allocated hc
  zeroed := h.forall_blocks fun _ hc _ _ _ hops => h.zeroed hc hops
  slots := h.forall_blocks fun _ hc _ hop _ hslot => h.slot_lt hc hop hslot
  once := h.once
  uses := h.forall_blocks fun _ hc _ _ _ hops => h.uses hc hops
  usesAtEnd := h.forall_blocks fun c hc t ht id hid => h.availableBehind hc ((h.tidy c hc).atEnd t ht id hid)

end Finished

/-! ## Modules -/

theorem Holds.start (slots : Nat) : Holds slots (.start slots) (.start slots) [] where
  blocks := .of_eq (by simp [Builder.start, Front.start, Part.block])
  nodup := List.nodup_singleton _
  fresh := List.forall_mem_singleton.2 (Nat.le_refl _)
  slots := rfl
  stack := rfl
  nextResult := rfl
  nextIf := rfl

/-- The builder that holds the draft of the whole body makes a function of it by returning. -/
theorem Holds.finished {slots : Nat} {b : Builder} {is : List Instr} {closed : List Part} {q : Front} {v : Operand}
    (hb : Holds slots b q (closed.map Part.block ++ [])) (hdraft : Drafts slots (.start slots) is closed q)
    (hstack : q.stack = [v]) (name : Text) :
    Finished ⟨name, (b.close q.part.label (.ret v) []).blocks⟩ slots is (q.part.close (.ret v) :: closed) where
  draft := ⟨closed, q, v, hdraft, hstack, rfl⟩
  blocks := by
    have hblocks := Builder.perm_finish hb.blocks hb.nodup rfl (.ret v)
    rw [List.append_nil] at hblocks
    exact hblocks
  nodup := by
    show ((b.close q.part.label (.ret v) []).blocks.map Block.label).Nodup
    rw [Builder.close, Builder.labels_finish]
    exact hb.nodup

/-- The function of a valid module is well formed, with as many slots as the module has and as many
conditionals as there are in its body, those in arms included. -/
theorem wellFormed_ofModule {m : Module} (h : m.validate = .ok ()) :
    ∃ f, ofModule m = .ok f ∧ f.WellFormed m.locals.toNat (conditionalsAll m.body) := by
  obtain ⟨-, is, hbody, hdepth⟩ := Module.validate_eq_ok.1 h
  obtain ⟨closed, q, top, hdraft, hstack, hlen⟩ :=
    exists_drafts_of_depthFrom (.start m.locals.toNat) [] [] rfl hdepth
  obtain ⟨v, rfl⟩ := List.length_eq_one_iff.1 hlen
  obtain ⟨b, hlower, hb⟩ := hdraft.holds (Holds.start m.locals.toNat)
  have hlower : lower .entry (.start m.locals.toNat) is = .ok (q.part.label, b) := hlower
  have hlower' : lower .entry (.start m.locals.toNat) m.body =
      .ok (q.part.label, b.close q.part.label (.ret v) []) := by
    rw [hbody, lower_append, hlower]
    refine (lower_singleton _).trans (lowerInstr_stop (hb.stack.trans hstack))
  have hcount : conditionalsAll m.body = conditionalsAll is := by
    rw [hbody, conditionalsAll_append]
    rfl
  -- the entry stands first, as the builder knows
  obtain ⟨q', hq', -⟩ := exists_translates_of_depthFrom (Point.start m.locals.toNat) rfl hdepth
  have hsame : b = q'.builder := (Prod.mk.inj (Except.ok.inj (hlower.symm.trans hq'.lower))).2
  have hfirst : b.first? = some .entry := by
    rw [hsame]
    exact q'.sound.first
  refine ⟨_, ofModule_of_lower hlower', ?_⟩
  rw [hcount]
  exact (hb.finished hdraft hstack m.name).wellFormed ((Builder.first?_finish (.ret v)).trans hfirst)

/-- Each arm ends in another block than it starts in, and both ways to where the arms meet are in use. -/
theorem wellFormed_crossingArms : crossingArms.validate = .ok () ∧
    ∃ f, ofModule crossingArms = .ok f ∧ f.WellFormed 1 2 :=
  ⟨rfl, wellFormed_ofModule (m := crossingArms) rfl⟩

end LetIf.Llvm
