/-
Every block of a finished function has an end. Building leaves no block open but the one it works in:
whatever the instructions, a block that is open after them is the current one or was open before them
and not the current one then. A conditional opens three blocks, and closes all but the one in which
it goes on. So after the last instruction, which ends the current block, no block is open, and a valid
module has a text.
-/
import LetIf.Proofs.Llvm.Translation

namespace LetIf.Llvm

open Code

/-! ## Open blocks -/

namespace Builder

variable {b b' : Builder} {l k : Label} {op : Op} {t : Terminator}

/-- A block with the label has no end yet. -/
def IsOpen (b : Builder) (l : Label) : Prop := ∃ blk ∈ b.blocks, blk.label = l ∧ blk.terminator = none

theorem isOpen_emit : (b.emit k op).IsOpen l ↔ b.IsOpen l := by
  unfold IsOpen emit modify
  constructor
  · rintro ⟨_, hmem, hl, ht⟩
    obtain ⟨blk, hblk, rfl⟩ := List.mem_map.1 hmem
    refine ⟨blk, hblk, ?_⟩
    split at hl <;> split at ht <;> exact ⟨hl, ht⟩
  · rintro ⟨blk, hblk, hl, ht⟩
    refine ⟨_, List.mem_map_of_mem hblk, ?_⟩
    split <;> exact ⟨hl, ht⟩

theorem isOpen_finish : (b.finish k t).IsOpen l ↔ l ≠ k ∧ b.IsOpen l := by
  unfold IsOpen finish modify
  constructor
  · rintro ⟨_, hmem, hl, ht⟩
    obtain ⟨blk, hblk, rfl⟩ := List.mem_map.1 hmem
    by_cases hk : blk.label = k
    · rw [if_pos hk] at ht
      cases ht
    · rw [if_neg hk] at hl ht
      exact ⟨fun h => hk (hl.trans h), blk, hblk, hl, ht⟩
  · rintro ⟨hne, blk, hblk, rfl, ht⟩
    exact ⟨_, List.mem_map_of_mem hblk, by rw [if_neg hne], by rw [if_neg hne]; exact ht⟩

theorem isOpen_addBlock : (b.addBlock k).IsOpen l ↔ b.IsOpen l ∨ l = k := by
  unfold IsOpen addBlock
  simp only [List.mem_append, List.mem_singleton]
  constructor
  · rintro ⟨blk, hblk | rfl, hl, ht⟩
    · exact .inl ⟨blk, hblk, hl, ht⟩
    · exact .inr hl.symm
  · rintro (⟨blk, hblk, hl, ht⟩ | rfl)
    · exact ⟨blk, .inl hblk, hl, ht⟩
    · exact ⟨_, .inr rfl, rfl, rfl⟩

theorem isOpen_push {v : Operand} : (b.push v).IsOpen l ↔ b.IsOpen l := Iff.rfl

theorem isOpen_define {op : Nat → Op} : (b.define k op).2.IsOpen l ↔ b.IsOpen l := isOpen_emit

/-- Taking an operand off the stack changes no block. -/
theorem isOpen_pop {v : Operand} (h : b.pop = .ok (v, b')) : b'.IsOpen l ↔ b.IsOpen l := by
  unfold pop at h
  split at h
  · cases h; exact Iff.rfl
  · cases h

/-- No block is open. -/
def IsClosed (b : Builder) : Prop := ∀ l, ¬ b.IsOpen l

end Builder

/-! ## What building closes -/

/-- From `cur` to `cur'` no block is left open: one that is open and not current was so before. -/
def Closes (cur : Label) (b : Builder) (cur' : Label) (b' : Builder) : Prop :=
  ∀ l, b'.IsOpen l → l ≠ cur' → b.IsOpen l ∧ l ≠ cur

namespace Closes

variable {cur cur₁ cur₂ : Label} {b b₁ b₂ : Builder}

theorem of_isOpen (h : ∀ l, b₁.IsOpen l → b.IsOpen l) : Closes cur b cur b₁ :=
  fun l hl hne => ⟨h l hl, hne⟩

theorem trans (h₁ : Closes cur b cur₁ b₁) (h₂ : Closes cur₁ b₁ cur₂ b₂) : Closes cur b cur₂ b₂ := by
  intro l hl hne
  obtain ⟨hl, hne⟩ := h₂ l hl hne
  exact h₁ l hl hne

end Closes

mutual

theorem closes_of_lowerInstr : ∀ {i : Instr} {cur : Label} {b : Builder} {cur' : Label} {b' : Builder},
    lowerInstr cur b i = .ok (cur', b') → Closes cur b cur' b'
  | .const _, _, _, _, _, h => by
    simp only [lowerInstr] at h
    cases h
    exact .of_isOpen fun _ hl => hl
  | .select, cur, b, _, _, h => by
    simp only [lowerInstr] at h
    obtain ⟨⟨c, b₁⟩, h₁, h⟩ := bind_eq_ok.1 h
    obtain ⟨⟨no, b₂⟩, h₂, h⟩ := bind_eq_ok.1 h
    obtain ⟨⟨yes, b₃⟩, h₃, h⟩ := bind_eq_ok.1 h
    cases h
    refine .of_isOpen fun l hl => ?_
    rw [Builder.isOpen_push, Builder.isOpen_define, Builder.isOpen_define] at hl
    exact (Builder.isOpen_pop h₁).1 ((Builder.isOpen_pop h₂).1 ((Builder.isOpen_pop h₃).1 hl))
  | .localGet i, _, _, _, _, h => by
    simp only [lowerInstr] at h
    split at h
    · cases h
      exact .of_isOpen fun _ hl => Builder.isOpen_define.1 (Builder.isOpen_push.1 hl)
    · cases h
  | .localSet i, _, _, _, _, h => by
    simp only [lowerInstr] at h
    obtain ⟨⟨v, b₁⟩, h₁, h⟩ := bind_eq_ok.1 h
    dsimp only at h
    split at h
    · cases h
      exact .of_isOpen fun _ hl => (Builder.isOpen_pop h₁).1 (Builder.isOpen_emit.1 hl)
    · cases h
  | .branch yes no, cur, b, _, _, h => by
    simp only [lowerInstr] at h
    obtain ⟨⟨c, b₁⟩, h₁, h⟩ := bind_eq_ok.1 h
    obtain ⟨⟨yesEnd, b₂⟩, hyes, h⟩ := bind_eq_ok.1 h
    obtain ⟨⟨y, b₃⟩, h₃, h⟩ := bind_eq_ok.1 h
    obtain ⟨⟨noEnd, b₄⟩, hno, h⟩ := bind_eq_ok.1 h
    obtain ⟨⟨z, b₅⟩, h₅, h⟩ := bind_eq_ok.1 h
    cases h
    intro l hl hmerge
    -- back through the arms: what is open at the end is neither of their ends nor of their starts
    rw [Builder.isOpen_push, Builder.isOpen_define] at hl
    obtain ⟨hnoEnd, hl⟩ := Builder.isOpen_finish.1 hl
    obtain ⟨hl, hnoStart⟩ := closes_of_lower hno l ((Builder.isOpen_pop h₅).1 hl) hnoEnd
    obtain ⟨hyesEnd, hl⟩ := Builder.isOpen_finish.1 hl
    obtain ⟨hl, hyesStart⟩ := closes_of_lower hyes l ((Builder.isOpen_pop h₃).1 hl) hyesEnd
    obtain ⟨hcur, hl⟩ := Builder.isOpen_finish.1 hl
    obtain hl := (Builder.isOpen_addBlock.1 hl).resolve_right hmerge
    obtain hl := (Builder.isOpen_addBlock.1 hl).resolve_right hnoStart
    obtain hl := (Builder.isOpen_addBlock.1 hl).resolve_right hyesStart
    exact ⟨(Builder.isOpen_pop h₁).1 (Builder.isOpen_define.1 hl), hcur⟩
  | .stop, _, _, _, _, h => by
    simp only [lowerInstr] at h
    obtain ⟨⟨v, b₁⟩, h₁, h⟩ := bind_eq_ok.1 h
    cases h
    exact .of_isOpen fun _ hl => (Builder.isOpen_pop h₁).1 (Builder.isOpen_finish.1 hl).2
  | .unknown, _, _, _, _, h => by
    simp only [lowerInstr] at h
    cases h

theorem closes_of_lower : ∀ {is : List Instr} {cur : Label} {b : Builder} {cur' : Label} {b' : Builder},
    lower cur b is = .ok (cur', b') → Closes cur b cur' b'
  | [], _, _, _, _, h => by
    simp only [lower] at h
    cases h
    exact .of_isOpen fun _ hl => hl
  | i :: is, _, _, _, _, h => by
    simp only [lower] at h
    obtain ⟨⟨cur₁, b₁⟩, hi, his⟩ := bind_eq_ok.1 h
    exact (closes_of_lowerInstr hi).trans (closes_of_lower his)

end

/-- A function that ends with a return has no open block, if it starts with none but the current. -/
theorem isClosed_of_lower {cur cur' : Label} {b b' : Builder} {is : List Instr}
    (h : lower cur b (is ++ [.stop]) = .ok (cur', b')) (hb : ∀ l, b.IsOpen l → l = cur) : b'.IsClosed := by
  intro l hl
  rw [lower_append] at h
  obtain ⟨⟨cur₁, b₁⟩, his, hstop⟩ := bind_eq_ok.1 h
  rw [lower_singleton] at hstop
  simp only [lowerInstr] at hstop
  obtain ⟨⟨v, b₂⟩, hpop, hstop⟩ := bind_eq_ok.1 hstop
  cases hstop
  obtain ⟨hne, hl⟩ := Builder.isOpen_finish.1 hl
  obtain ⟨hl, hne⟩ := closes_of_lower his l ((Builder.isOpen_pop hpop).1 hl) hne
  exact hne (hb l hl)

/-! ## Texts -/

theorem exists_blockText (results : List Nat) {blk : Block} (h : blk.terminator ≠ none) :
    ∃ t, blk.text results = .ok t := by
  unfold Block.text
  cases ht : blk.terminator with
  | none => exact absurd ht h
  | some t => exact ⟨_, rfl⟩

theorem exists_blockTexts {results : List Nat} : ∀ {blocks : List Block},
    (∀ blk ∈ blocks, blk.terminator ≠ none) → ∃ ts, blocks.mapM (Block.text results) = .ok ts
  | [], _ => ⟨[], rfl⟩
  | blk :: blocks, h => by
    obtain ⟨hblk, hblocks⟩ := List.forall_mem_cons.1 h
    obtain ⟨t, ht⟩ := exists_blockText results hblk
    obtain ⟨ts, hts⟩ := exists_blockTexts hblocks
    exact ⟨t :: ts, by rw [List.mapM_cons, ht, hts]; rfl⟩

theorem Builder.IsClosed.exists_text {b : Builder} (h : b.IsClosed) (name : Text) :
    ∃ t, Func.text ⟨name, b.blocks⟩ = .ok t := by
  have hend : ∀ blk ∈ b.blocks, blk.terminator ≠ none := fun blk hblk ht => h blk.label ⟨blk, hblk, rfl, ht⟩
  obtain ⟨ts, hts⟩ := exists_blockTexts hend
  exact ⟨_, bind_eq_ok.2 ⟨ts, hts, rfl⟩⟩

theorem Builder.eq_entry_of_isOpen_start {slots : Nat} {l : Label} (h : (Builder.start slots).IsOpen l) :
    l = .entry := by
  obtain ⟨blk, hblk, hl, -⟩ := h
  rw [Builder.start, List.mem_singleton] at hblk
  rw [← hl, hblk]

/-- A valid module can be written. -/
theorem exists_encode_of_validate {m : Module} (h : m.validate = .ok ()) : ∃ text, encode m = .ok text := by
  obtain ⟨-, is, hbody, hdepth⟩ := Module.validate_eq_ok.1 h
  obtain ⟨q, hq, hlen⟩ := exists_translates_of_depthFrom (Point.start m.locals.toNat) rfl hdepth
  obtain ⟨v, htop⟩ := List.length_eq_one_iff.1 hlen
  have hlower : lower .entry (.start m.locals.toNat) (is ++ [.stop]) =
      .ok (q.label, q.builder.close q.label (.ret v) []) := by
    rw [lower_append]
    refine bind_eq_ok.2 ⟨_, hq.lower, ?_⟩
    rw [lower_singleton]
    exact lowerInstr_stop (q.stack_cons htop)
  have hclosed := isClosed_of_lower hlower fun l hl => Builder.eq_entry_of_isOpen_start hl
  obtain ⟨text, htext⟩ := hclosed.exists_text m.name
  exact ⟨text, bind_eq_ok.2 ⟨_, ofModule_of_lower (by rw [hbody]; exact hlower), htext⟩⟩

end LetIf.Llvm
