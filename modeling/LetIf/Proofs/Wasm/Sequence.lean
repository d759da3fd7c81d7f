/-
Sequences of instructions. One lemma for each opcode says what a sequence that starts with it reads;
from these, what is read is code of the grammar, and code of the grammar is read back whatever stands
behind it, in every nesting of arms.
-/
import LetIf.Proofs.Wasm.Grammar

namespace LetIf.Wasm

open Leb128

/-- The opcode at which a sequence stops. -/
def Terminator.opcode : Terminator → UInt8
  | .atEnd => opEnd
  | .atElse => opElse

section Opcodes

variable {limit : Nat} {op : UInt8} {src rest : Text} {is : List Instr} {last : Terminator}

theorem opcode_of_sequence {r : Read (List Instr × Terminator) (op :: src)}
    (h : sequence limit (op :: src) = .ok r) : limit ≤ src.length ∧ (op = opEnd ∨ op = opElse ∨
      op = opSelect ∨ op = opConst ∨ op = opLocalGet ∨ op = opLocalSet ∨ op = opIf) := by
  rw [sequence] at h
  obtain ⟨hl, h⟩ := ite_error_eq_ok.1 h
  refine ⟨Nat.le_of_not_lt hl, ?_⟩
  by_contra hop
  simp only [not_or] at hop
  obtain ⟨h₁, h₂, h₃, h₄, h₅, h₆, h₇⟩ := hop
  rw [if_neg h₁, if_neg h₂, if_neg h₃, if_neg h₄, if_neg h₅, if_neg h₆, if_neg h₇] at h
  cases h

theorem sequence_terminator (hl : limit ≤ src.length) (last : Terminator) :
    sequence limit (last.opcode :: src) = .ok ⟨([], last), src, Read.tail_lt⟩ := by
  rw [sequence, if_neg (by omega)]
  cases last with
  | atEnd => exact if_pos rfl
  | atElse => exact (if_neg (by decide)).trans (if_pos rfl)

theorem sequence_select_eq_ok (hl : limit ≤ src.length) {hlt : rest.length < (opSelect :: src).length} :
    sequence limit (opSelect :: src) = .ok ⟨(is, last), rest, hlt⟩ ↔
      ∃ is' hlt', sequence limit src = .ok ⟨(is', last), rest, hlt'⟩ ∧ is = .select :: is' := by
  rw [sequence, if_neg (by omega), if_neg (by decide), if_neg (by decide), if_pos rfl, bind_eq_ok]
  constructor
  · rintro ⟨⟨⟨is', last'⟩, rest', hlt'⟩, hs, h⟩
    cases h
    exact ⟨is', hlt', hs, rfl⟩
  · rintro ⟨is', hlt', hs, rfl⟩
    exact ⟨_, hs, rfl⟩

/-- An opcode with an immediate: the immediate is read, then what follows it. -/
theorem immediate_eq_ok {α : Type} {imm : Reader α} {IsImm : Text → α → Prop}
    (himm : ∀ {src rest : Text} {a : α} {h : rest.length < src.length},
      imm src = .ok ⟨a, rest, h⟩ ↔ ∃ bs, src = bs ++ rest ∧ IsImm bs a)
    (hne : ∀ {bs : Text} {a : α}, IsImm bs a → bs ≠ []) (make : α → Instr)
    {hlt : rest.length < (op :: src).length} :
    (do let ⟨a, r₁, h₁⟩ ← imm src
        let ⟨(is, last), r₂, h₂⟩ ← sequence limit r₁
        return ⟨(make a :: is, last), r₂, Read.lt_cons₂ h₁ h₂⟩ :
      Except Fault (Read (List Instr × Terminator) (op :: src))) = .ok ⟨(is, last), rest, hlt⟩ ↔
      ∃ bs a mid is' hlt', src = bs ++ mid ∧ IsImm bs a ∧
        sequence limit mid = .ok ⟨(is', last), rest, hlt'⟩ ∧ is = make a :: is' := by
  simp only [bind_eq_ok]
  constructor
  · rintro ⟨⟨a, mid, hlt₁⟩, ha, ⟨⟨is', last'⟩, rest', hlt'⟩, hs, h⟩
    cases h
    obtain ⟨bs, hsrc, hbs⟩ := himm.1 ha
    exact ⟨bs, a, mid, is', hlt', hsrc, hbs, hs, rfl⟩
  · rintro ⟨bs, a, mid, is', hlt', rfl, hbs, hs, rfl⟩
    have hpos := List.length_pos_iff.2 (hne hbs)
    exact ⟨⟨a, mid, by rw [List.length_append]; omega⟩, himm.2 ⟨bs, rfl, hbs⟩, _, hs, rfl⟩

theorem sequence_const_eq_ok (hl : limit ≤ src.length) {hlt : rest.length < (opConst :: src).length} :
    sequence limit (opConst :: src) = .ok ⟨(is, last), rest, hlt⟩ ↔
      ∃ bs n mid is' hlt', src = bs ++ mid ∧ IsS32 bs n ∧
        sequence limit mid = .ok ⟨(is', last), rest, hlt'⟩ ∧ is = .const n :: is' := by
  rw [sequence, if_neg (by omega), if_neg (by decide), if_neg (by decide), if_neg (by decide),
    if_pos rfl]
  exact immediate_eq_ok s32_eq_ok (fun h => isNumber_ne_nil h.1) .const

theorem sequence_localGet_eq_ok (hl : limit ≤ src.length)
    {hlt : rest.length < (opLocalGet :: src).length} :
    sequence limit (opLocalGet :: src) = .ok ⟨(is, last), rest, hlt⟩ ↔
      ∃ bs i mid is' hlt', src = bs ++ mid ∧ IsU32 bs i ∧
        sequence limit mid = .ok ⟨(is', last), rest, hlt'⟩ ∧ is = .localGet i :: is' := by
  rw [sequence, if_neg (by omega), if_neg (by decide), if_neg (by decide), if_neg (by decide),
    if_neg (by decide), if_pos rfl]
  exact immediate_eq_ok u32_eq_ok isU32_ne_nil .localGet

theorem sequence_localSet_eq_ok (hl : limit ≤ src.length)
    {hlt : rest.length < (opLocalSet :: src).length} :
    sequence limit (opLocalSet :: src) = .ok ⟨(is, last), rest, hlt⟩ ↔
      ∃ bs i mid is' hlt', src = bs ++ mid ∧ IsU32 bs i ∧
        sequence limit mid = .ok ⟨(is', last), rest, hlt'⟩ ∧ is = .localSet i :: is' := by
  rw [sequence, if_neg (by omega), if_neg (by decide), if_neg (by decide), if_neg (by decide),
    if_neg (by decide), if_neg (by decide), if_pos rfl]
  exact immediate_eq_ok u32_eq_ok isU32_ne_nil .localSet

theorem sequence_branch_eq_ok (hl : limit ≤ src.length) {hlt : rest.length < (opIf :: src).length} :
    sequence limit (opIf :: src) = .ok ⟨(is, last), rest, hlt⟩ ↔
      ∃ r₁ yes r₂ h₁ no r₃ h₂ is' h₃, src = i32Type :: r₁ ∧
        sequence limit r₁ = .ok ⟨(yes, .atElse), r₂, h₁⟩ ∧
        sequence limit r₂ = .ok ⟨(no, .atEnd), r₃, h₂⟩ ∧
        sequence limit r₃ = .ok ⟨(is', last), rest, h₃⟩ ∧ is = .branch yes no :: is' := by
  rw [sequence, if_neg (by omega), if_neg (by decide), if_neg (by decide), if_neg (by decide),
    if_neg (by decide), if_neg (by decide), if_neg (by decide), if_pos rfl]
  simp only [bind_eq_ok, ite_throw_eq_ok]
  constructor
  · rintro ⟨⟨t, r₁, h₀⟩, ht, hty, ⟨⟨yes, last₁⟩, r₂, h₁⟩, hy, hlast₁, ⟨⟨no, last₂⟩, r₃, h₂⟩, hn, hlast₂,
      ⟨⟨is', last₃⟩, r₄, h₃⟩, hs, h⟩
    cases h
    obtain rfl := byte_eq_ok.1 ht
    obtain rfl := Decidable.not_not.1 hty
    obtain rfl := Decidable.not_not.1 hlast₁
    obtain rfl := Decidable.not_not.1 hlast₂
    exact ⟨r₁, yes, r₂, h₁, no, r₃, h₂, is', h₃, rfl, hy, hn, hs, rfl⟩
  · rintro ⟨r₁, yes, r₂, h₁, no, r₃, h₂, is', h₃, rfl, hy, hn, hs, rfl⟩
    exact ⟨⟨i32Type, r₁, Read.tail_lt⟩, rfl, by simp, _, hy, by simp, _, hn, by simp, _, hs, rfl⟩

end Opcodes

/-- What a sequence reads is code, up to the opcode it stops at, which stands before the limit. -/
theorem isCode_of_sequence {limit : Nat} : ∀ {src rest : Text} {is : List Instr} {last : Terminator}
    {hlt : rest.length < src.length}, sequence limit src = .ok ⟨(is, last), rest, hlt⟩ →
      ∃ bs, src = bs ++ last.opcode :: rest ∧ IsCode is bs ∧ limit ≤ rest.length
  | [], _, _, _, hlt, _ => absurd hlt (Nat.not_lt_zero _)
  | op :: src, rest, is, last, hlt, h => by
    obtain ⟨hl, rfl | rfl | rfl | rfl | rfl | rfl | rfl⟩ := opcode_of_sequence h
    · cases (sequence_terminator hl .atEnd).symm.trans h
      exact ⟨[], rfl, .nil, hl⟩
    · cases (sequence_terminator hl .atElse).symm.trans h
      exact ⟨[], rfl, .nil, hl⟩
    · obtain ⟨is', _, hs, rfl⟩ := (sequence_select_eq_ok hl).1 h
      obtain ⟨bs, rfl, hc, hle⟩ := isCode_of_sequence hs
      exact ⟨opSelect :: bs, rfl, .select hc, hle⟩
    · obtain ⟨imm, n, mid, is', _, rfl, hn, hs, rfl⟩ := (sequence_const_eq_ok hl).1 h
      obtain ⟨bs, rfl, hc, hle⟩ := isCode_of_sequence hs
      exact ⟨opConst :: imm ++ bs, by simp, .const hn hc, hle⟩
    · obtain ⟨imm, i, mid, is', _, rfl, hi, hs, rfl⟩ := (sequence_localGet_eq_ok hl).1 h
      obtain ⟨bs, rfl, hc, hle⟩ := isCode_of_sequence hs
      exact ⟨opLocalGet :: imm ++ bs, by simp, .localGet hi hc, hle⟩
    · obtain ⟨imm, i, mid, is', _, rfl, hi, hs, rfl⟩ := (sequence_localSet_eq_ok hl).1 h
      obtain ⟨bs, rfl, hc, hle⟩ := isCode_of_sequence hs
      exact ⟨opLocalSet :: imm ++ bs, by simp, .localSet hi hc, hle⟩
    · obtain ⟨r₁, yes, r₂, h₁, no, r₃, h₂, is', h₃, rfl, hy, hn, hs, rfl⟩ := (sequence_branch_eq_ok hl).1 h
      obtain ⟨ys, rfl, hyc, -⟩ := isCode_of_sequence hy
      obtain ⟨ns, rfl, hnc, -⟩ := isCode_of_sequence hn
      obtain ⟨bs, rfl, hc, hle⟩ := isCode_of_sequence hs
      exact ⟨opIf :: i32Type :: ys ++ opElse :: ns ++ opEnd :: bs, by simp [Terminator.opcode],
        .branch hyc hnc hc, hle⟩
  termination_by src => src.length
  decreasing_by
    all_goals
      subst_vars
      simp only [List.length_cons, List.length_append] at *
      omega

theorem lt_append_left {b rest : Text} (a : Text) (h : rest.length < b.length) :
    rest.length < (a ++ b).length := by
  rw [List.length_append]; omega

/-- Code is read back, whatever follows its terminator, as long as the limit lies behind it. -/
theorem IsCode.sequence {limit : Nat} {is : List Instr} {bs : Text} (hc : IsCode is bs) :
    ∀ (last : Terminator) {rest : Text}, limit ≤ rest.length →
      ∃ h, sequence limit (bs ++ last.opcode :: rest) = .ok ⟨(is, last), rest, h⟩ := by
  induction hc with
  | nil =>
    intro last rest hl
    exact ⟨_, sequence_terminator hl last⟩
  | @const _ imm _ _ himm hc ih =>
    intro last rest hl
    obtain ⟨h, hs⟩ := ih last hl
    rw [List.cons_append, List.cons_append, List.append_assoc]
    have hlt := lt_append_left imm h
    exact ⟨Nat.lt_succ_of_lt hlt,
      (sequence_const_eq_ok (by omega)).2 ⟨_, _, _, _, h, rfl, himm, hs, rfl⟩⟩
  | select hc ih =>
    intro last rest hl
    obtain ⟨h, hs⟩ := ih last hl
    rw [List.cons_append]
    exact ⟨Nat.lt_succ_of_lt h, (sequence_select_eq_ok (by omega)).2 ⟨_, h, hs, rfl⟩⟩
  | @branch ys ns bs yes no is hy hn hc ihy ihn ih =>
    intro last rest hl
    -- each part ends where the next begins, and the limit lies behind them all
    obtain ⟨h₃, hs⟩ := ih last hl
    obtain ⟨h₂, hn⟩ := ihn .atEnd (Nat.le_trans hl (Nat.le_of_lt h₃))
    obtain ⟨h₁, hy⟩ := ihy .atElse (Nat.le_trans hl (Nat.le_of_lt (Nat.lt_trans h₃ h₂)))
    have hshape : opIf :: i32Type :: ys ++ opElse :: ns ++ opEnd :: bs ++ last.opcode :: rest =
        opIf :: i32Type :: (ys ++ opElse :: (ns ++ opEnd :: (bs ++ last.opcode :: rest))) := by simp
    have hlt := Nat.lt_trans h₃ (Nat.lt_trans h₂ h₁)
    rw [hshape]
    exact ⟨Nat.lt_succ_of_lt (Nat.lt_succ_of_lt hlt),
      (sequence_branch_eq_ok (Nat.le_succ_of_le (Nat.le_trans hl (Nat.le_of_lt hlt)))).2
        ⟨_, yes, _, h₁, no, _, h₂, is, h₃, rfl, hy, hn, hs, rfl⟩⟩
  | @localGet _ imm _ _ himm hc ih =>
    intro last rest hl
    obtain ⟨h, hs⟩ := ih last hl
    rw [List.cons_append, List.cons_append, List.append_assoc]
    have hlt := lt_append_left imm h
    exact ⟨Nat.lt_succ_of_lt hlt,
      (sequence_localGet_eq_ok (by omega)).2 ⟨_, _, _, _, h, rfl, himm, hs, rfl⟩⟩
  | @localSet _ imm _ _ himm hc ih =>
    intro last rest hl
    obtain ⟨h, hs⟩ := ih last hl
    rw [List.cons_append, List.cons_append, List.append_assoc]
    have hlt := lt_append_left imm h
    exact ⟨Nat.lt_succ_of_lt hlt,
      (sequence_localSet_eq_ok (by omega)).2 ⟨_, _, _, _, h, rfl, himm, hs, rfl⟩⟩

end LetIf.Wasm
