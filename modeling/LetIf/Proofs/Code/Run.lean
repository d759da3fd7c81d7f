/-
Runs that come to an end. `Reaches s is s'` says that a sequence takes state `s` to `s'` at any
place and whatever stands behind it, so runs compose like their sequences. One lemma for each
instruction says what it reaches, and one what a step of it has found and left.
-/
import LetIf.Code.Machine
import LetIf.Proofs.Except

namespace LetIf

/-! ## Slots -/

namespace Slots

/-- The slots with `v` in slot `i`. -/
def write (s : Slots) (i : Nat) (v : Int32) : Slots :=
  { s with word := fun j => if j = i then v else s.word j }

@[simp] theorem write_count (s : Slots) (i : Nat) (v : Int32) : (s.write i v).count = s.count := rfl

theorem write_word_self (s : Slots) (i : Nat) (v : Int32) : (s.write i v).word i = v := if_pos rfl

theorem write_word_ne (s : Slots) {i j : Nat} (v : Int32) (h : j ≠ i) : (s.write i v).word j = s.word j :=
  if_neg h

theorem get?_of_lt {s : Slots} {i : Nat} (h : i < s.count) : s.get? i = some (s.word i) := if_pos h

theorem set?_of_lt {s : Slots} {i : Nat} (h : i < s.count) (v : Int32) : s.set? i v = some (s.write i v) :=
  if_pos h

end Slots

namespace Machine

attribute [local simp] step run

/-- The sequence `is` takes `s` to `s'` and goes on with what follows it, wherever it stands. -/
def Reaches (s : State) (is : List Instr) (s' : State) : Prop :=
  ∀ pc rest, run pc s (is ++ rest) = run (pc + is.length) s' rest

/-! ## Composition -/

theorem Reaches.nil (s : State) : Reaches s [] s := fun _ _ => rfl

theorem Reaches.append {s s' s'' : State} {is js : List Instr} (h : Reaches s is s') (h' : Reaches s' js s'') :
    Reaches s (is ++ js) s'' := by
  intro pc rest
  rw [List.append_assoc, h, h', List.length_append, Nat.add_assoc]

theorem Reaches.run {s s' : State} {is : List Instr} (h : Reaches s is s') (pc : Nat) :
    Machine.run pc s is = .ok s' := by
  have := h pc []
  rw [List.append_nil] at this
  rw [this]
  simp

theorem Reaches.run_stop {s s' : State} {is : List Instr} (h : Reaches s is s') (pc : Nat) :
    Machine.run pc s (is ++ [.stop]) = .ok s' := by
  rw [h]
  simp

/-- An instruction that steps to a state at any place reaches it. -/
theorem Reaches.of_step {s s' : State} {i : Instr} (hi : i ≠ .stop) (h : ∀ pc, step pc s i = .ok s') :
    Reaches s [i] s' := by
  intro pc rest
  show Machine.run pc s (i :: rest) = _
  rw [Machine.run, h]
  · rfl
  · exact hi

/-! ## Single instructions -/

variable (st : Stack) (slots : Slots)

theorem reaches_const (n : Int32) : Reaches ⟨st, slots⟩ [.const n] ⟨n :: st, slots⟩ :=
  .of_step (by simp) fun pc => by simp

theorem reaches_select (c b a : Int32) :
    Reaches ⟨c :: b :: a :: st, slots⟩ [.select] ⟨(if c ≠ 0 then a else b) :: st, slots⟩ :=
  .of_step (by simp) fun pc => by simp

theorem reaches_get {i : UInt32} (h : i.toNat < slots.count) :
    Reaches ⟨st, slots⟩ [.localGet i] ⟨slots.word i.toNat :: st, slots⟩ :=
  .of_step (by simp) fun pc => by simp [Slots.get?_of_lt h]

theorem reaches_set {i : UInt32} (h : i.toNat < slots.count) (v : Int32) :
    Reaches ⟨v :: st, slots⟩ [.localSet i] ⟨st, slots.write i.toNat v⟩ :=
  .of_step (by simp) fun pc => by simp [Slots.set?_of_lt h]

/-- A conditional reaches what the arm that its condition picks reaches. -/
theorem reaches_branch {c : Int32} {yes no : List Instr} {s' : State}
    (h : Reaches ⟨st, slots⟩ (if c ≠ 0 then yes else no) s') :
    Reaches ⟨c :: st, slots⟩ [.branch yes no] s' := by
  refine .of_step (by simp) fun pc => ?_
  simp only [step]
  split at h
  · rename_i hc; rw [if_pos hc]; exact h.run 0
  · rename_i hc; rw [if_neg hc]; exact h.run 0

/-! ## What a run has done -/

theorem run_cons_eq_ok {pc : Nat} {s s' : State} {i : Instr} {is : List Instr} (hi : i ≠ .stop) :
    run pc s (i :: is) = .ok s' ↔
      ∃ s₁, step pc s i = .ok s₁ ∧ run (pc + 1) s₁ is = .ok s' := by
  rw [run, bind_eq_ok]
  exact hi

section Inversion

variable {pc : Nat} {s' : State} {st slots}

theorem step_select_eq_ok (h : step pc ⟨st, slots⟩ .select = .ok s') :
    ∃ c b a below, st = c :: b :: a :: below ∧ s' = ⟨(if c ≠ 0 then a else b) :: below, slots⟩ := by
  simp only [step] at h
  split at h
  · cases h
    exact ⟨_, _, _, _, rfl, rfl⟩
  · cases h

theorem step_branch_eq_ok {yes no : List Instr} (h : step pc ⟨st, slots⟩ (.branch yes no) = .ok s') :
    ∃ c below, st = c :: below ∧ run 0 ⟨below, slots⟩ (if c ≠ 0 then yes else no) = .ok s' := by
  simp only [step] at h
  split at h
  · rename_i c below
    refine ⟨c, below, rfl, ?_⟩
    split at h
    · rename_i hc; rw [if_pos hc]; exact h
    · rename_i hc; rw [if_neg hc]; exact h
  · cases h

theorem step_localGet_eq_ok {i : UInt32} (h : step pc ⟨st, slots⟩ (.localGet i) = .ok s') :
    ∃ v, slots.get? i.toNat = some v ∧ s' = ⟨v :: st, slots⟩ := by
  simp only [step] at h
  split at h
  · rename_i v hv
    cases h
    exact ⟨v, hv, rfl⟩
  · cases h

theorem step_localSet_eq_ok {i : UInt32} (h : step pc ⟨st, slots⟩ (.localSet i) = .ok s') :
    ∃ v below slots', st = v :: below ∧ slots.set? i.toNat v = some slots' ∧ s' = ⟨below, slots'⟩ := by
  simp only [step] at h
  split at h
  · split at h
    · rename_i slots' hs
      cases h
      exact ⟨_, _, slots', rfl, hs, rfl⟩
    · cases h
  · cases h

end Inversion

end Machine

end LetIf
