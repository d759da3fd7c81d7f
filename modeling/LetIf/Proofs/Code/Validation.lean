/-
Validation is sound. The validator follows only the depth of the stack, and each arm of a
conditional from depth zero; the machine runs arms on the stack as it is. When a sequence has depth
`d`, its run on any stack and any slots of the validated number ends with `d` words on top of the
stack it began with, and neither these words nor the slots depend on what lies below. So a module
that passes validation always yields a word.
-/
import LetIf.Proofs.Code.Run
import LetIf.Proofs.Except

namespace LetIf

attribute [local simp] Code.depthAfter Code.depthFrom

namespace Code

variable {locals : UInt32} {pc d d' : Nat}

/-! ## What the validator accepts -/

theorem depthAfter_select_eq_ok : depthAfter locals pc d .select = .ok d' ↔ 3 ≤ d ∧ d' = d - 2 := by
  rw [depthAfter, ite_error_eq_ok, Except.ok.injEq, Nat.not_lt, eq_comm]

/-- Each arm is validated by itself and leaves one word. -/
theorem depthAfter_branch_eq_ok {yes no : List Instr} :
    depthAfter locals pc d (.branch yes no) = .ok d' ↔
      1 ≤ d ∧ depth locals yes = .ok 1 ∧ depth locals no = .ok 1 ∧ d' = d := by
  simp only [depthAfter, ite_error_eq_ok, bind_eq_ok, ite_throw_eq_ok, pure_eq_ok, ne_eq,
    Decidable.not_not, Nat.not_lt]
  constructor
  · rintro ⟨hd, _, hy, rfl, _, hn, rfl, rfl⟩; exact ⟨hd, hy, hn, rfl⟩
  · rintro ⟨hd, hy, hn, rfl⟩; exact ⟨hd, 1, hy, rfl, 1, hn, rfl, rfl⟩

theorem depthAfter_get_eq_ok {i : UInt32} :
    depthAfter locals pc d (.localGet i) = .ok d' ↔ i < locals ∧ d' = d + 1 := by
  rw [depthAfter, ite_error_eq_ok, Except.ok.injEq, UInt32.not_le, eq_comm]

theorem depthAfter_set_eq_ok {i : UInt32} :
    depthAfter locals pc d (.localSet i) = .ok d' ↔ i < locals ∧ 1 ≤ d ∧ d' = d - 1 := by
  rw [depthAfter, ite_error_eq_ok, ite_error_eq_ok, Except.ok.injEq, UInt32.not_le, Nat.not_lt, eq_comm]

theorem depthFrom_cons_eq_ok {i : Instr} {rest : List Instr} :
    depthFrom locals pc d (i :: rest) = .ok d' ↔
      ∃ d₁, depthAfter locals pc d i = .ok d₁ ∧ depthFrom locals (pc + 1) d₁ rest = .ok d' := by
  rw [depthFrom, bind_eq_ok]

theorem depthFrom_singleton_eq_ok {i : Instr} :
    depthFrom locals pc d [i] = .ok d' ↔ depthAfter locals pc d i = .ok d' := by
  rw [depthFrom_cons_eq_ok]
  constructor
  · rintro ⟨d₁, h, h'⟩; simp only [depthFrom] at h'; cases h'; exact h
  · intro h; exact ⟨d', h, by simp⟩

theorem depthFrom_append_eq_ok {js : List Instr} : ∀ {is : List Instr} {pc d : Nat},
    depthFrom locals pc d (is ++ js) = .ok d' ↔
      ∃ d₁, depthFrom locals pc d is = .ok d₁ ∧ depthFrom locals (pc + is.length) d₁ js = .ok d'
  | [], pc, d => by
    constructor
    · intro h; exact ⟨d, by simp, h⟩
    · rintro ⟨d₁, h, h'⟩; simp only [depthFrom] at h; cases h; exact h'
  | i :: is, pc, d => by
    rw [List.cons_append, depthFrom_cons_eq_ok, List.length_cons, Nat.add_comm is.length, ← Nat.add_assoc]
    constructor
    · rintro ⟨d₁, hi, h⟩
      obtain ⟨d₂, his, hjs⟩ := depthFrom_append_eq_ok.1 h
      exact ⟨d₂, depthFrom_cons_eq_ok.2 ⟨d₁, hi, his⟩, hjs⟩
    · rintro ⟨d₂, h, hjs⟩
      obtain ⟨d₁, hi, his⟩ := depthFrom_cons_eq_ok.1 h
      exact ⟨d₁, hi, depthFrom_append_eq_ok.2 ⟨d₂, his, hjs⟩⟩

end Code

/-- A module is valid when it has a name and its body is a sequence of depth one, closed by
`stop`. -/
theorem Module.validate_eq_ok {m : Module} : m.validate = .ok () ↔
    m.name ≠ [] ∧ ∃ is, m.body = is ++ [.stop] ∧ Code.depth m.locals is = .ok 1 := by
  rw [Module.validate, ite_error_eq_ok, List.isEmpty_iff]
  refine and_congr_right fun _ => ?_
  constructor
  · intro h
    split at h
    · cases h
    · rename_i hs
      obtain ⟨is, his⟩ := List.getLast?_eq_some_iff.1 hs
      rw [his, List.dropLast_concat] at h
      obtain ⟨d, hd, h⟩ := bind_eq_ok.1 h
      obtain ⟨h1, -⟩ := ite_error_eq_ok.1 h
      rw [Decidable.not_not] at h1
      exact ⟨is, his, by rw [hd, h1]⟩
    · cases h
  · rintro ⟨is, his, hd⟩
    rw [his, List.getLast?_concat, List.dropLast_concat]
    simp only
    rw [hd]
    rfl

/-! ## One run of a validated sequence -/

namespace Machine

open Code

/-- With `top` on any stack, the sequence `is` puts `d` words in the place of `top` and keeps the
number of slots; the words and the slots are the same on every stack. -/
def Leaves (top : Stack) (slots : Slots) (is : List Instr) (d : Nat) : Prop :=
  ∃ top' slots', top'.length = d ∧ slots'.count = slots.count ∧
    ∀ st, Reaches ⟨top ++ st, slots⟩ is ⟨top' ++ st, slots'⟩

theorem leaves_branch {c : Int32} {top : Stack} {slots : Slots} {yes no : List Instr}
    (hy : Leaves [] slots yes 1) (hn : Leaves [] slots no 1) :
    Leaves (c :: top) slots [.branch yes no] (top.length + 1) := by
  obtain ⟨w, slots', hw, hc, h⟩ : Leaves [] slots (if c ≠ 0 then yes else no) 1 := by
    split
    · exact hy
    · exact hn
  refine ⟨w ++ top, slots', ?_, hc, fun st => ?_⟩
  · rw [List.length_append, hw, Nat.add_comm]
  · -- the arm finds the rest of `top` and the stack below it where it started from nothing
    have := reaches_branch (top ++ st) slots (h (top ++ st))
    rw [← List.append_assoc] at this
    exact this

mutual

theorem leaves_of_depthAfter {locals : UInt32} {slots : Slots} (hs : slots.count = locals.toNat) :
    ∀ {i : Instr} {pc d : Nat} {top : Stack}, depthAfter locals pc top.length i = .ok d →
      Leaves top slots [i] d
  | .const n, pc, d, top, h => by
    simp only [depthAfter] at h
    cases h
    exact ⟨n :: top, slots, rfl, rfl, fun st => reaches_const (top ++ st) slots n⟩
  | .select, pc, d, top, h => by
    obtain ⟨hd, rfl⟩ := depthAfter_select_eq_ok.1 h
    match top, hd with
    | c :: b :: a :: top, _ =>
      exact ⟨_ :: top, slots, rfl, rfl, fun st => reaches_select (top ++ st) slots c b a⟩
  | .branch yes no, pc, d, top, h => by
    obtain ⟨hd, hy, hn, rfl⟩ := depthAfter_branch_eq_ok.1 h
    match top, hd with
    | c :: top, _ =>
      exact leaves_branch (leaves_of_depthFrom hs hy) (leaves_of_depthFrom hs hn)
  | .localGet i, pc, d, top, h => by
    obtain ⟨hi, rfl⟩ := depthAfter_get_eq_ok.1 h
    have hi : i.toNat < slots.count := by rw [hs]; exact UInt32.lt_iff_toNat_lt.1 hi
    exact ⟨_ :: top, slots, rfl, rfl, fun st => reaches_get (top ++ st) slots hi⟩
  | .localSet i, pc, d, top, h => by
    obtain ⟨hi, hd, rfl⟩ := depthAfter_set_eq_ok.1 h
    have hi : i.toNat < slots.count := by rw [hs]; exact UInt32.lt_iff_toNat_lt.1 hi
    match top, hd with
    | v :: top, _ =>
      exact ⟨top, slots.write i.toNat v, rfl, rfl, fun st => reaches_set (top ++ st) slots hi v⟩
  | .stop, _, _, _, h => by simp at h
  | .unknown, _, _, _, h => by simp at h

theorem leaves_of_depthFrom {locals : UInt32} {slots : Slots} (hs : slots.count = locals.toNat) :
    ∀ {is : List Instr} {pc d : Nat} {top : Stack}, depthFrom locals pc top.length is = .ok d →
      Leaves top slots is d
  | [], pc, d, top, h => by
    simp only [depthFrom] at h
    cases h
    exact ⟨top, slots, rfl, rfl, fun st => .nil _⟩
  | i :: is, pc, d, top, h => by
    obtain ⟨d₁, hi, his⟩ := depthFrom_cons_eq_ok.1 h
    obtain ⟨top₁, slots₁, rfl, hc₁, h₁⟩ := leaves_of_depthAfter hs hi
    obtain ⟨top₂, slots₂, hd, hc₂, h₂⟩ := leaves_of_depthFrom (hc₁.trans hs) his
    exact ⟨top₂, slots₂, hd, hc₂.trans hc₁, fun st => (h₁ st).append (h₂ st)⟩

end

theorem leaves_of_depth {locals : UInt32} {slots : Slots} {is : List Instr} {d : Nat}
    (h : depth locals is = .ok d) (hs : slots.count = locals.toNat) : Leaves [] slots is d :=
  leaves_of_depthFrom hs h

end Machine

/-! ## Validated modules -/

theorem Module.execute_of_run {m : Module} (h : m.validate = .ok ()) {w : Int32} {slots : Slots}
    (hr : Machine.run 0 ⟨[], .zeros m.locals.toNat⟩ m.body = .ok ⟨[w], slots⟩) : m.execute = .ok w := by
  rw [Module.execute, h]
  simp only
  rw [hr]

theorem Module.run_of_validate {m : Module} (h : m.validate = .ok ()) :
    ∃ w slots, Machine.run 0 ⟨[], .zeros m.locals.toNat⟩ m.body = .ok ⟨[w], slots⟩ := by
  obtain ⟨-, is, hb, hd⟩ := Module.validate_eq_ok.1 h
  have hs : (Slots.zeros m.locals.toNat).count = m.locals.toNat := rfl
  obtain ⟨top, slots, ht, -, hr⟩ := Machine.leaves_of_depth hd hs
  match top, ht with
  | [w], _ => exact ⟨w, slots, by rw [hb]; exact (hr []).run_stop 0⟩

/-- Soundness of validation. A sequence of depth `d` runs to its end on every stack and on all slots
of the validated number; it leaves the stack as it is with `d` words on top, and these words and the
slots at the end are the same whatever the stack. A valid module runs to its end with one word on the
stack, which its execution yields. -/
theorem validation_sound :
    (∀ (locals : UInt32) (is : List Instr) (d : Nat), Code.depth locals is = .ok d →
      ∀ slots : Slots, slots.count = locals.toNat →
        ∃ (top : Machine.Stack) (slots' : Slots), top.length = d ∧ slots'.count = locals.toNat ∧
          ∀ st : Machine.Stack, Machine.run 0 ⟨st, slots⟩ is = .ok ⟨top ++ st, slots'⟩) ∧
    ∀ m : Module, m.validate = .ok () → ∃ w slots,
      Machine.run 0 ⟨[], .zeros m.locals.toNat⟩ m.body = .ok ⟨[w], slots⟩ ∧ m.execute = .ok w := by
  constructor
  · intro locals is d h slots hs
    obtain ⟨top, slots', ht, hc, hr⟩ := Machine.leaves_of_depth h hs
    exact ⟨top, slots', ht, hc.trans hs, fun st => (hr st).run 0⟩
  · intro m h
    obtain ⟨w, slots, hr⟩ := Module.run_of_validate h
    exact ⟨w, slots, hr, Module.execute_of_run h hr⟩

/-- A module in which an arm reads the slot that was set before it, and another is never run. -/
def nestedArms : Module where
  name := "main"
  locals := 1
  body := [.const 5, .localSet 0, .const 1, .branch [.const 0, .branch [.const 1] [.localGet 0]] [.const 3],
    .stop]

theorem validation_sound_nestedArms :
    Code.depth 1 nestedArms.body.dropLast = .ok 1 ∧ nestedArms.validate = .ok () ∧
      (∃ (top : Machine.Stack) (slots : Slots), top.length = 1 ∧ slots.count = 1 ∧
        ∀ st, Machine.run 0 ⟨st, .ofList [7]⟩ nestedArms.body.dropLast = .ok ⟨top ++ st, slots⟩) ∧
      ∃ w, nestedArms.execute = .ok w := by
  refine ⟨rfl, rfl, validation_sound.1 1 _ 1 rfl (.ofList [7]) rfl, ?_⟩
  obtain ⟨w, -, -, h⟩ := validation_sound.2 nestedArms rfl
  exact ⟨w, h⟩

end LetIf
