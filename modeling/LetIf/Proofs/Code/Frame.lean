/-
Code that nothing has validated. A run that comes to an end has a path, and an instruction on it takes
only words that the run has found above its base or has put there itself, so on a deeper stack the machine
goes the same path and leaves the words below where they are. A run over instructions that the machine has, on
slots that exist, fails by a lack of operands or not at all, whatever the arms take from outside and wherever a
`stop` stands: what one step preserves is the number of slots, and a run is a sequence of steps.
-/
import LetIf.Proofs.Code.Path
import LetIf.Proofs.Lowering.Slots

namespace LetIf

/-! ## Known instructions -/

namespace Instr

variable {count : Nat}

/-- An instruction that the machine has, on a slot that exists if it is on one. -/
def IsOn (count : Nat) : Instr → Prop
  | .localGet slot | .localSet slot => slot.toNat < count
  | .unknown => False
  | _ => True

/-- All instructions of a sequence, those of its arms included, are known and on slots that exist. -/
def AllOn (count : Nat) (is : List Instr) : Prop := ∀ i ∈ leavesAll is, i.IsOn count

theorem allOn_cons {i : Instr} {is : List Instr} :
    AllOn count (i :: is) ↔ (∀ j ∈ i.leaves, j.IsOn count) ∧ AllOn count is := by
  unfold AllOn
  rw [leavesAll, List.forall_mem_append]

theorem forall_leaves_branch {yes no : List Instr} :
    (∀ j ∈ (Instr.branch yes no).leaves, j.IsOn count) ↔ AllOn count yes ∧ AllOn count no := by
  unfold AllOn
  rw [leaves, List.forall_mem_append]

/-- An instruction without arms is its only leaf. -/
theorem forall_leaves {i : Instr} (hi : i.leaves = [i]) : (∀ j ∈ i.leaves, j.IsOn count) ↔ i.IsOn count := by
  rw [hi, List.forall_mem_singleton]

end Instr

namespace Machine

open Instr

attribute [local simp] step run

/-! ## Deeper stacks -/

/-- The state with more words below those of its stack. -/
def State.onto (s : State) (base : Stack) : State := { s with stack := s.stack ++ base }

/-- A run that ends goes the same path on a deeper stack. -/
theorem Runs.onto {s s' : State} {is path : List Instr} (h : Runs s is path s') (base : Stack) :
    Runs (s.onto base) is path (s'.onto base) := by
  induction h with
  | nil s => exact .nil _
  | const n _ ih => exact .const n ih
  | select _ ih => exact .select ih
  | branch _ _ iharm ih => exact .branch iharm ih
  | localGet hv _ ih => exact .localGet hv ih
  | localSet hv _ ih => exact .localSet hv ih
  | stop s is => exact .stop _ is

theorem run_onto {pc : Nat} {s s' : State} {is : List Instr} (h : run pc s is = .ok s') (base : Stack) :
    run pc (s.onto base) is = .ok (s'.onto base) := by
  rw [run_eq_ok] at h ⊢
  obtain ⟨path, h⟩ := h
  exact ⟨path, h.onto base⟩

/-! ## Lack of operands -/

/-- The run has stopped at an instruction that takes more words than the stack holds. -/
inductive Lacks : Stuck → Prop
  | select {pc : Nat} {s : State} (h : s.stack.length < 3) : Lacks ⟨.selectUnderflow pc, s⟩
  | branch {pc : Nat} {s : State} (h : s.stack = []) : Lacks ⟨.branchUnderflow pc, s⟩
  | localSet {pc : Nat} {s : State} (h : s.stack = []) : Lacks ⟨.setUnderflow pc, s⟩

theorem Lacks.failure {stuck : Stuck} (h : Lacks stuck) :
    ∃ operation pc, stuck.trap.failure = .error (.underflow operation pc) := by
  cases h with
  | select _ => exact ⟨_, _, rfl⟩
  | branch _ => exact ⟨_, _, rfl⟩
  | localSet _ => exact ⟨_, _, rfl⟩

/-- A run that keeps the number of slots, or ends early by a lack of operands. -/
inductive Safe (count : Nat) : Except Stuck State → Prop
  | ok {s : State} (h : s.slots.count = count) : Safe count (.ok s)
  | error {stuck : Stuck} (h : Lacks stuck) : Safe count (.error stuck)

theorem Safe.bind {count : Nat} {x : Except Stuck State} {f : State → Except Stuck State} (h : Safe count x)
    (hf : ∀ s : State, s.slots.count = count → Safe count (f s)) : Safe count (x >>= f) := by
  cases h with
  | ok hs => exact hf _ hs
  | error hl => exact .error hl

mutual

theorem step_safe : ∀ {i : Instr} {pc : Nat} {s : State}, (∀ j ∈ i.leaves, j.IsOn s.slots.count) →
    Safe s.slots.count (step pc s i)
  | .const n, pc, s, _ => by
    simp only [step]
    exact .ok rfl
  | .select, pc, ⟨st, slots⟩, _ => by
    rcases st with _ | ⟨c, _ | ⟨b, _ | ⟨a, below⟩⟩⟩
    · exact .error (.select (by simp))
    · exact .error (.select (by simp))
    · exact .error (.select (by simp))
    · exact .ok rfl
  | .branch yes no, pc, ⟨st, slots⟩, h => by
    obtain ⟨hyes, hno⟩ := forall_leaves_branch.1 h
    rcases st with _ | ⟨c, below⟩
    · exact .error (.branch rfl)
    · simp only [step]
      split
      · exact run_safe (s := ⟨below, slots⟩) hyes
      · exact run_safe (s := ⟨below, slots⟩) hno
  | .localGet i, pc, ⟨st, slots⟩, h => by
    have hi : i.toNat < slots.count := (forall_leaves rfl).1 h
    simp only [step, Slots.get?_of_lt hi]
    exact .ok rfl
  | .localSet i, pc, ⟨st, slots⟩, h => by
    have hi : i.toNat < slots.count := (forall_leaves rfl).1 h
    rcases st with _ | ⟨v, below⟩
    · exact .error (.localSet rfl)
    · simp only [step, Slots.set?_of_lt hi]
      exact .ok (Slots.write_count _ _ _)
  | .stop, pc, s, _ => by
    simp only [step]
    exact .ok rfl
  | .unknown, pc, s, h => ((forall_leaves rfl).1 h).elim

theorem run_safe : ∀ {is : List Instr} {pc : Nat} {s : State}, AllOn s.slots.count is →
    Safe s.slots.count (run pc s is)
  | [], pc, s, _ => by
    simp only [run]
    exact .ok rfl
  | i :: is, pc, s, h => by
    obtain ⟨hi, his⟩ := allOn_cons.1 h
    by_cases hstop : i = .stop
    · -- what stands behind it does not run
      subst hstop
      simp only [run]
      exact .ok rfl
    · rw [run]
      · apply (step_safe hi).bind
        intro s' hs
        rw [← hs] at his ⊢
        exact run_safe his
      · exact hstop

end

/-- The machine on code that nothing has validated. A run that ends leaves a stack and slots; on the same
stack with more words below it, it goes the same path and leaves the same slots, and the same stack above these words.
A run over known instructions on slots that exist ends, with as many slots as before, or it stops at an instruction
for which the stack holds too few words, and this is an error of the program and no defect. -/
theorem run_frame_safe :
    (∀ {is : List Instr} {pc : Nat} {st st' : Stack} {slots slots' : Slots},
      run pc ⟨st, slots⟩ is = .ok ⟨st', slots'⟩ → ∀ base : Stack,
        run pc ⟨st ++ base, slots⟩ is = .ok ⟨st' ++ base, slots'⟩ ∧
          ∃ path, Runs ⟨st, slots⟩ is path ⟨st', slots'⟩ ∧
            Runs ⟨st ++ base, slots⟩ is path ⟨st' ++ base, slots'⟩) ∧
    ∀ {is : List Instr} {slots : Slots}, AllOn slots.count is → ∀ (pc : Nat) (st : Stack),
      (∃ st' slots', run pc ⟨st, slots⟩ is = .ok ⟨st', slots'⟩ ∧ slots'.count = slots.count) ∨
      ∃ stuck operation place, run pc ⟨st, slots⟩ is = .error stuck ∧ Lacks stuck ∧
        stuck.trap.failure = .error (.underflow operation place) := by
  constructor
  · intro is pc st st' slots slots' h base
    refine ⟨run_onto h base, ?_⟩
    obtain ⟨path, hpath⟩ := run_eq_ok.1 h
    exact ⟨path, hpath, hpath.onto base⟩
  · intro is slots h pc st
    have hsafe : Safe slots.count (run pc ⟨st, slots⟩ is) := run_safe (s := ⟨st, slots⟩) h
    generalize hrun : run pc ⟨st, slots⟩ is = result at hsafe
    cases hsafe with
    | @ok s hs => exact .inl ⟨s.stack, s.slots, rfl, hs⟩
    | @error stuck hl =>
      obtain ⟨operation, place, hf⟩ := hl.failure
      exact .inr ⟨stuck, operation, place, rfl, hl, hf⟩

/-- Code that no validation accepts: an arm takes three words from outside it, leaves none, and ends early. -/
def greedyArm : List Instr := [.const 1, .branch [.select, .localSet 0, .stop, .select] [], .localGet 0]

theorem run_frame_safe_greedyArm :
    run 0 ⟨[0, 8, 9], .ofList [5]⟩ greedyArm = .ok ⟨[8], (Slots.ofList [5]).write 0 8⟩ ∧
      run 0 ⟨[0, 8, 9, 6], .ofList [5]⟩ greedyArm = .ok ⟨[8, 6], (Slots.ofList [5]).write 0 8⟩ ∧
      AllOn (Slots.ofList [5]).count greedyArm ∧
      ((∃ st' slots', run 0 ⟨[0, 8], .ofList [5]⟩ greedyArm = .ok ⟨st', slots'⟩ ∧ slots'.count = 1) ∨
        ∃ stuck operation place, run 0 ⟨[0, 8], .ofList [5]⟩ greedyArm = .error stuck ∧ Lacks stuck ∧
          stuck.trap.failure = .error (.underflow operation place)) := by
  have hrun : run 0 ⟨[0, 8, 9], .ofList [5]⟩ greedyArm = .ok ⟨[8], (Slots.ofList [5]).write 0 8⟩ := rfl
  have hknown : AllOn (Slots.ofList [5]).count greedyArm := by
    simp [AllOn, greedyArm, leavesAll, leaves, IsOn, Slots.ofList]
  exact ⟨hrun, (run_frame_safe.1 hrun [6]).1, hknown, run_frame_safe.2 hknown 0 [0, 8]⟩

end Machine

end LetIf
