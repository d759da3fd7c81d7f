/-
Runs with what they execute. `Runs s is path s'` says that the machine takes `s` to `s'` over the
sequence `is` and executes the instructions `path` on the way, in this order; those of an arm stand
behind its branch, and an arm that is not taken leaves no trace. The runs that come to an end are
exactly those with a path, and a run has one path only.
-/
import LetIf.Proofs.Code.Run

namespace LetIf.Machine

/-- The machine goes from one state to another over a sequence, executing the instructions of the
path. -/
inductive Runs : State → List Instr → List Instr → State → Prop
  | nil (s : State) : Runs s [] [] s
  | const {st : Stack} {slots : Slots} {is path : List Instr} {s' : State} (n : Int32)
      (h : Runs ⟨n :: st, slots⟩ is path s') : Runs ⟨st, slots⟩ (.const n :: is) (.const n :: path) s'
  | select {c b a : Int32} {st : Stack} {slots : Slots} {is path : List Instr} {s' : State}
      (h : Runs ⟨(if c ≠ 0 then a else b) :: st, slots⟩ is path s') :
      Runs ⟨c :: b :: a :: st, slots⟩ (.select :: is) (.select :: path) s'
  | branch {c : Int32} {st : Stack} {slots : Slots} {yes no is path path' : List Instr} {s₁ s' : State}
      (harm : Runs ⟨st, slots⟩ (if c ≠ 0 then yes else no) path s₁) (h : Runs s₁ is path' s') :
      Runs ⟨c :: st, slots⟩ (.branch yes no :: is) (.branch yes no :: path ++ path') s'
  | localGet {st : Stack} {slots : Slots} {i : UInt32} {v : Int32} {is path : List Instr} {s' : State}
      (hv : slots.get? i.toNat = some v) (h : Runs ⟨v :: st, slots⟩ is path s') :
      Runs ⟨st, slots⟩ (.localGet i :: is) (.localGet i :: path) s'
  | localSet {st : Stack} {slots slots' : Slots} {i : UInt32} {v : Int32} {is path : List Instr} {s' : State}
      (hv : slots.set? i.toNat v = some slots') (h : Runs ⟨st, slots'⟩ is path s') :
      Runs ⟨v :: st, slots⟩ (.localSet i :: is) (.localSet i :: path) s'
  | stop (s : State) (is : List Instr) : Runs s (.stop :: is) [.stop] s

attribute [local simp] step run

/-! ## Runs with a path are the runs that end -/

theorem Runs.run {s s' : State} {is path : List Instr} (h : Runs s is path s') :
    ∀ pc, Machine.run pc s is = .ok s' := by
  induction h with
  | nil s => intro pc; simp
  | const n _ ih => exact fun pc => (run_cons_eq_ok (by simp)).2 ⟨_, by simp, ih _⟩
  | select _ ih => exact fun pc => (run_cons_eq_ok (by simp)).2 ⟨_, by simp, ih _⟩
  | @branch c _ _ _ _ _ _ _ _ _ _ _ iharm ih =>
    intro pc
    refine (run_cons_eq_ok (by simp)).2 ⟨_, ?_, ih _⟩
    have harm := iharm 0
    simp only [step]
    split at harm
    · rename_i hc; rw [if_pos hc]; exact harm
    · rename_i hc; rw [if_neg hc]; exact harm
  | localGet hv _ ih => exact fun pc => (run_cons_eq_ok (by simp)).2 ⟨_, by simp [hv], ih _⟩
  | localSet hv _ ih => exact fun pc => (run_cons_eq_ok (by simp)).2 ⟨_, by simp [hv], ih _⟩
  | stop s is => intro pc; simp

theorem exists_runs : ∀ {is : List Instr} {pc : Nat} {s s' : State}, run pc s is = .ok s' →
    ∃ path, Runs s is path s'
  | [], pc, s, s', h => by
    simp only [run] at h
    cases h
    exact ⟨[], .nil s⟩
  | .const n :: is, pc, ⟨st, slots⟩, s', h => by
    obtain ⟨s₁, hs, hrest⟩ := (run_cons_eq_ok (by simp)).1 h
    simp only [step] at hs
    cases hs
    obtain ⟨path, hp⟩ := exists_runs hrest
    exact ⟨_, .const n hp⟩
  | .select :: is, pc, ⟨st, slots⟩, s', h => by
    obtain ⟨s₁, hs, hrest⟩ := (run_cons_eq_ok (by simp)).1 h
    obtain ⟨c, b, a, below, rfl, rfl⟩ := step_select_eq_ok hs
    obtain ⟨path, hp⟩ := exists_runs hrest
    exact ⟨_, .select hp⟩
  | .branch yes no :: is, pc, ⟨st, slots⟩, s', h => by
    obtain ⟨s₁, hs, hrest⟩ := (run_cons_eq_ok (by simp)).1 h
    obtain ⟨c, below, rfl, harm⟩ := step_branch_eq_ok hs
    have hpath : ∃ path, Runs ⟨below, slots⟩ (if c ≠ 0 then yes else no) path s₁ := by
      split at harm
      · rename_i hc; rw [if_pos hc]; exact exists_runs harm
      · rename_i hc; rw [if_neg hc]; exact exists_runs harm
    obtain ⟨path, hpath⟩ := hpath
    obtain ⟨path', hp⟩ := exists_runs hrest
    exact ⟨_, .branch hpath hp⟩
  | .localGet i :: is, pc, ⟨st, slots⟩, s', h => by
    obtain ⟨s₁, hs, hrest⟩ := (run_cons_eq_ok (by simp)).1 h
    obtain ⟨v, hv, rfl⟩ := step_localGet_eq_ok hs
    obtain ⟨path, hp⟩ := exists_runs hrest
    exact ⟨_, .localGet hv hp⟩
  | .localSet i :: is, pc, ⟨st, slots⟩, s', h => by
    obtain ⟨s₁, hs, hrest⟩ := (run_cons_eq_ok (by simp)).1 h
    obtain ⟨v, below, slots', rfl, hv, rfl⟩ := step_localSet_eq_ok hs
    obtain ⟨path, hp⟩ := exists_runs hrest
    exact ⟨_, .localSet hv hp⟩
  | .stop :: is, pc, s, s', h => by
    simp only [run] at h
    cases h
    exact ⟨_, .stop s is⟩
  | .unknown :: is, pc, s, s', h => by
    obtain ⟨s₁, hs, -⟩ := (run_cons_eq_ok (by simp)).1 h
    simp only [step] at hs
    cases hs

/-- A run comes to an end exactly when it has a path. -/
theorem run_eq_ok {pc : Nat} {s s' : State} {is : List Instr} :
    run pc s is = .ok s' ↔ ∃ path, Runs s is path s' :=
  ⟨exists_runs, fun ⟨_, h⟩ => h.run pc⟩

/-- A run goes one way. -/
theorem Runs.unique {s s' s'' : State} {is path path' : List Instr} (h : Runs s is path s')
    (h' : Runs s is path' s'') : path = path' ∧ s' = s'' := by
  induction h generalizing path' s'' with
  | nil s => cases h'; exact ⟨rfl, rfl⟩
  | const n _ ih =>
    cases h' with
    | const _ h' =>
      obtain ⟨rfl, rfl⟩ := ih h'
      exact ⟨rfl, rfl⟩
  | select _ ih =>
    cases h' with
    | select h' =>
      obtain ⟨rfl, rfl⟩ := ih h'
      exact ⟨rfl, rfl⟩
  | branch _ _ iharm ih =>
    cases h' with
    | branch harm h' =>
      obtain ⟨rfl, rfl⟩ := iharm harm
      obtain ⟨rfl, rfl⟩ := ih h'
      exact ⟨rfl, rfl⟩
  | localGet hv _ ih =>
    cases h' with
    | localGet hv' h' =>
      cases hv.symm.trans hv'
      obtain ⟨rfl, rfl⟩ := ih h'
      exact ⟨rfl, rfl⟩
  | localSet hv _ ih =>
    cases h' with
    | localSet hv' h' =>
      cases hv.symm.trans hv'
      obtain ⟨rfl, rfl⟩ := ih h'
      exact ⟨rfl, rfl⟩
  | stop s is => cases h'; exact ⟨rfl, rfl⟩

/-! ## Reads and writes -/

/-- Every read of a slot comes behind a write of it, unless the slot is one of `written`. -/
def Initialised (written : UInt32 → Prop) (path : List Instr) : Prop :=
  ∀ before slot after, path = before ++ .localGet slot :: after → written slot ∨ .localSet slot ∈ before

namespace Initialised

variable {written written' : UInt32 → Prop} {path path' : List Instr} {i : Instr}

theorem nil : Initialised written [] := fun _ _ _ h => absurd h.symm (by simp)

theorem mono (h : Initialised written path) (hw : ∀ slot, written slot → written' slot) :
    Initialised written' path :=
  fun before slot after hp => (h before slot after hp).imp_left (hw slot)

/-- The rest of a path may read what its first instruction writes. -/
theorem cons (hi : ∀ slot, i = .localGet slot → written slot)
    (h : Initialised (fun slot => written slot ∨ i = .localSet slot) path) : Initialised written (i :: path) := by
  intro before slot after hp
  cases before with
  | nil =>
    cases hp
    exact .inl (hi slot rfl)
  | cons j before =>
    cases hp
    rcases h before slot after rfl with (hw | rfl) | hset
    · exact .inl hw
    · exact .inr List.mem_cons_self
    · exact .inr (List.mem_cons_of_mem _ hset)

theorem append (h : Initialised written path) (h' : Initialised written path') :
    Initialised written (path ++ path') := by
  intro before slot after hp
  rcases List.append_eq_append_iff.1 hp with ⟨mid, rfl, hp'⟩ | ⟨mid, rfl, hp'⟩
  · exact (h' mid slot after hp').imp_right fun hset => List.mem_append_right _ hset
  · cases mid with
    | nil => exact (h' [] slot after hp'.symm).imp_right nofun
    | cons j mid =>
      cases hp'
      exact h before slot mid rfl

end Initialised

/-- Whatever runs over the sequence, and on behind it, reads in the sequence only slots that it has written
before, or that are among `written`. -/
def ReadsWritten (written : UInt32 → Prop) (is : List Instr) : Prop :=
  ∀ rest s path s', Runs s (is ++ rest) path s' →
    ∃ path₁ path₂ s₁, path = path₁ ++ path₂ ∧ Initialised written path₁ ∧ Runs s₁ rest path₂ s'

namespace ReadsWritten

variable {written : UInt32 → Prop} {is js yes no : List Instr} {slot : UInt32}

theorem const (n : Int32) : ReadsWritten written [.const n] := by
  intro rest s path s' h
  cases h with
  | const _ h => exact ⟨[.const n], _, _, rfl, .cons nofun .nil, h⟩

theorem select : ReadsWritten written [.select] := by
  intro rest s path s' h
  cases h with
  | select h => exact ⟨[.select], _, _, rfl, .cons nofun .nil, h⟩

theorem get (hw : written slot) : ReadsWritten written [.localGet slot] := by
  intro rest s path s' h
  cases h with
  | localGet _ h => exact ⟨[.localGet slot], _, _, rfl, .cons (fun _ hi => by cases hi; exact hw) .nil, h⟩

theorem append (h : ReadsWritten written is) (h' : ReadsWritten written js) :
    ReadsWritten written (is ++ js) := by
  intro rest s path s' hr
  rw [List.append_assoc] at hr
  obtain ⟨p₁, p₂, s₁, rfl, h₁, hr⟩ := h _ s path s' hr
  obtain ⟨p₂, p₃, s₂, rfl, h₂, hr⟩ := h' rest s₁ p₂ s' hr
  exact ⟨p₁ ++ p₂, p₃, s₂, (List.append_assoc ..).symm, h₁.append h₂, hr⟩

theorem branch (hy : ReadsWritten written yes) (hn : ReadsWritten written no) :
    ReadsWritten written [.branch yes no] := by
  intro rest s path s' hr
  cases hr with
  | @branch c st slots _ _ _ arm later s₁ _ harm hr =>
    have hread : Initialised written arm := by
      -- an arm that is taken runs to its own end
      have of_arm : ∀ {is}, ReadsWritten written is → Runs ⟨st, slots⟩ is arm s₁ → Initialised written arm := by
        intro is h harm
        rw [← List.append_nil is] at harm
        obtain ⟨p₁, p₂, _, rfl, h₁, hnil⟩ := h [] _ _ _ harm
        cases hnil
        rw [List.append_nil]
        exact h₁
      split at harm
      · exact of_arm hy harm
      · exact of_arm hn harm
    exact ⟨.branch yes no :: arm, later, s₁, rfl, .cons nofun (hread.mono fun _ => .inl), hr⟩

/-- What stands behind a write of a slot may read it. -/
theorem set (h : ReadsWritten (fun i => written i ∨ i = slot) is) :
    ReadsWritten written (.localSet slot :: is) := by
  intro rest s path s' hr
  cases hr with
  | localSet _ hr =>
    obtain ⟨p₁, p₂, s₁, rfl, h₁, hr⟩ := h rest _ _ s' hr
    refine ⟨.localSet slot :: p₁, p₂, s₁, rfl, .cons nofun (h₁.mono fun i hi => ?_), hr⟩
    exact hi.imp_right fun h => by rw [h]

end ReadsWritten

end LetIf.Machine
