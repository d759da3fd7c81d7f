/-
Lowered code never looks at what its slots hold at first. A variable is read only inside the body of its
binding, behind the write of its slot: by either strategy the code of the body stands behind that write in
one sequence, so no arm that is left out can keep the write from being executed. By induction on the
lowering, whatever runs over the code of an expression reads only slots that it has written, or that the
environment gives to the variables around it; and around a closed expression there are none.
-/
import LetIf.Proofs.Code.Path
import LetIf.Proofs.Lowering.Correct

namespace LetIf

variable {A : Type}

namespace Lowering

open Machine

variable {s : Strategy} {env : Env UInt32} {next next' : UInt32} {e : Expr A} {is : List Instr}

/-- Lowered code reads slots of the environment and slots that it has written. -/
theorem Lowers.readsWritten (h : Lowers s env next e is next') :
    ∀ {written : UInt32 → Prop}, env.All written → ReadsWritten written is := by
  induction h with
  | lit a v => exact fun _ => .const v.word
  | var a hx => exact fun he => .get (he _ _ hx)
  | select a _ _ _ hy hn hc => exact fun he => (((hy he).append (hn he)).append (hc he)).append .select
  | branch a _ _ _ hc hy hn => exact fun he => (hc he).append (.branch (hy he) (hn he))
  | @bind _ env next _ _ _ x _ _ _ _ _ _ hb hk =>
    intro written he
    have henv : env.All fun i => written i ∨ i = next := fun y i hi => .inl (he y i hi)
    exact (hb he).append (.set (hk (henv.cons (.inr rfl) x)))

end Lowering

/-- Lowered code does not depend on what its slots hold at first. A closed and finished expression, typed
or not, has by either strategy a module whose body puts one and the same word on any stack, whatever is in
its slots; and on the path of such a run every read of a slot comes behind a write of that slot. -/
theorem Expr.run_lower_initialised {e : Expr A} (hv : e.isValued = true) (hf : e.free = [])
    (hb : e.bindings < 2 ^ 32) (target : Target)
    (hs : target.strategy = .select ∨ target.strategy = .branch) :
    ∃ m w, e.lower target = .ok m ∧
      ∀ (st : Machine.Stack) (slots : Slots), slots.count = m.locals.toNat → ∃ slots' path,
        Machine.run 0 ⟨st, slots⟩ m.body = .ok ⟨w :: st, slots'⟩ ∧
        Machine.Runs ⟨st, slots⟩ m.body path ⟨w :: st, slots'⟩ ∧
        ∀ before slot after, path = before ++ .localGet slot :: after → .localSet slot ∈ before := by
  obtain ⟨is, n, h, hn, hm⟩ := Lowering.exists_lowers_of_closed hv hf hb target hs
  have h0 : (0 : UInt32).toNat = 0 := rfl
  have hcomputes : Lowering.Computes [] [] 0 n.toNat e is := h.computes (by rw [hn]; exact hb) (by omega)
  obtain ⟨w, -, hw, -, -⟩ := hcomputes (.zeros n.toNat) (Nat.le_refl _) Env.Rel.nil
  refine ⟨_, w, hm, fun st slots hcount => ?_⟩
  -- the word is that of the expression, which knows no slots
  obtain ⟨w', slots', hw', -, hr⟩ := hcomputes slots (Nat.le_of_eq hcount.symm) Env.Rel.nil
  cases hw.symm.trans hw'
  have hrun := (hr st).run_stop 0
  obtain ⟨path, hpath⟩ := Machine.run_eq_ok.1 hrun
  refine ⟨slots', path, hrun, hpath, fun before slot after hp => ?_⟩
  have hreads : Machine.ReadsWritten (fun _ => False) is := h.readsWritten Env.All.nil
  obtain ⟨path₁, path₂, _, rfl, hinit, hstop⟩ := hreads [.stop] _ _ _ hpath
  cases hstop
  have hend : Machine.Initialised (fun _ => False) [.stop] := .cons nofun .nil
  exact (hinit.append hend before slot after hp).resolve_left id

/-- One name bound in the condition and in both arms; the slots hold other words at first. -/
theorem run_lower_initialised_mixedArms :
    mixedArms.isValued = true ∧ mixedArms.free = [] ∧ mixedArms.bindings < 2 ^ 32 ∧
      ∃ m w, mixedArms.lower ⟨.branch, []⟩ = .ok m ∧ m.locals = 3 ∧
        ∃ slots' path, Machine.run 0 ⟨[4], .ofList [5, 6, 7]⟩ m.body = .ok ⟨[w, 4], slots'⟩ ∧
          Machine.Runs ⟨[4], .ofList [5, 6, 7]⟩ m.body path ⟨[w, 4], slots'⟩ ∧
          ∀ before slot after, path = before ++ .localGet slot :: after → .localSet slot ∈ before := by
  have hb : mixedArms.bindings < 2 ^ 32 := by decide
  obtain ⟨m, w, hm, hruns⟩ := mixedArms.run_lower_initialised rfl rfl hb ⟨.branch, []⟩ (.inr rfl)
  have hlocals : m.locals = 3 := by
    cases hm
    rfl
  exact ⟨rfl, rfl, hb, m, w, hm, hlocals, hruns [4] (.ofList [5, 6, 7]) (by rw [hlocals]; rfl)⟩

end LetIf
