/-
The comparison of modules decides equality: instructions are the same when their trees are.
-/
import LetIf.Code.Instr

namespace LetIf

namespace Instr

attribute [local simp] same sameAll

mutual

theorem same_refl : ∀ i : Instr, same i i = true
  | .const _ | .select | .localGet _ | .localSet _ | .stop | .unknown => by simp
  | .branch yes no => by simp [sameAll_refl yes, sameAll_refl no]

theorem sameAll_refl : ∀ is : List Instr, sameAll is is = true
  | [] => by simp
  | i :: is => by simp [same_refl i, sameAll_refl is]

end

mutual

theorem eq_of_same : ∀ {i j : Instr}, same i j = true → i = j
  | .const _, j, h => by cases j <;> simp_all
  | .select, j, h => by cases j <;> simp_all
  | .branch yes no, j, h => by
    cases j with
    | branch yes' no' =>
      rw [same, Bool.and_eq_true] at h
      rw [eq_of_sameAll h.1, eq_of_sameAll h.2]
    | const _ | select | localGet _ | localSet _ | stop | unknown => simp at h
  | .localGet _, j, h => by cases j <;> simp_all
  | .localSet _, j, h => by cases j <;> simp_all
  | .stop, j, h => by cases j <;> simp_all
  | .unknown, j, h => by cases j <;> simp_all

theorem eq_of_sameAll : ∀ {is js : List Instr}, sameAll is js = true → is = js
  | [], [], _ => rfl
  | [], _ :: _, h => by simp at h
  | _ :: _, [], h => by simp at h
  | i :: is, j :: js, h => by
    rw [sameAll, Bool.and_eq_true] at h
    rw [eq_of_same h.1, eq_of_sameAll h.2]

end

end Instr

theorem Module.same_refl (m : Module) : m.same m = true := by
  unfold Module.same
  rw [beq_self_eq_true, beq_self_eq_true, Instr.sameAll_refl]
  rfl

theorem Module.eq_of_same {m n : Module} (h : m.same n = true) : m = n := by
  rw [Module.same, Bool.and_eq_true, Bool.and_eq_true, beq_iff_eq, beq_iff_eq] at h
  obtain ⟨⟨hname, hlocals⟩, hbody⟩ := h
  cases m
  cases n
  cases hname
  cases hlocals
  cases Instr.eq_of_sameAll hbody
  rfl

end LetIf
