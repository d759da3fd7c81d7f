/-
Code of the stack machine as WebAssembly. `Codes is ops` says that `ops` are the instructions `is` as
WebAssembly has them. The written form of `is` is in the binary format as such `ops`; where validation counts
words, they have a type over as many numbers; and they run as the machine runs `is`. The induction is on
`Codes`, in which both arms of a conditional are sequences of their own.
-/
import LetIf.Proofs.Code.Validation
import LetIf.Proofs.Engine.Numbers

namespace LetIf.Engine

/-- The instructions of the machine, `stop` apart, as WebAssembly has them. -/
inductive Codes : List Instr → List Op → Prop
  | nil : Codes [] []
  | const (n : Int32) {is : List Instr} {ops : List Op} : Codes is ops →
      Codes (.const n :: is) (.const32 n :: ops)
  | select {is : List Instr} {ops : List Op} : Codes is ops → Codes (.select :: is) (.select :: ops)
  | branch {yes no is : List Instr} {ys ns ops : List Op} : Codes yes ys → Codes no ns → Codes is ops →
      Codes (.branch yes no :: is) (.branch (some .i32) ys ns :: ops)
  | localGet (i : UInt32) {is : List Instr} {ops : List Op} : Codes is ops →
      Codes (.localGet i :: is) (.localGet i.toNat :: ops)
  | localSet (i : UInt32) {is : List Instr} {ops : List Op} : Codes is ops →
      Codes (.localSet i :: is) (.localSet i.toNat :: ops)

/-! ## Binary format -/

/-- The written form of code is in the binary format. -/
theorem exists_codes_of_isCode {is : List Instr} {bs : Text} (hc : Wasm.IsCode is bs) :
    ∃ ops, Codes is ops ∧ Standard.IsCode ops bs := by
  induction hc with
  | nil => exact ⟨[], .nil, .nil⟩
  | const hn _ ih =>
    obtain ⟨ops, hops, ih⟩ := ih
    exact ⟨_, .const _ hops, .const32 (Standard.isSigned_of_isS32 hn) ih⟩
  | select _ ih =>
    obtain ⟨ops, hops, ih⟩ := ih
    exact ⟨_, .select hops, .select ih⟩
  | branch _ _ _ ihy ihn ih =>
    obtain ⟨ys, hys, ihy⟩ := ihy
    obtain ⟨ns, hns, ihn⟩ := ihn
    obtain ⟨ops, hops, ih⟩ := ih
    refine ⟨_, .branch hys hns hops, ?_⟩
    simp only [List.cons_append, List.append_assoc]
    exact .branch (some .i32) ihy ihn ih
  | localGet hi _ ih =>
    obtain ⟨ops, hops, ih⟩ := ih
    exact ⟨_, .localGet _ hops, .localGet (Standard.isUnsigned_of_isU32 hi) ih⟩
  | localSet hi _ ih =>
    obtain ⟨ops, hops, ih⟩ := ih
    exact ⟨_, .localSet _ hops, .localSet (Standard.isUnsigned_of_isU32 hi) ih⟩

/-! ## Validity -/

/-- Numbers of 32 bits, on the stack or as local variables. -/
def numbers (n : Nat) : List ValType := List.replicate n .i32

theorem numbers_get {n i : Nat} (h : i < n) : (numbers n)[i]? = some .i32 := by
  rw [numbers, List.getElem?_replicate, if_pos h]

/-- Where validation counts words, the stack has as many numbers. -/
theorem Codes.typed {locals : UInt32} {is : List Instr} {ops : List Op} (h : Codes is ops) :
    ∀ {pc d d' : Nat}, Code.depthFrom locals pc d is = .ok d' →
      Standard.Typed (numbers locals.toNat) ops (numbers d) (numbers d') := by
  induction h with
  | nil =>
    intro pc d d' hd
    simp only [Code.depthFrom] at hd
    cases hd
    exact .nil
  | const n _ ih =>
    intro pc d d' hd
    obtain ⟨d₁, hi, his⟩ := Code.depthFrom_cons_eq_ok.1 hd
    simp only [Code.depthAfter] at hi
    cases hi
    exact .const32 n (ih his)
  | select _ ih =>
    intro pc d d' hd
    obtain ⟨d₁, hi, his⟩ := Code.depthFrom_cons_eq_ok.1 hd
    obtain ⟨h3, rfl⟩ := Code.depthAfter_select_eq_ok.1 hi
    obtain ⟨d, rfl⟩ := Nat.exists_eq_add_of_le' h3
    exact .select (ih his)
  | branch _ _ _ ihy ihn ih =>
    intro pc d d' hd
    obtain ⟨d₁, hi, his⟩ := Code.depthFrom_cons_eq_ok.1 hd
    obtain ⟨h1, hy, hn, rfl⟩ := Code.depthAfter_branch_eq_ok.1 hi
    obtain ⟨d, rfl⟩ := Nat.exists_eq_add_of_le' h1
    -- each arm has its type over an empty stack, as it has its depth
    exact .branch (ihy hy) (ihn hn) (ih his)
  | localGet i _ ih =>
    intro pc d d' hd
    obtain ⟨d₁, hi, his⟩ := Code.depthFrom_cons_eq_ok.1 hd
    obtain ⟨hlt, rfl⟩ := Code.depthAfter_get_eq_ok.1 hi
    exact .localGet (numbers_get (UInt32.lt_iff_toNat_lt.1 hlt)) (ih his)
  | localSet i _ ih =>
    intro pc d d' hd
    obtain ⟨d₁, hi, his⟩ := Code.depthFrom_cons_eq_ok.1 hd
    obtain ⟨hlt, h1, rfl⟩ := Code.depthAfter_set_eq_ok.1 hi
    obtain ⟨d, rfl⟩ := Nat.exists_eq_add_of_le' h1
    exact .localSet (numbers_get (UInt32.lt_iff_toNat_lt.1 hlt)) (ih his)

/-! ## Running -/

/-- What the slots of the machine hold, as values of local variables. -/
def values (slots : Slots) : List Val := slots.toList.map .i32

theorem values_length (slots : Slots) : (values slots).length = slots.count := by
  simp [values, Slots.toList]

theorem values_getElem? (slots : Slots) (i : Nat) : (values slots)[i]? = (slots.get? i).map .i32 := by
  unfold values Slots.toList Slots.get?
  by_cases hi : i < slots.count
  · simp [hi]
  · simp [hi]

theorem values_write {slots : Slots} {i : Nat} (hi : i < slots.count) (v : Int32) :
    values (slots.write i v) = (values slots).set i (.i32 v) := by
  refine List.ext_getElem? fun j => ?_
  rw [List.getElem?_set, values_getElem?, values_getElem?, values_length, if_pos hi]
  by_cases hj : i = j
  · subst hj
    rw [if_pos rfl, Slots.get?_of_lt (by rwa [Slots.write_count]), Slots.write_word_self]
    rfl
  · rw [if_neg hj]
    unfold Slots.get?
    rw [Slots.write_count, Slots.write_word_ne _ _ (Ne.symm hj)]

theorem values_zeros (n : Nat) : values (.zeros n) = (numbers n).map .zero := by
  rw [values, Slots.toList, numbers, List.map_replicate, List.map_map]
  exact List.eq_replicate_iff.2 ⟨by simp [Slots.zeros], by simp [Slots.zeros, Val.zero]⟩

/-- Validated code runs as the machine runs it. -/
theorem Codes.runs {locals : UInt32} {is : List Instr} {ops : List Op} (h : Codes is ops) :
    ∀ {pc d : Nat} {s s' : Machine.State}, Code.depthFrom locals pc s.stack.length is = .ok d →
      s.slots.count = locals.toNat → Machine.run pc s is = .ok s' →
        Standard.Runs ops (s.stack.map .i32) (values s.slots) (some (s'.stack.map .i32, values s'.slots)) := by
  induction h with
  | nil =>
    intro pc d s s' _ _ hr
    simp only [Machine.run] at hr
    cases hr
    exact .nil
  | const n _ ih =>
    rintro pc d ⟨st, slots⟩ s' hd hc hr
    obtain ⟨d₁, hi, his⟩ := Code.depthFrom_cons_eq_ok.1 hd
    obtain ⟨s₁, hs, hr⟩ := (Machine.run_cons_eq_ok (by simp)).1 hr
    simp only [Code.depthAfter] at hi
    simp only [Machine.step] at hs
    cases hi
    cases hs
    exact .const32 n (ih (s := ⟨n :: st, slots⟩) his hc hr)
  | select _ ih =>
    rintro pc d ⟨st, slots⟩ s' hd hc hr
    obtain ⟨d₁, hi, his⟩ := Code.depthFrom_cons_eq_ok.1 hd
    obtain ⟨s₁, hs, hr⟩ := (Machine.run_cons_eq_ok (by simp)).1 hr
    obtain ⟨-, rfl⟩ := Code.depthAfter_select_eq_ok.1 hi
    obtain ⟨c, b, a, below, rfl, rfl⟩ := Machine.step_select_eq_ok hs
    have hrest := ih (s := ⟨(if c ≠ 0 then a else b) :: below, slots⟩) his hc hr
    rw [List.map_cons, apply_ite Val.i32] at hrest
    exact .select hrest
  | @branch yes no is ys ns ops _ _ _ ihy ihn ih =>
    rintro pc d ⟨st, slots⟩ s' hd hc hr
    obtain ⟨d₁, hi, his⟩ := Code.depthFrom_cons_eq_ok.1 hd
    obtain ⟨s₁, hs, hr⟩ := (Machine.run_cons_eq_ok (by simp)).1 hr
    obtain ⟨-, hy, hn, rfl⟩ := Code.depthAfter_branch_eq_ok.1 hi
    obtain ⟨c, below, rfl, harm⟩ := Machine.step_branch_eq_ok hs
    -- the arm leaves the same word on no stack as on the stack it stands on
    obtain ⟨top, slots₁, htop, hc₁, hreach⟩ : Machine.Leaves [] slots (if c ≠ 0 then yes else no) 1 := by
      split
      · exact Machine.leaves_of_depth hy hc
      · exact Machine.leaves_of_depth hn hc
    obtain ⟨w, rfl⟩ := List.length_eq_one_iff.1 htop
    cases ((hreach below).run 0).symm.trans harm
    have harm : Standard.Runs (if c ≠ 0 then ys else ns) [] (values slots) (some ([.i32 w], values slots₁)) := by
      have hrun := (hreach []).run 0
      split at hrun
      · rename_i hne
        rw [if_pos hne]
        exact ihy (s := ⟨[], slots⟩) hy hc hrun
      · rename_i heq
        rw [if_neg heq]
        exact ihn (s := ⟨[], slots⟩) hn hc hrun
    exact .branch harm (ih (s := ⟨w :: below, slots₁⟩) his (hc₁.trans hc) hr)
  | localGet i _ ih =>
    rintro pc d ⟨st, slots⟩ s' hd hc hr
    obtain ⟨d₁, hi, his⟩ := Code.depthFrom_cons_eq_ok.1 hd
    obtain ⟨s₁, hs, hr⟩ := (Machine.run_cons_eq_ok (by simp)).1 hr
    obtain ⟨-, rfl⟩ := Code.depthAfter_get_eq_ok.1 hi
    obtain ⟨v, hv, rfl⟩ := Machine.step_localGet_eq_ok hs
    exact .localGet ((values_getElem? slots _).trans (congrArg (Option.map Val.i32) hv))
      (ih (s := ⟨v :: st, slots⟩) his hc hr)
  | localSet i _ ih =>
    rintro pc d ⟨st, slots⟩ s' hd hc hr
    obtain ⟨d₁, hi, his⟩ := Code.depthFrom_cons_eq_ok.1 hd
    obtain ⟨s₁, hs, hr⟩ := (Machine.run_cons_eq_ok (by simp)).1 hr
    obtain ⟨hlt, -, rfl⟩ := Code.depthAfter_set_eq_ok.1 hi
    obtain ⟨v, below, slots', rfl, hset, rfl⟩ := Machine.step_localSet_eq_ok hs
    have hlt : i.toNat < slots.count := by rw [hc]; exact UInt32.lt_iff_toNat_lt.1 hlt
    rw [Slots.set?_of_lt hlt] at hset
    cases hset
    have hrest := ih (s := ⟨below, slots.write i.toNat v⟩) his hc hr
    rw [values_write hlt] at hrest
    exact .localSet (by rwa [values_length]) hrest

end LetIf.Engine
