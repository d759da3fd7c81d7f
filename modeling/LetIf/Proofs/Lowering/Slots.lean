/-
The slots of lowered code. The code of an expression is laid out from a tree of the same form whose
bindings and variables carry slots: every binding one of its own, every variable that of the binding
it refers to. Over a whole module the slots of the bindings are the numbers from zero, each once. They are
numbered in the order of lowering, which the strategies do not share, so the invariant is that the
bindings of a part have a range of slots, in some order, and that what is free in it has the slots of
the environment.
-/
import LetIf.Proofs.Expr.Equal
import LetIf.Proofs.Lowering.Derivation
import Mathlib.Tactic

namespace LetIf

variable {A B : Type}

/-! ## Slots in code -/

namespace Instr

mutual

/-- The instructions of an instruction, with those of its arms in the place of a branch. -/
def leaves : Instr → List Instr
  | .branch yes no => leavesAll yes ++ leavesAll no
  | i => [i]

def leavesAll : List Instr → List Instr
  | [] => []
  | i :: is => leaves i ++ leavesAll is

end

def setSlot? : Instr → Option UInt32
  | .localSet i => some i
  | _ => none

def getSlot? : Instr → Option UInt32
  | .localGet i => some i
  | _ => none

/-- The slots that a sequence writes, arms included, in the order of its instructions. -/
def sets (is : List Instr) : List UInt32 := (leavesAll is).filterMap setSlot?

/-- The slots that a sequence reads, arms included, in the order of its instructions. -/
def gets (is : List Instr) : List UInt32 := (leavesAll is).filterMap getSlot?

end Instr

attribute [local simp] Instr.leaves Instr.leavesAll Instr.setSlot? Instr.getSlot?

namespace Instr

theorem leavesAll_append : ∀ is js : List Instr, leavesAll (is ++ js) = leavesAll is ++ leavesAll js
  | [], _ => by simp
  | i :: is, js => by simp [leavesAll_append is js]

theorem sets_append (is js : List Instr) : sets (is ++ js) = sets is ++ sets js := by
  unfold sets; rw [leavesAll_append, List.filterMap_append]

theorem gets_append (is js : List Instr) : gets (is ++ js) = gets is ++ gets js := by
  unfold gets; rw [leavesAll_append, List.filterMap_append]

theorem sets_branch (yes no : List Instr) : sets [.branch yes no] = sets yes ++ sets no := by
  simp [sets]

theorem gets_branch (yes no : List Instr) : gets [.branch yes no] = gets yes ++ gets no := by
  simp [gets]

theorem sets_localSet (slot : UInt32) (is : List Instr) : sets (.localSet slot :: is) = slot :: sets is := by
  simp [sets]

theorem gets_localSet (slot : UInt32) (is : List Instr) : gets (.localSet slot :: is) = gets is := by
  simp [gets, List.filterMap_cons]

theorem sets_select : sets [.select] = [] := by
  simp [sets]

theorem gets_select : gets [.select] = [] := by
  simp [gets]

theorem sets_stop : sets [.stop] = [] := by
  simp [sets]

theorem gets_stop : gets [.stop] = [] := by
  simp [gets]

end Instr

/-! ## Trees with slots -/

namespace Expr

/-- The annotations of the bindings, from the left. -/
def binders : Expr A → List A
  | .lit .. | .var .. | .hole => []
  | .cond _ c y n => c.binders ++ y.binders ++ n.binders
  | .bind a _ b k => a :: (b.binders ++ k.binders)

/-- The annotations of the variables, from the left. -/
def vars : Expr A → List A
  | .lit .. | .hole => []
  | .var a _ => [a]
  | .cond _ c y n => c.vars ++ y.vars ++ n.vars
  | .bind _ _ b k => b.vars ++ k.vars

/-- The annotations of the variables called `x` that no binding in the expression binds. -/
def occurrences (x : Ident) : Expr A → List A
  | .lit .. | .hole => []
  | .var a y => if y = x then [a] else []
  | .cond _ c y n => c.occurrences x ++ y.occurrences x ++ n.occurrences x
  | .bind _ y b k => b.occurrences x ++ if y = x then [] else k.occurrences x

/-- Every variable that is bound in the expression has the annotation of the binding it refers to: a
binding is that of all occurrences of its name in its body that are not bound again. -/
def Resolved : Expr A → Prop
  | .lit .. | .var .. | .hole => True
  | .cond _ c y n => c.Resolved ∧ y.Resolved ∧ n.Resolved
  | .bind a x b k => b.Resolved ∧ k.Resolved ∧ ∀ a' ∈ k.occurrences x, a' = a

/-- The code of a tree whose bindings and variables carry their slots. A strategy that is none lowers no
conditional; here it is as good as `select`. -/
def emit (s : Strategy) : Expr UInt32 → List Instr
  | .lit _ v => (v.map fun v => Instr.const v.word).toList
  | .var slot _ => [.localGet slot]
  | .cond _ c y n =>
    match s with
    | .select | .unnamed _ => y.emit s ++ n.emit s ++ c.emit s ++ [.select]
    | .branch => c.emit s ++ [.branch (y.emit s) (n.emit s)]
  | .bind slot _ b k => b.emit s ++ .localSet slot :: k.emit s
  | .hole => []

/-- The parts of a conditional in the order in which its code has them. -/
theorem perm_cond {α : Type} {cs ys ns cs' ys' ns' : List α} (hc : cs.Perm cs') (hy : ys.Perm ys')
    (hn : ns.Perm ns') : (ys ++ ns ++ cs).Perm (cs' ++ ys' ++ ns') := by
  rw [List.append_assoc cs']
  exact ((hy.append hn).append hc).trans List.perm_append_comm

/-- The code of a tree writes the slots of its bindings. -/
theorem sets_emit (s : Strategy) : ∀ t : Expr UInt32, (Instr.sets (t.emit s)).Perm t.binders
  | .lit _ none | .lit _ (some _) | .var _ _ | .hole => by simp [emit, Instr.sets, binders]
  | .cond _ c y n => by
    have hc := sets_emit s c
    have hy := sets_emit s y
    have hn := sets_emit s n
    cases s with
    | branch =>
      rw [emit, Instr.sets_append, Instr.sets_branch, binders, List.append_assoc]
      exact hc.append (hy.append hn)
    | _ =>
      simp only [emit, Instr.sets_append, Instr.sets_select, List.append_nil]
      exact perm_cond hc hy hn
  | .bind slot _ b k => by
    rw [emit, Instr.sets_append, Instr.sets_localSet, binders]
    exact List.perm_middle.trans (((sets_emit s b).append (sets_emit s k)).cons slot)

/-- The code of a tree reads the slots of its variables. -/
theorem gets_emit (s : Strategy) : ∀ t : Expr UInt32, (Instr.gets (t.emit s)).Perm t.vars
  | .lit _ none | .lit _ (some _) | .var _ _ | .hole => by simp [emit, Instr.gets, vars]
  | .cond _ c y n => by
    have hc := gets_emit s c
    have hy := gets_emit s y
    have hn := gets_emit s n
    cases s with
    | branch =>
      rw [emit, Instr.gets_append, Instr.gets_branch, vars, List.append_assoc]
      exact hc.append (hy.append hn)
    | _ =>
      simp only [emit, Instr.gets_append, Instr.gets_select, List.append_nil]
      exact perm_cond hc hy hn
  | .bind slot _ b k => by
    rw [emit, Instr.gets_append, Instr.gets_localSet, vars]
    exact (gets_emit s b).append (gets_emit s k)

/-- Where both arms are computed, every node is one instruction. -/
theorem length_emit_select : ∀ {t : Expr UInt32}, t.isValued = true → (t.emit .select).length = t.size
  | .lit _ v, hv => by
    obtain ⟨v, rfl⟩ := Option.isSome_iff_exists.1 hv
    rfl
  | .var _ _, _ => rfl
  | .cond _ c y n, hv => by
    obtain ⟨hc, hy, hn⟩ := isValued_cond.1 hv
    simp only [emit, size, List.length_append, List.length_singleton, length_emit_select hc,
      length_emit_select hy, length_emit_select hn]
    omega
  | .bind _ _ b k, hv => by
    obtain ⟨hb, hk⟩ := isValued_bind.1 hv
    simp only [emit, size, List.length_append, List.length_cons, length_emit_select hb, length_emit_select hk]
    omega
  | .hole, hv => by cases hv

/-! ## Trees of one form -/

theorem size_map (f : A → B) : ∀ e : Expr A, (e.map f).size = e.size
  | .lit .. | .var .. | .hole => rfl
  | .cond _ c y n => by simp only [map, size, size_map f c, size_map f y, size_map f n]
  | .bind _ _ b k => by simp only [map, size, size_map f b, size_map f k]

theorem vars_map (f : A → B) : ∀ e : Expr A, (e.map f).vars = e.vars.map f
  | .lit .. | .var .. | .hole => rfl
  | .cond _ c y n => by simp only [map, vars, vars_map f c, vars_map f y, vars_map f n, List.map_append]
  | .bind _ _ b k => by simp only [map, vars, vars_map f b, vars_map f k, List.map_append]

theorem size_of_erase {x : Expr A} {y : Expr B} (h : x.erase = y.erase) : x.size = y.size := by
  rw [← size_map (fun _ => ()) x, ← size_map (fun _ => ()) y]
  exact congrArg size h

theorem length_vars_of_erase {x : Expr A} {y : Expr B} (h : x.erase = y.erase) :
    x.vars.length = y.vars.length := by
  have hv : (x.map fun _ => ()).vars.length = (y.map fun _ => ()).vars.length :=
    congrArg (fun e : Expr Unit => e.vars.length) h
  rwa [vars_map, vars_map, List.length_map, List.length_map] at hv

end Expr

/-! ## Slots of lowered code -/

namespace Lowering

/-- Tree `t` gives the expression its slots: the numbers from `next` on to its bindings, and those of
the environment to what is free in it; and the code is that of the tree. -/
structure Allots (s : Strategy) (env : Env UInt32) (next : Nat) (e : Expr A) (is : List Instr)
    (t : Expr UInt32) : Prop where
  form : t.erase = e.erase
  code : is = t.emit s
  resolved : t.Resolved
  free : ∀ x, ∀ slot ∈ t.occurrences x, env.get? x = some slot
  binders : (t.binders.map UInt32.toNat).Perm (List.range' next e.bindings)

section Allots

variable {s : Strategy} {env : Env UInt32} {a : A} {c y n b k : Expr A} {cs ys ns bs ks : List Instr}
  {tc ty tn tb tk : Expr UInt32}

theorem Allots.free_cond {n₁ n₂ n₃ : Nat} (hc : Allots s env n₁ c cs tc) (hy : Allots s env n₂ y ys ty)
    (hn : Allots s env n₃ n ns tn) (slot : UInt32) :
    ∀ x, ∀ i ∈ (Expr.cond slot tc ty tn).occurrences x, env.get? x = some i := by
  intro x i hi
  rw [Expr.occurrences, List.mem_append, List.mem_append] at hi
  rcases hi with (hi | hi) | hi
  · exact hc.free x i hi
  · exact hy.free x i hi
  · exact hn.free x i hi

theorem Allots.select {next : Nat} (hy : Allots .select env next y ys ty)
    (hn : Allots .select env (next + y.bindings) n ns tn)
    (hc : Allots .select env (next + (y.bindings + n.bindings)) c cs tc) :
    Allots .select env next (.cond a c y n) (ys ++ ns ++ cs ++ [.select]) (.cond 0 tc ty tn) where
  form := Expr.erase_cond_eq_iff.2 ⟨hc.form, hy.form, hn.form⟩
  code := by rw [hy.code, hn.code, hc.code, Expr.emit]
  resolved := ⟨hc.resolved, hy.resolved, hn.resolved⟩
  free := hc.free_cond hy hn 0
  binders := by
    have hsum : c.bindings + y.bindings + n.bindings = y.bindings + n.bindings + c.bindings := by omega
    rw [Expr.bindings, hsum, ← List.range'_append_1, ← List.range'_append_1, Expr.binders, List.map_append,
      List.map_append]
    exact (Expr.perm_cond hc.binders.symm hy.binders.symm hn.binders.symm).symm

theorem Allots.branch {next : Nat} (hc : Allots .branch env next c cs tc)
    (hy : Allots .branch env (next + c.bindings) y ys ty)
    (hn : Allots .branch env (next + (c.bindings + y.bindings)) n ns tn) :
    Allots .branch env next (.cond a c y n) (cs ++ [.branch ys ns]) (.cond 0 tc ty tn) where
  form := Expr.erase_cond_eq_iff.2 ⟨hc.form, hy.form, hn.form⟩
  code := by rw [hc.code, hy.code, hn.code, Expr.emit]
  resolved := ⟨hc.resolved, hy.resolved, hn.resolved⟩
  free := hc.free_cond hy hn 0
  binders := by
    rw [Expr.bindings, ← List.range'_append_1, ← List.range'_append_1, Expr.binders, List.map_append,
      List.map_append]
    exact (hc.binders.append hy.binders).append hn.binders

theorem Allots.bind {slot : UInt32} {x : Ident} (hb : Allots s env (slot.toNat + 1) b bs tb)
    (hk : Allots s ((x, slot) :: env) (slot.toNat + 1 + b.bindings) k ks tk) :
    Allots s env slot.toNat (.bind a x b k) (bs ++ .localSet slot :: ks) (.bind slot x tb tk) where
  form := Expr.erase_bind_eq_iff.2 ⟨rfl, hb.form, hk.form⟩
  code := by rw [hb.code, hk.code, Expr.emit]
  resolved := by
    refine ⟨hb.resolved, hk.resolved, fun i hi => ?_⟩
    have hx := hk.free x i hi
    rw [Env.get?_cons, if_pos rfl] at hx
    exact (Option.some.inj hx).symm
  free := by
    intro z i hi
    rw [Expr.occurrences, List.mem_append] at hi
    rcases hi with hi | hi
    · exact hb.free z i hi
    · split at hi
      · cases hi
      · rename_i hxz
        have hz := hk.free z i hi
        rwa [Env.get?_cons, if_neg fun h => hxz h.symm] at hz
  binders := by
    have hsum : 1 + b.bindings + k.bindings = b.bindings + k.bindings + 1 := by omega
    rw [Expr.bindings, hsum, List.range'_succ, ← List.range'_append_1, Expr.binders, List.map_cons,
      List.map_append]
    exact (hb.binders.append hk.binders).cons _

end Allots

variable {s : Strategy} {env : Env UInt32} {next next' : UInt32} {e : Expr A} {is : List Instr}

/-- As long as there are slots, lowered code is that of a tree with slots. -/
theorem Lowers.exists_allots (h : Lowers s env next e is next') :
    next.toNat + e.bindings < 2 ^ 32 → ∃ t, Allots s env next.toNat e is t := by
  induction h with
  | lit a v =>
    intro _
    refine ⟨.lit 0 (some v), rfl, rfl, trivial, fun x slot hs => ?_, .nil⟩
    cases hs
  | @var s env next a x slot hx =>
    intro _
    refine ⟨.var slot x, rfl, rfl, trivial, fun z i hi => ?_, .nil⟩
    rw [Expr.occurrences] at hi
    split at hi
    · rename_i hxz
      cases List.mem_singleton.1 hi
      rw [← hxz]; exact hx
    · cases hi
  | select a ly ln _ hy hn hc =>
    intro hb
    rw [Expr.bindings] at hb
    have h₁ := ly.toNat_next (by omega)
    have h₂ := ln.toNat_next (by omega)
    obtain ⟨ty, hy⟩ := hy (by omega)
    obtain ⟨tn, hn⟩ := hn (by omega)
    obtain ⟨tc, hc⟩ := hc (by omega)
    rw [h₁] at hn h₂
    rw [h₂, Nat.add_assoc] at hc
    exact ⟨_, hy.select hn hc⟩
  | branch a lc ly _ hc hy hn =>
    intro hb
    rw [Expr.bindings] at hb
    have h₁ := lc.toNat_next (by omega)
    have h₂ := ly.toNat_next (by omega)
    obtain ⟨tc, hc⟩ := hc (by omega)
    obtain ⟨ty, hy⟩ := hy (by omega)
    obtain ⟨tn, hn⟩ := hn (by omega)
    rw [h₁] at hy h₂
    rw [h₂, Nat.add_assoc] at hn
    exact ⟨_, hc.branch hy hn⟩
  | @bind _ _ next _ _ a x b k _ _ lb _ hb hk =>
    intro h
    rw [Expr.bindings] at h
    have h₀ : (next + 1).toNat = next.toNat + 1 := toNat_next_slot (by omega)
    have h₁ := lb.toNat_next (by omega)
    obtain ⟨tb, hb⟩ := hb (by omega)
    obtain ⟨tk, hk⟩ := hk (by omega)
    rw [h₀] at hb h₁
    rw [h₁] at hk
    exact ⟨_, hb.bind hk⟩

end Lowering

/-- A module of an expression in which every binding has a slot of its own. -/
structure Module.Slotted (m : Module) (s : Strategy) (e : Expr A) : Prop where
  /-- There are as many slots as bindings. -/
  locals : m.locals.toNat = e.bindings
  /-- Every slot is written by exactly one instruction, be it in an arm. -/
  sets : ((Instr.sets m.body).map UInt32.toNat).Perm (List.range e.bindings)
  /-- There is one instruction that reads a slot for each variable. -/
  gets : (Instr.gets m.body).length = e.vars.length
  /-- The body is the code of the expression when its bindings carry the slots that are written for them,
  and its variables those of the bindings they refer to. -/
  body : ∃ t : Expr UInt32, t.erase = e.erase ∧ t.Resolved ∧ m.body = t.emit s ++ [.stop]
  /-- Where both arms are computed, every node is one instruction. -/
  length : s = .select → m.body.length = e.size + 1

theorem Expr.exists_slotted {e : Expr A} (hv : e.isValued = true) (hf : e.free = [])
    (hb : e.bindings < 2 ^ 32) (target : Target)
    (hs : target.strategy = .select ∨ target.strategy = .branch) :
    ∃ m, e.lower target = .ok m ∧ m.Slotted target.strategy e := by
  obtain ⟨is, n, h, hn, hm⟩ := Lowering.exists_lowers_of_closed hv hf hb target hs
  have h0 : (0 : UInt32).toNat = 0 := rfl
  obtain ⟨t, ht⟩ := h.exists_allots (by omega)
  refine ⟨_, hm, hn, ?_, ?_, ⟨t, ht.form, ht.resolved, ?_⟩, fun hsel => ?_⟩
  · show ((Instr.sets (is ++ [.stop])).map UInt32.toNat).Perm _
    rw [Instr.sets_append, Instr.sets_stop, List.append_nil, ht.code, List.range_eq_range']
    exact ((sets_emit _ t).map _).trans ht.binders
  · show (Instr.gets (is ++ [.stop])).length = _
    rw [Instr.gets_append, Instr.gets_stop, List.append_nil, ht.code, (gets_emit _ t).length_eq]
    exact length_vars_of_erase ht.form
  · rw [ht.code]
  · show (is ++ [Instr.stop]).length = _
    rw [ht.code, hsel, List.length_append, length_emit_select (isValued_of_erase ht.form hv),
      size_of_erase ht.form]
    rfl

/-- The slots of a module. A closed and finished expression is lowered, by either strategy, to a module
in which every binding has a slot of its own. A finished expression with a free variable, be it in an arm
that is never taken, is lowered by no strategy, and either of the two refuses it for a free variable. -/
theorem Expr.lower_slots {e : Expr A} (hv : e.isValued = true) (target : Target) :
    (e.free = [] → e.bindings < 2 ^ 32 → target.strategy = .select ∨ target.strategy = .branch →
      ∃ m, e.lower target = .ok m ∧ m.Slotted target.strategy e) ∧
    (e.free ≠ [] → ∃ err, e.lower target = .error (.internal err) ∧
      (target.strategy = .select ∨ target.strategy = .branch → ∃ x ∈ e.free, err = .lowerFree x)) := by
  refine ⟨fun hf hb hs => exists_slotted hv hf hb target hs, fun hf => ?_⟩
  cases h : e.lower target with
  | ok m =>
    obtain ⟨⟨is, n⟩, hc, -⟩ := bind_eq_ok.1 h
    exact absurd (boundIn_nil.1 (Lowering.lowers_of_code hc).boundIn) hf
  | error d =>
    cases Lowering.refuses_of_lower hv h with
    | free hx _ => exact ⟨_, rfl, fun _ => ⟨_, hx, rfl⟩⟩
    | strategy hc =>
      refine ⟨_, rfl, ?_⟩
      rw [hc]
      rintro (hs | hs) <;> cases hs

/-- A name bound in the condition and, around another binding of it, in an arm. -/
def slotsOfArms : Expr Unit :=
  .cond () (.bind () nameX (.lit () (some (.bool true))) (.var () nameX))
    (.bind () nameX (.bind () nameX (.lit () (some (.int 1))) (.var () nameX)) (.var () nameX))
    (.lit () (some (.int 2)))

/-- The same with a free variable in the arm that is not taken. -/
def freeInArm : Expr Unit := .cond () (.lit () (some (.bool true))) slotsOfArms (.var () nameY)

theorem lower_slotsOfArms :
    slotsOfArms.isValued = true ∧ slotsOfArms.free = [] ∧ slotsOfArms.bindings < 2 ^ 32 ∧
      (∃ m, slotsOfArms.lower ⟨.select, []⟩ = .ok m ∧ m.Slotted .select slotsOfArms) ∧
      (∃ m, slotsOfArms.lower ⟨.branch, []⟩ = .ok m ∧ m.Slotted .branch slotsOfArms) ∧
      freeInArm.isValued = true ∧ freeInArm.free ≠ [] ∧
      ∃ err, freeInArm.lower ⟨.branch, []⟩ = .error (.internal err) := by
  have hb : slotsOfArms.bindings < 2 ^ 32 := by decide
  have hfree : freeInArm.free ≠ [] := by decide
  obtain ⟨err, herr, -⟩ := (@Expr.lower_slots _ freeInArm rfl ⟨.branch, []⟩).2 hfree
  exact ⟨rfl, rfl, hb, (Expr.lower_slots rfl ⟨.select, []⟩).1 rfl hb (.inl rfl),
    (Expr.lower_slots rfl ⟨.branch, []⟩).1 rfl hb (.inr rfl), rfl, hfree, err, herr⟩

end LetIf
