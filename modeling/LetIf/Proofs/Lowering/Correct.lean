/-
Lowered code is valid and comes to the word of its expression, by either strategy. The invariant of a
run is that every variable in scope has its word in a slot below the next free one: code writes only
slots from there on, so neither an arm that is not taken nor a binding that is left behind touches a
slot that is still read. Since the two strategies come to the same word they agree on every closed
expression, typed or not; and where an expression is typed, the word is that of its value.
-/
import LetIf.Proofs.Code.Validation
import LetIf.Proofs.Expr.Word
import LetIf.Proofs.Lowering.Derivation
import LetIf.Proofs.Typing.Soundness
import Mathlib.Tactic

namespace LetIf

variable {A : Type}

namespace Lowering

open Code Machine

variable {s : Strategy} {env : Env UInt32} {next next' : UInt32} {e : Expr A} {is : List Instr}

/-! ## Lowered code is valid -/

/-- Lowered code adds one word to the stack, whatever its depth. -/
theorem Lowers.depthFrom {locals : UInt32} (h : Lowers s env next e is next') :
    next.toNat + e.bindings ≤ locals.toNat → env.All (· < locals) →
      ∀ pc d, depthFrom locals pc d is = .ok (d + 1) := by
  induction h with
  | lit a v => intro _ _ pc d; rfl
  | var a hx =>
    intro _ he pc d
    exact depthFrom_singleton_eq_ok.2 (depthAfter_get_eq_ok.2 ⟨he _ _ hx, rfl⟩)
  | @select env next n₁ n₂ n₃ a c y n cs ys ns ly ln lc hy hn hc =>
    intro hl he pc d
    rw [Expr.bindings] at hl
    have hlt := locals.toNat_lt
    have h₁ := ly.toNat_next (by omega)
    have h₂ := ln.toNat_next (by omega)
    have hy := hy (by omega) he pc d
    have hn := hn (by omega) he (pc + ys.length) (d + 1)
    have hc := hc (by omega) he (pc + (ys ++ ns).length) (d + 2)
    refine depthFrom_append_eq_ok.2 ⟨d + 3, depthFrom_append_eq_ok.2 ⟨d + 2, ?_, hc⟩, ?_⟩
    · exact depthFrom_append_eq_ok.2 ⟨d + 1, hy, hn⟩
    · exact depthFrom_singleton_eq_ok.2 (depthAfter_select_eq_ok.2 ⟨by omega, by omega⟩)
  | @branch env next n₁ n₂ n₃ a c y n cs ys ns lc ly ln hc hy hn =>
    intro hl he pc d
    rw [Expr.bindings] at hl
    have hlt := locals.toNat_lt
    have h₁ := lc.toNat_next (by omega)
    have h₂ := ly.toNat_next (by omega)
    have hc := hc (by omega) he pc d
    have hy := hy (by omega) he 0 0
    have hn := hn (by omega) he 0 0
    refine depthFrom_append_eq_ok.2 ⟨d + 1, hc, depthFrom_singleton_eq_ok.2 ?_⟩
    exact depthAfter_branch_eq_ok.2 ⟨by omega, hy, hn, rfl⟩
  | @bind s env next n₁ n₂ a x b k bs ks lb lk hb hk =>
    intro hl he pc d
    rw [Expr.bindings] at hl
    have hlt := locals.toNat_lt
    have h₀ : (next + 1).toNat = next.toNat + 1 := toNat_next_slot (by omega)
    have h₁ := lb.toNat_next (by omega)
    have hslot : next < locals := UInt32.lt_iff_toNat_lt.2 (by omega)
    have hb := hb (by omega) he pc d
    have hk := hk (by omega) (he.cons hslot x) (pc + bs.length + 1) d
    refine depthFrom_append_eq_ok.2 ⟨d + 1, hb, depthFrom_cons_eq_ok.2 ⟨d, ?_, hk⟩⟩
    exact depthAfter_set_eq_ok.2 ⟨hslot, by omega, by omega⟩

/-! ## Lowered code comes to the word -/

/-- The same slots, with the same words below `n`. -/
structure SameBelow (n : Nat) (slots slots' : Slots) : Prop where
  count : slots'.count = slots.count
  word : ∀ i < n, slots'.word i = slots.word i

theorem SameBelow.refl (n : Nat) (slots : Slots) : SameBelow n slots slots := ⟨rfl, fun _ _ => rfl⟩

theorem SameBelow.mono {n m : Nat} {slots slots' : Slots} (h : SameBelow m slots slots') (hnm : n ≤ m) :
    SameBelow n slots slots' :=
  ⟨h.count, fun i hi => h.word i (by omega)⟩

theorem SameBelow.write (n : Nat) (slots : Slots) (w : Int32) : SameBelow n slots (slots.write n w) :=
  ⟨rfl, fun i hi => slots.write_word_ne w (by omega)⟩

theorem SameBelow.trans {n m : Nat} {slots₁ slots₂ slots₃ : Slots} (h : SameBelow n slots₁ slots₂)
    (h' : SameBelow m slots₂ slots₃) (hnm : n ≤ m) : SameBelow n slots₁ slots₃ :=
  ⟨h'.count.trans h.count, fun i hi => ((h'.mono hnm).word i hi).trans (h.word i hi)⟩

/-- Every variable in scope has its word in a slot below `next`. -/
def Holds (slots : Slots) (next : Nat) (env : Env UInt32) (words : Env Int32) : Prop :=
  Env.Rel (fun slot w => slot.toNat < next ∧ slots.word slot.toNat = w) env words

theorem Holds.step {slots slots' : Slots} {n m : Nat} {words : Env Int32} (h : Holds slots n env words)
    (hs : SameBelow n slots slots') (hnm : n ≤ m) : Holds slots' m env words :=
  h.mono fun slot w ⟨hlt, hw⟩ => ⟨by omega, by rw [hs.word _ hlt]; exact hw⟩

/-- Binding a word, in the first free slot, keeps the invariant for the slots after it. -/
theorem Holds.bind {slots : Slots} {n : Nat} {words : Env Int32} (h : Holds slots next.toNat env words)
    (hn : next.toNat < n) (w : Int32) (x : Ident) :
    Holds (slots.write next.toNat w) n ((x, next) :: env) ((x, w) :: words) :=
  Env.Rel.cons (h.step (.write _ slots w) (Nat.le_of_lt hn)) ⟨hn, slots.write_word_self _ w⟩ x

/-- With at least `limit` slots, and the words of the variables in scope below `next`, the sequence
puts the word of the expression on top of any stack and keeps the slots below `next`. -/
def Computes (env : Env UInt32) (words : Env Int32) (next limit : Nat) (e : Expr A) (is : List Instr) : Prop :=
  ∀ slots : Slots, limit ≤ slots.count → Holds slots next env words →
    ∃ w slots', e.wordIn words = some w ∧ SameBelow next slots slots' ∧
      ∀ st, Reaches ⟨st, slots⟩ is ⟨w :: st, slots'⟩

section Computes

variable {words : Env Int32} {limit n₀ n₁ n₂ : Nat} {a : A} {c y n b k : Expr A} {cs ys ns bs ks : List Instr}

theorem Computes.select (hy : Computes env words n₀ limit y ys) (hn : Computes env words n₁ limit n ns)
    (hc : Computes env words n₂ limit c cs) (h₁ : n₀ ≤ n₁) (h₂ : n₁ ≤ n₂) :
    Computes env words n₀ limit (.cond a c y n) (ys ++ ns ++ cs ++ [.select]) := by
  intro slots hl hH
  obtain ⟨wy, slots₁, hwy, hs₁, ry⟩ := hy slots hl hH
  obtain ⟨wn, slots₂, hwn, hs₂, rn⟩ := hn slots₁ (by rw [hs₁.count]; exact hl) (hH.step hs₁ h₁)
  have hs₂ : SameBelow n₀ slots slots₂ := hs₁.trans hs₂ h₁
  obtain ⟨wc, slots₃, hwc, hs₃, rc⟩ := hc slots₂ (by rw [hs₂.count]; exact hl) (hH.step hs₂ (by omega))
  refine ⟨if wc ≠ 0 then wy else wn, slots₃, ?_, hs₂.trans hs₃ (by omega), fun st => ?_⟩
  · rw [Expr.wordIn_cond hwc, hwy, hwn]
    split <;> rfl
  · exact (((ry st).append (rn _)).append (rc _)).append (reaches_select st slots₃ wc wn wy)

theorem Computes.branch (hc : Computes env words n₀ limit c cs) (hy : Computes env words n₁ limit y ys)
    (hn : Computes env words n₂ limit n ns) (h₁ : n₀ ≤ n₁) (h₂ : n₁ ≤ n₂) :
    Computes env words n₀ limit (.cond a c y n) (cs ++ [.branch ys ns]) := by
  intro slots hl hH
  obtain ⟨wc, slots₁, hwc, hs₁, rc⟩ := hc slots hl hH
  have hl₁ : limit ≤ slots₁.count := by rw [hs₁.count]; exact hl
  -- only the arm that is taken runs, and it finds the slots as the condition has left them
  have arm : ∃ w slots₂, (if wc ≠ 0 then y.wordIn words else n.wordIn words) = some w ∧
      SameBelow n₀ slots₁ slots₂ ∧
      ∀ st, Reaches ⟨st, slots₁⟩ (if wc ≠ 0 then ys else ns) ⟨w :: st, slots₂⟩ := by
    split
    · obtain ⟨w, slots₂, hw, hs₂, r⟩ := hy slots₁ hl₁ (hH.step hs₁ h₁)
      exact ⟨w, slots₂, hw, hs₂.mono h₁, r⟩
    · obtain ⟨w, slots₂, hw, hs₂, r⟩ := hn slots₁ hl₁ (hH.step hs₁ (by omega))
      exact ⟨w, slots₂, hw, hs₂.mono (by omega), r⟩
  obtain ⟨w, slots₂, hw, hs₂, r⟩ := arm
  refine ⟨w, slots₂, ?_, hs₁.trans hs₂ (Nat.le_refl _), fun st => ?_⟩
  · rw [Expr.wordIn_cond hwc]; exact hw
  · exact (rc st).append (reaches_branch st slots₁ (r st))

/-- The bound expression runs before its slot is written, so it may use all slots after it; the body
then runs behind these. -/
theorem Computes.bind {slot : UInt32} {x : Ident} (hb : Computes env words (slot.toNat + 1) limit b bs)
    (hk : ∀ w, Computes ((x, slot) :: env) ((x, w) :: words) n₁ limit k ks) (h₁ : slot.toNat < n₁)
    (hlt : slot.toNat < limit) :
    Computes env words slot.toNat limit (.bind a x b k) (bs ++ .localSet slot :: ks) := by
  intro slots hl hH
  obtain ⟨w, slots₁, hw, hs₁, rb⟩ := hb slots hl (hH.step (.refl _ slots) (by omega))
  have hs₁ : SameBelow slot.toNat slots slots₁ := hs₁.mono (by omega)
  have hset : SameBelow slot.toNat slots (slots₁.write slot.toNat w) :=
    hs₁.trans (.write _ slots₁ w) (Nat.le_refl _)
  obtain ⟨v, slots₂, hv, hs₂, rk⟩ := hk w (slots₁.write slot.toNat w) (by rw [hset.count]; exact hl)
    ((hH.step hs₁ (Nat.le_refl _)).bind h₁ w x)
  refine ⟨v, slots₂, ?_, hset.trans hs₂ (by omega), fun st => ?_⟩
  · rw [Expr.wordIn_bind hw]; exact hv
  · have rset := reaches_set st slots₁ (show slot.toNat < slots₁.count by rw [hs₁.count]; omega) w
    exact (rb st).append (rset.append (rk st))

end Computes

/-- Lowered code computes its expression when there are slots for all bindings. -/
theorem Lowers.computes {limit : Nat} (hlim : limit < 2 ^ 32) (h : Lowers s env next e is next') :
    ∀ {words : Env Int32}, next.toNat + e.bindings ≤ limit → Computes env words next.toNat limit e is := by
  induction h with
  | lit a v =>
    intro words _ slots _ _
    exact ⟨v.word, slots, rfl, .refl _ _, fun st => reaches_const st slots v.word⟩
  | var a hx =>
    intro words hl slots hc hH
    obtain ⟨w, hw, hlt, rfl⟩ := hH _ _ hx
    rw [Expr.bindings] at hl
    exact ⟨_, slots, hw, .refl _ _, fun st => reaches_get st slots (by omega)⟩
  | select a ly ln _ hy hn hc =>
    intro words hl
    rw [Expr.bindings] at hl
    have h₁ := ly.toNat_next (by omega)
    have h₂ := ln.toNat_next (by omega)
    exact .select (hy (by omega)) (hn (by omega)) (hc (by omega)) (by omega) (by omega)
  | branch a lc ly _ hc hy hn =>
    intro words hl
    rw [Expr.bindings] at hl
    have h₁ := lc.toNat_next (by omega)
    have h₂ := ly.toNat_next (by omega)
    exact .branch (hc (by omega)) (hy (by omega)) (hn (by omega)) (by omega) (by omega)
  | @bind s env next n₁ n₂ a x b k bs ks lb _ hb hk =>
    intro words hl
    rw [Expr.bindings] at hl
    have h₀ : (next + 1).toNat = next.toNat + 1 := toNat_next_slot (by omega)
    have h₁ := lb.toNat_next (by omega)
    have hb : Computes env words (next.toNat + 1) limit b bs := by rw [← h₀]; exact hb (by omega)
    exact .bind hb (fun w => hk (by omega)) (by omega) (by omega)

end Lowering

/-! ## Modules of expressions -/

theorem Target.exportName_ne_nil (t : Target) : t.exportName ≠ [] := by
  unfold Target.exportName
  split
  · decide
  · rename_i h; exact fun h' => h (by rw [h']; rfl)

/-- A closed and finished expression has a module, by either strategy, that is valid and executes to
the word of the expression. -/
theorem Expr.lower_spec {e : Expr A} (hv : e.isValued = true) (hf : e.free = []) (hb : e.bindings < 2 ^ 32)
    (target : Target) (hs : target.strategy = .select ∨ target.strategy = .branch) :
    ∃ m w, e.lower target = .ok m ∧ m.validate = .ok () ∧ m.execute = .ok w ∧ e.word = some w := by
  obtain ⟨is, n, h, hn, hm⟩ := Lowering.exists_lowers_of_closed hv hf hb target hs
  have h0 : (0 : UInt32).toNat = 0 := rfl
  have hle : (0 : UInt32).toNat + e.bindings ≤ n.toNat := by omega
  have hvalid : Module.validate ⟨target.exportName, n, is ++ [.stop]⟩ = .ok () := by
    refine Module.validate_eq_ok.2 ⟨target.exportName_ne_nil, is, rfl, ?_⟩
    exact h.depthFrom hle Env.All.nil 0 0
  have hc : Lowering.Computes [] [] 0 n.toNat e is :=
    h.computes (by rw [hn]; exact hb) hle
  obtain ⟨w, slots, hw, -, hr⟩ := hc (.zeros n.toNat) (Nat.le_refl _) Env.Rel.nil
  exact ⟨_, w, hm, hvalid, Module.execute_of_run hvalid ((hr []).run_stop 0), hw⟩

/-- The strategies agree on every closed and finished expression, typed or not: both modules are
valid and both execute to the word of the expression, where a condition holds when its word is not
zero. -/
theorem Expr.strategies_agree {e : Expr A} (hv : e.isValued = true) (hf : e.free = [])
    (hb : e.bindings < 2 ^ 32) (name : Text) :
    ∃ m n w, e.lower ⟨.select, name⟩ = .ok m ∧ e.lower ⟨.branch, name⟩ = .ok n ∧
      m.validate = .ok () ∧ n.validate = .ok () ∧ m.execute = .ok w ∧ n.execute = .ok w ∧
      e.word = some w := by
  obtain ⟨m, w, hm, hvm, hem, hw⟩ := lower_spec hv hf hb ⟨.select, name⟩ (.inl rfl)
  obtain ⟨n, w', hn, hvn, hen, hw'⟩ := lower_spec hv hf hb ⟨.branch, name⟩ (.inr rfl)
  rw [hw] at hw'
  cases hw'
  exact ⟨m, n, w, hm, hn, hvm, hvn, hem, hen, hw⟩

/-- A number as a condition, arms of different kinds, and a binding of one name in all three. -/
def mixedArms : Expr Unit :=
  .cond () (.bind () nameX (.lit () (some (.int (-7)))) (.var () nameX))
    (.bind () nameX (.lit () (some (.bool true))) (.var () nameX))
    (.bind () nameX (.lit () (some (.int 3))) (.var () nameX))

theorem strategies_agree_mixedArms :
    mixedArms.isValued = true ∧ mixedArms.free = [] ∧ mixedArms.bindings < 2 ^ 32 ∧
      ∃ m n w, mixedArms.lower ⟨.select, []⟩ = .ok m ∧ mixedArms.lower ⟨.branch, []⟩ = .ok n ∧
        m.validate = .ok () ∧ n.validate = .ok () ∧ m.execute = .ok w ∧ n.execute = .ok w ∧
        mixedArms.word = some w :=
  ⟨rfl, rfl, by decide, Expr.strategies_agree rfl rfl (by decide) []⟩

/-! ## Modules of typed expressions -/

/-- The word of an expression that has a kind is the word of its value. -/
theorem Expr.word_of_hasKind {e : Expr A} {k : Kind} (hk : Typing.HasKind [] e k) :
    ∃ v, e.value = .ok v ∧ e.word = some v.word := by
  obtain ⟨l, hl, -⟩ : ∃ l, e.evaluate = .ok l ∧ l.OfKind k := hk.evaluateIn Env.Rel.nil
  obtain ⟨v, hv, hw⟩ := wordIn_of_evaluateIn hk.isValued Env.Rel.nil hl
  exact ⟨v, value_eq_ok.2 ⟨l, hl, hv⟩, hw⟩

/-- Correctness of the compiler. An expression that elaborates has a value and, by either strategy
and under any name, a module, and the module executes without an error to the word of the value. -/
theorem Expr.execute_lower {e : Expr A} {t : Typing.Elaborated A} (h : Typing.infer [] e = .ok t)
    (hb : e.bindings < 2 ^ 32) (target : Target)
    (hs : target.strategy = .select ∨ target.strategy = .branch) :
    ∃ m v, e.lower target = .ok m ∧ e.value = .ok v ∧ m.execute = .ok v.word := by
  have hk := Typing.hasKind_of_infer_nil h
  obtain ⟨m, w, hm, -, he, hw⟩ := lower_spec hk.isValued (boundIn_nil.1 hk.boundIn) hb target hs
  obtain ⟨v, hv, hw'⟩ := word_of_hasKind hk
  rw [hw] at hw'
  cases hw'
  exact ⟨m, v, hm, hv, he⟩

/-- A boolean whose name is bound again, to a number, in the arm that it picks. -/
def shadowedArm : Expr Unit :=
  .bind () nameX (.lit () (some (.bool true)))
    (.cond () (.var () nameX) (.bind () nameX (.lit () (some (.int 5))) (.var () nameX))
      (.lit () (some (.int 7))))

theorem execute_lower_shadowedArm :
    (∃ t, Typing.infer [] shadowedArm = .ok t) ∧ shadowedArm.bindings < 2 ^ 32 ∧
      ∃ m v, shadowedArm.lower ⟨.branch, "f"⟩ = .ok m ∧ shadowedArm.value = .ok v ∧
        m.execute = .ok v.word :=
  ⟨⟨_, rfl⟩, by decide, Expr.execute_lower rfl (by decide) ⟨.branch, "f"⟩ (.inr rfl)⟩

end LetIf
