/-
The translation to LLVM keeps the meaning of a valid module. The builder runs the stack on operands,
over both arms of a conditional; the machine runs it on words, over one. The two are kept in step by
what holds at a point of the construction: the operands on the stack have the words of the machine's
stack, and the cells those of its slots. A sequence of instructions takes such a point to another
whatever is built later, since that only adds behind what is there, and it leaves alone the values of
all operands that were on the stack before: so a value pushed before a conditional is still right
after it, and one read from a slot is the word that was there when it was pushed.
-/
import LetIf.Proofs.Code.Validation
import LetIf.Proofs.Llvm.Building

namespace LetIf.Llvm

open Code

/-! ## States in step -/

/-- The values below `n` are the same. -/
def Agree (n : Nat) (s s' : State) : Prop := ∀ id < n, s'.values id = s.values id

namespace Agree

variable {n m id : Nat} {s s₁ s₂ : State}

theorem refl (n : Nat) (s : State) : Agree n s s := fun _ _ => rfl

theorem trans (h₁ : Agree n s s₁) (h₂ : Agree m s₁ s₂) (hnm : n ≤ m) : Agree n s s₂ :=
  fun id hid => (h₂ id (Nat.lt_of_lt_of_le hid hnm)).trans (h₁ id hid)

theorem define (h : n ≤ id) (s : State) (d : Datum) : Agree n s (s.define id d) := by
  intro j hj
  rw [State.values_define, if_neg (by omega)]

theorem word? (h : Agree n s s₁) {v : Operand} (hv : v.Below n) : s₁.word? v = s.word? v := by
  cases v with
  | const _ => rfl
  | result id => simp only [State.word?, h id hv]

theorem words (h : Agree n s s₁) {vs : List Operand} (hvs : ∀ v ∈ vs, v.Below n) :
    vs.map s₁.word? = vs.map s.word? :=
  List.map_congr_left fun v hv => h.word? (hvs v hv)

end Agree

/-- The operands have the words of a stack, and the cells those of the slots. -/
structure Matches (s : State) (vs : List Operand) (top : Machine.Stack) (slots : Slots) : Prop where
  words : vs.map s.word? = top.map some
  cells : ∀ i < slots.count, s.cells i = some (some (slots.word i))

namespace Matches

variable {s s' : State} {v : Operand} {vs : List Operand} {w : Int32} {top : Machine.Stack} {slots : Slots}

theorem cons (h : Matches s vs top slots) (hv : s.word? v = some w) : Matches s (v :: vs) (w :: top) slots :=
  ⟨by rw [List.map_cons, List.map_cons, hv, h.words], h.cells⟩

theorem uncons (h : Matches s (v :: vs) top slots) :
    ∃ w top', top = w :: top' ∧ s.word? v = some w ∧ Matches s vs top' slots := by
  cases top with
  | nil => cases h.words
  | cons w top' =>
    obtain ⟨hv, hvs⟩ := List.cons.inj h.words
    exact ⟨w, top', rfl, hv, hvs, h.cells⟩

theorem define {n id : Nat} (h : Matches s vs top slots) (hvs : ∀ v ∈ vs, v.Below n) (hid : n ≤ id)
    (d : Datum) : Matches (s.define id d) vs top slots :=
  ⟨by rw [(Agree.define hid s d).words hvs]; exact h.words, h.cells⟩

theorem of_agree {n : Nat} {slots' : Slots} (h : Matches s vs top slots) (ha : Agree n s s')
    (hvs : ∀ v ∈ vs, v.Below n) (h' : Matches s' [] [] slots') : Matches s' vs top slots' :=
  ⟨by rw [ha.words hvs]; exact h.words, h'.cells⟩

theorem write (h : Matches s vs top slots) (i : Nat) (w : Int32) :
    Matches (s.write i (some w)) vs top (slots.write i w) := by
  refine ⟨?_, fun j hj => ?_⟩
  · rw [← h.words]
    exact List.map_congr_left fun v _ => s.word?_write i (some w) v
  · rw [State.cells_write]
    by_cases hji : j = i
    · rw [if_pos hji, hji, slots.write_word_self]
    · rw [if_neg hji, slots.write_word_ne w hji]
      exact h.cells j hj

end Matches

/-! ## Straight code -/

/-- Run from any state in step with the machine, the operations `new` do what instruction `i` does:
they turn the operands `vs` into `vs'` and keep all values below `n`. -/
def Performs (count n : Nat) (vs : List Operand) (new : List Op) (vs' : List Operand) (i : Instr) : Prop :=
  ∀ s top slots, Matches s vs top slots → slots.count = count →
    ∃ s' top' slots', execAll s new = some s' ∧ Matches s' vs' top' slots' ∧ slots'.count = count ∧
      Agree n s s' ∧ ∀ st, Machine.Reaches ⟨top ++ st, slots⟩ [i] ⟨top' ++ st, slots'⟩

section Performs

variable {count n : Nat} {vs : List Operand}

theorem performs_const (w : Int32) : Performs count n vs [] (.const w :: vs) (.const w) := by
  intro s top slots h hc
  exact ⟨s, w :: top, slots, rfl, h.cons (s.word?_const w), hc, .refl n s,
    fun st => Machine.reaches_const (top ++ st) slots w⟩

theorem performs_select {c no yes : Operand} (hyes : yes.Below n) (hno : no.Below n)
    (hvs : ∀ v ∈ vs, v.Below n) :
    Performs count n (c :: no :: yes :: vs) [.isNonzero n c, .select (n + 1) n yes no]
      (.result (n + 1) :: vs) .select := by
  intro s top slots h hc
  obtain ⟨wc, top, rfl, hwc, h⟩ := h.uncons
  obtain ⟨wn, top, rfl, hwn, h⟩ := h.uncons
  obtain ⟨wy, top, rfl, hwy, h⟩ := h.uncons
  let s₁ := s.define n (.bit (wc != 0))
  let s₂ := s₁.define (n + 1) (.word (if wc ≠ 0 then wy else wn))
  have h₁ : Agree n s s₁ := .define (Nat.le_refl n) s _
  have hexec : execAll s [.isNonzero n c, .select (n + 1) n yes no] = some s₂ := by
    have e₁ : (Op.isNonzero n c).exec s = some s₁ := by simp [Op.exec, hwc, s₁]
    have e₂ : (Op.select (n + 1) n yes no).exec s₁ = some s₂ := by
      simp [Op.exec, s₁, s₂, h₁.word? hyes, h₁.word? hno, hwy, hwn]
    simp [execAll, e₁, e₂]
  have hm : Matches s₂ vs top slots := (h.define hvs (Nat.le_refl n) _).define hvs (Nat.le_succ n) _
  exact ⟨s₂, _ :: top, slots, hexec, hm.cons (s₁.word?_define_self _ _), hc,
    h₁.trans (.define (Nat.le_succ n) s₁ _) (Nat.le_refl n),
    fun st => Machine.reaches_select (top ++ st) slots wc wn wy⟩

theorem performs_get {i : UInt32} (hi : i.toNat < count) (hvs : ∀ v ∈ vs, v.Below n) :
    Performs count n vs [.load n i.toNat] (.result n :: vs) (.localGet i) := by
  intro s top slots h hc
  rw [← hc] at hi
  let s' := s.define n (.word (slots.word i.toNat))
  have hexec : execAll s [.load n i.toNat] = some s' := by simp [execAll, Op.exec, h.cells _ hi, s']
  have hm : Matches s' vs top slots := h.define hvs (Nat.le_refl n) _
  exact ⟨s', _ :: top, slots, hexec, hm.cons (s.word?_define_self _ _), hc, .define (Nat.le_refl n) s _,
    fun st => Machine.reaches_get (top ++ st) slots hi⟩

theorem performs_set {i : UInt32} {v : Operand} (hi : i.toNat < count) :
    Performs count n (v :: vs) [.store v i.toNat] vs (.localSet i) := by
  intro s top slots h hc
  rw [← hc] at hi
  obtain ⟨w, top, rfl, hw, h⟩ := h.uncons
  have hexec : execAll s [.store v i.toNat] = some (s.write i.toNat (some w)) := by
    simp [execAll, Op.exec, hw, h.cells _ hi]
  exact ⟨_, top, slots.write i.toNat w, hexec, h.write i.toNat w, hc, fun _ _ => rfl,
    fun st => Machine.reaches_set (top ++ st) slots hi w⟩

end Performs

/-! ## Points of the construction -/

/-- A builder at work in an open block, with operands `top` on top of those below. -/
structure Point (base : List Operand) where
  builder : Builder
  label : Label
  ops : List Op
  top : List Operand
  sound : builder.Sound
  isOpen : builder.block? label = some ⟨label, ops, none⟩
  stack : builder.stack = top ++ base

variable {base : List Operand}

namespace Point

theorem top_below (p : Point base) : ∀ v ∈ p.top, v.Below p.builder.nextResult := by
  intro v hv
  exact p.sound.below v (by rw [p.stack]; exact List.mem_append_left base hv)

theorem base_below (p : Point base) : ∀ v ∈ base, v.Below p.builder.nextResult := by
  intro v hv
  exact p.sound.below v (by rw [p.stack]; exact List.mem_append_right p.top hv)

end Point

/-- What was built up to `p` is still there at `q`, and `q` is in the same block or in a new one. -/
structure Grows (p q : Point base) : Prop where
  slots : q.builder.slots = p.builder.slots
  results : p.builder.nextResult ≤ q.builder.nextResult
  frame : ∀ l blk, l ≠ p.label → p.builder.block? l = some blk → q.builder.block? l = some blk
  here : ∃ more t, q.builder.block? p.label = some ⟨p.label, p.ops ++ more, t⟩
  place : q.label = p.label ∨ p.builder.block? q.label = none

namespace Grows

variable {p q r : Point base}

theorem refl (p : Point base) : Grows p p where
  slots := rfl
  results := Nat.le_refl _
  frame _ _ _ h := h
  here := ⟨[], none, by rw [List.append_nil]; exact p.isOpen⟩
  place := .inl rfl

/-- A block other than that of `p` is not the one in which `q` works either. -/
theorem ne_label (h : Grows p q) {l : Label} {blk : Block} (hl : l ≠ p.label)
    (hb : p.builder.block? l = some blk) : l ≠ q.label := by
  rintro rfl
  obtain hq | hq := h.place
  · exact hl hq
  · rw [hq] at hb; cases hb

theorem toExtends (h : Grows p q) : Extends p.builder.block? q.builder.block? := by
  obtain ⟨more, t, hq⟩ := h.here
  exact .of_frame p.isOpen hq h.frame

theorem trans (h : Grows p q) (h' : Grows q r) : Grows p r where
  slots := h'.slots.trans h.slots
  results := Nat.le_trans h.results h'.results
  frame l blk hl hb := h'.frame l blk (h.ne_label hl hb) (h.frame l blk hl hb)
  here := by
    obtain ⟨more, t, h₁, -⟩ := (h.toExtends.trans h'.toExtends) _ _ _ p.isOpen
    exact ⟨more, t, h₁⟩
  place := by
    obtain hr | hr := h'.place
    · rw [hr]; exact h.place
    · refine .inr ?_
      cases hp : p.builder.block? r.label with
      | none => rfl
      | some blk =>
        obtain ⟨more, t, hq, -⟩ := h.toExtends r.label blk.ops blk.terminator
          (by rw [hp, ← Builder.label_of_block? hp])
        rw [hr] at hq
        cases hq

end Grows

/-- Nothing that was built is lost in the finished function, and its phis are where they belong. -/
structure Completes (f : Func) (b : Builder) : Prop where
  keeps : Extends b.block? f.block?
  placed : ∀ l blk, f.block? l = some blk → blk.Placed

theorem Completes.of_extends {f : Func} {b b' : Builder} (h : Completes f b')
    (hb : Extends b.block? b'.block?) : Completes f b :=
  ⟨hb.trans h.keeps, h.placed⟩

/-! ## Sequences of instructions -/

/-- In a function with the operations `rest` behind those of `p`, a run from there comes to `q`, in
step with a run of the machine over `is`, and keeps the values that `p` has. -/
def Mirrors (f : Func) (p : Point base) (is : List Instr) (q : Point base) : Prop :=
  ∀ rest t s top slots, f.block? p.label = some ⟨p.label, p.ops ++ rest, t⟩ →
    Matches s p.top top slots → slots.count = p.builder.slots →
    ∃ rest' t' s' top' slots', f.block? q.label = some ⟨q.label, q.ops ++ rest', t'⟩ ∧
      f.Reaches ⟨p.label, rest, s⟩ ⟨q.label, rest', s'⟩ ∧ Matches s' q.top top' slots' ∧
      slots'.count = q.builder.slots ∧ Agree p.builder.nextResult s s' ∧
      ∀ st, Machine.Reaches ⟨top ++ st, slots⟩ is ⟨top' ++ st, slots'⟩

/-- The builder goes from `p` to `q` over `is`, and every function in which this is completed runs so
too. -/
structure Translates (p : Point base) (is : List Instr) (q : Point base) : Prop where
  lower : lower p.label p.builder is = .ok (q.label, q.builder)
  grows : Grows p q
  run : ∀ f, Completes f q.builder → Mirrors f p is q

namespace Translates

variable {p q r : Point base} {is js : List Instr}

theorem nil (p : Point base) : Translates p [] p where
  lower := by simp only [Llvm.lower]
  grows := .refl p
  run _ _ rest t s top slots hf hm hc :=
    ⟨rest, t, s, top, slots, hf, .refl _, hm, hc, .refl _ _, fun _ => .nil _⟩

theorem append (h : Translates p is q) (h' : Translates q js r) : Translates p (is ++ js) r where
  lower := by
    rw [lower_append, h.lower]
    exact h'.lower
  grows := h.grows.trans h'.grows
  run f hf rest t s top slots hp hm hc := by
    obtain ⟨rest₁, t₁, s₁, top₁, slots₁, hq, r₁, hm₁, hc₁, ha₁, hr₁⟩ :=
      h.run f (hf.of_extends h'.grows.toExtends) rest t s top slots hp hm hc
    obtain ⟨rest₂, t₂, s₂, top₂, slots₂, hr, r₂, hm₂, hc₂, ha₂, hr₂⟩ :=
      h'.run f hf rest₁ t₁ s₁ top₁ slots₁ hq hm₁ hc₁
    exact ⟨rest₂, t₂, s₂, top₂, slots₂, hr, r₁.trans r₂, hm₂, hc₂, ha₁.trans ha₂ h.grows.results,
      fun st => (hr₁ st).append (hr₂ st)⟩

end Translates

/-- An instruction that becomes operations in the same block. -/
theorem Point.exists_translates (p : Point base) {i : Instr} {new : List Op} {vs : List Operand} {k : Nat}
    (hlower : lowerInstr p.label p.builder i = .ok (p.label, p.builder.append p.label new (vs ++ base) k))
    (hnew : ∀ op ∈ new, op.isPhi = false) (hk : p.builder.nextResult ≤ k) (hvs : ∀ v ∈ vs, v.Below k)
    (hrun : Performs p.builder.slots p.builder.nextResult p.top new vs i) :
    ∃ q, Translates p [i] q ∧ q.top = vs := by
  have hstack : ∀ v ∈ vs ++ base, v.Below k := by
    intro v hv
    obtain hv | hv := List.mem_append.1 hv
    · exact hvs v hv
    · exact (p.base_below v hv).mono hk
  let q : Point base := ⟨p.builder.append p.label new (vs ++ base) k, p.label, p.ops ++ new, vs,
    p.sound.append p.isOpen hnew hstack, Builder.block?_append_cur p.isOpen, rfl⟩
  refine ⟨q, ⟨by rw [lower_singleton]; exact hlower, ?_, ?_⟩, rfl⟩
  · exact ⟨rfl, hk, fun l blk hl hb => by rw [← hb]; exact Builder.block?_append_of_ne hl,
      ⟨new, none, q.isOpen⟩, .inl rfl⟩
  · intro f hf rest t s top slots hp hm hc
    obtain ⟨s', top', slots', hexec, hm', hc', ha, hr⟩ := hrun s top slots hm hc
    -- the operations are the first of those that `f` has behind the point
    obtain ⟨rest', rfl, -⟩ := hf.keeps.rest q.isOpen hp
    rw [← List.append_assoc] at hp
    exact ⟨rest', t, s', top', slots', hp, .exec hexec, hm', hc', ha, hr⟩

section Straight

variable (p : Point base) {c no yes v : Operand} {vs : List Operand} {i : UInt32}

/-- Operands that were on the stack are below any later value. -/
theorem Point.below_of_top (hp : p.top = v :: vs) : v.Below p.builder.nextResult ∧
    ∀ u ∈ vs, u.Below p.builder.nextResult := by
  have h := p.top_below
  rw [hp] at h
  exact List.forall_mem_cons.1 h

theorem Point.stack_cons (hp : p.top = v :: vs) : p.builder.stack = v :: (vs ++ base) := by
  rw [p.stack, hp]
  rfl

theorem Point.translates_const (n : Int32) :
    ∃ q, Translates p [.const n] q ∧ q.top.length = p.top.length + 1 := by
  have hlower : lowerInstr p.label p.builder (.const n) = .ok (p.label,
      p.builder.append p.label [] ((.const n :: p.top) ++ base) p.builder.nextResult) := by
    rw [lowerInstr_const, p.stack]
    rfl
  obtain ⟨q, hq, htop⟩ := p.exists_translates hlower (fun _ h => nomatch h) (Nat.le_refl _)
    (List.forall_mem_cons.2 ⟨trivial, p.top_below⟩) (performs_const n)
  exact ⟨q, hq, by rw [htop]; rfl⟩

theorem Point.translates_select (hp : p.top = c :: no :: yes :: vs) :
    ∃ q, Translates p [.select] q ∧ q.top.length = vs.length + 1 := by
  let k := p.builder.nextResult
  obtain ⟨-, h⟩ := p.below_of_top hp
  obtain ⟨hno, h⟩ := List.forall_mem_cons.1 h
  obtain ⟨hyes, hvs⟩ := List.forall_mem_cons.1 h
  have hperf : Performs p.builder.slots k p.top [.isNonzero k c, .select (k + 1) k yes no]
      (.result (k + 1) :: vs) .select := by
    rw [hp]
    exact performs_select hyes hno hvs
  obtain ⟨q, hq, htop⟩ := p.exists_translates (lowerInstr_select (p.stack_cons hp)) (by simp [Op.isPhi])
    (by omega) (List.forall_mem_cons.2 ⟨Nat.lt_succ_self _, fun u hu => (hvs u hu).mono (by omega)⟩) hperf
  exact ⟨q, hq, by rw [htop]; rfl⟩

theorem Point.translates_get (hi : i.toNat < p.builder.slots) :
    ∃ q, Translates p [.localGet i] q ∧ q.top.length = p.top.length + 1 := by
  have hlower := lowerInstr_get p.label hi
  rw [p.stack] at hlower
  obtain ⟨q, hq, htop⟩ := p.exists_translates hlower (by simp [Op.isPhi]) (Nat.le_succ _)
    (List.forall_mem_cons.2 ⟨Nat.lt_succ_self _, fun u hu => (p.top_below u hu).mono (Nat.le_succ _)⟩)
    (performs_get hi p.top_below)
  exact ⟨q, hq, by rw [htop]; rfl⟩

theorem Point.translates_set (hp : p.top = v :: vs) (hi : i.toNat < p.builder.slots) :
    ∃ q, Translates p [.localSet i] q ∧ q.top.length = vs.length := by
  have hperf : Performs p.builder.slots p.builder.nextResult p.top [.store v i.toNat] vs (.localSet i) := by
    rw [hp]
    exact performs_set hi
  obtain ⟨q, hq, htop⟩ := p.exists_translates (lowerInstr_set (p.stack_cons hp) hi) (by simp [Op.isPhi])
    (Nat.le_refl _) (p.below_of_top hp).2 hperf
  exact ⟨q, hq, by rw [htop]⟩

end Straight

/-! ## Conditionals -/

section Arm

variable {p q : Point base} {l : Label} {blk : Block} {t : Terminator} {is : List Instr} {x : Operand}

/-- Ending an arm at `q` leaves the blocks beside it as they were at its start. -/
theorem Grows.block?_close (h : Grows p q) (hl : l ≠ p.label) (hb : p.builder.block? l = some blk) :
    (q.builder.close q.label t base).block? l = some blk := by
  rw [Builder.block?_close_of_ne (h.ne_label hl hb)]
  exact h.frame l blk hl hb

theorem Point.block?_close (q : Point base) (t : Terminator) :
    (q.builder.close q.label t base).block? q.label = some ⟨q.label, q.ops ++ [], some t⟩ := by
  rw [List.append_nil]
  exact Builder.block?_close_cur q.isOpen

theorem Point.extends_close (q : Point base) (t : Terminator) :
    Extends q.builder.block? (q.builder.close q.label t base).block? :=
  .of_frame q.isOpen (q.block?_close t) fun _ _ hl hb => (Builder.block?_close_of_ne hl).trans hb

/-- A run of an arm from its start, with nothing of its own on the stack, to its end, with one word. -/
theorem Translates.run_arm (h : Translates p is q) (hops : p.ops = []) (hp : p.top = []) (hq : q.top = [x])
    (hl : ∀ n, p.label ≠ .merge n) {f : Func} (hf : Completes f (q.builder.close q.label t base))
    {s : State} {slots : Slots} (hm : Matches s [] [] slots) (hc : slots.count = p.builder.slots)
    (source : Label) :
    ∃ c s' w slots', f.goto s source p.label = some c ∧ f.Reaches c ⟨q.label, [], s'⟩ ∧
      s'.word? x = some w ∧ Matches s' [] [] slots' ∧ slots'.count = q.builder.slots ∧
      Agree p.builder.nextResult s s' ∧ ∀ st, Machine.Reaches ⟨st, slots⟩ is ⟨w :: st, slots'⟩ := by
  have hf' : Completes f q.builder := hf.of_extends (q.extends_close t)
  obtain ⟨rest, t₀, hstart, -⟩ := (h.grows.toExtends.trans hf'.keeps) _ _ _ p.isOpen
  have hphi : ∀ op ∈ rest, op.isPhi = false := by
    have := (hf.placed _ _ hstart).arm hl
    rwa [hops] at this
  obtain ⟨rest', t', s', top', slots', hend, hr, hm', hc', ha, hs⟩ :=
    h.run f hf' rest t₀ s [] slots hstart (by rw [hp]; exact hm) hc
  -- the block in which the arm ends has its end, so nothing is left to run in it
  obtain ⟨_, rfl, hnil⟩ := hf.keeps.rest (q.block?_close t) hend
  obtain ⟨rfl, -⟩ := hnil nofun
  rw [hq] at hm'
  obtain ⟨w, top', rfl, hw, hm'⟩ := hm'.uncons
  cases top' with
  | cons _ _ => cases hm'.words
  | nil =>
    rw [hops] at hstart
    exact ⟨_, s', w, slots', Func.goto_of_noPhi hstart hphi s source, hr, hw, hm', hc', ha, hs⟩

end Arm

section Branch

variable {c y z : Operand} {vs : List Operand} {yes no : List Instr}

/-- The start of the first arm, when the condition `c` is on the stack. -/
def Point.yesArm (p : Point base) (hp : p.top = c :: vs) : Point (vs ++ base) where
  builder := p.builder.fork p.label c (vs ++ base)
  label := .yes p.builder.nextIf
  ops := []
  top := []
  sound := p.sound.fork p.isOpen fun v hv =>
    p.sound.below v (by rw [p.stack_cons hp]; exact List.mem_cons_of_mem c hv)
  isOpen := p.sound.block?_fork_new p.isOpen rfl
  stack := rfl

variable {p : Point base} {hp : p.top = c :: vs} {q₁ : Point (vs ++ base)}

/-- The start of the second arm, when the first has come to its end at `q₁`. -/
def Point.noArm (h₁ : Grows (p.yesArm hp) q₁) : Point (vs ++ base) where
  builder := q₁.builder.close q₁.label (.jump (.merge p.builder.nextIf)) (vs ++ base)
  label := .no p.builder.nextIf
  ops := []
  top := []
  sound := q₁.sound.close q₁.isOpen q₁.base_below
  isOpen := h₁.block?_close nofun (p.sound.block?_fork_new p.isOpen rfl)
  stack := rfl

variable {h₁ : Grows (p.yesArm hp) q₁} {q₂ : Point (vs ++ base)}

/-- A block beside the arms is, when both have come to their ends, as it was before them. -/
theorem block?_of_arms (h₂ : Grows (Point.noArm h₁) q₂) {l : Label} {blk : Block}
    (hyes : l ≠ .yes p.builder.nextIf) (hno : l ≠ .no p.builder.nextIf)
    (hl : (p.builder.fork p.label c (vs ++ base)).block? l = some blk) :
    (q₂.builder.close q₂.label (.jump (.merge p.builder.nextIf)) (vs ++ base)).block? l = some blk :=
  h₂.block?_close hno (h₁.block?_close hyes hl)

theorem block?_merge_of_arms (h₂ : Grows (Point.noArm h₁) q₂) :
    (q₂.builder.close q₂.label (.jump (.merge p.builder.nextIf)) (vs ++ base)).block? (.merge p.builder.nextIf) =
      some ⟨.merge p.builder.nextIf, [], none⟩ :=
  block?_of_arms h₂ nofun nofun (p.sound.block?_fork_new p.isOpen rfl)

/-- Where the arms meet, with what they have left, `y` or `z`. -/
def Point.joined (h₂ : Grows (Point.noArm h₁) q₂) (y z : Operand) : Point base where
  builder := (q₂.builder.close q₂.label (.jump (.merge p.builder.nextIf)) (vs ++ base)).join
    p.builder.nextIf y q₁.label z q₂.label
  label := .merge p.builder.nextIf
  ops := [.phi q₂.builder.nextResult y q₁.label z q₂.label]
  top := .result q₂.builder.nextResult :: vs
  sound := (q₂.sound.close q₂.isOpen q₂.base_below).join (block?_merge_of_arms h₂)
  isOpen := Builder.block?_join_merge (block?_merge_of_arms h₂)
  stack := rfl

theorem block?_joined (h₂ : Grows (Point.noArm h₁) q₂) {l : Label} {blk old : Block}
    (hold : p.builder.block? l = some old)
    (hl : (p.builder.fork p.label c (vs ++ base)).block? l = some blk) :
    (Point.joined h₂ y z).builder.block? l = some blk := by
  have hne : ∀ {l'}, l'.number = p.builder.nextIf + 1 → l ≠ l' := by
    rintro l' hl' rfl
    rw [p.sound.block?_eq_none (by omega)] at hold
    cases hold
  refine (Builder.block?_join_of_ne (hne rfl)).trans ?_
  exact block?_of_arms h₂ (hne rfl) (hne rfl) hl

theorem grows_joined (h₂ : Grows (Point.noArm h₁) q₂) : Grows p (Point.joined h₂ y z) where
  slots := h₂.slots.trans h₁.slots
  results := by
    have hyes : p.builder.nextResult + 1 ≤ q₁.builder.nextResult := h₁.results
    have hno : q₁.builder.nextResult ≤ q₂.builder.nextResult := h₂.results
    show p.builder.nextResult ≤ q₂.builder.nextResult + 1
    omega
  frame _ _ hl hb := block?_joined h₂ hb (Builder.block?_fork_old hl hb)
  here := ⟨_, _, block?_joined h₂ p.isOpen (Builder.block?_fork_cur p.isOpen)⟩
  place := .inr (p.sound.block?_eq_none (Nat.lt_succ_self _))

theorem extends_joined (h₂ : Grows (Point.noArm h₁) q₂) :
    Extends (q₂.builder.close q₂.label (.jump (.merge p.builder.nextIf)) (vs ++ base)).block?
      (Point.joined h₂ y z).builder.block? :=
  .of_frame (block?_merge_of_arms h₂) (Point.joined h₂ y z).isOpen fun _ _ hl hb =>
    (Builder.block?_join_of_ne hl).trans hb

/-- The arms end in different blocks, so the phi can tell them apart. -/
theorem ends_ne (h₂ : Grows (Point.noArm h₁) q₂) : q₂.label ≠ q₁.label := by
  have hno : (.no p.builder.nextIf : Label) ≠ q₁.label :=
    h₁.ne_label nofun (p.sound.block?_fork_new p.isOpen rfl)
  exact (h₂.ne_label hno.symm (Builder.block?_close_cur q₁.isOpen)).symm

/-- From the end of the block that forks, a run goes through the arm that the condition picks to where
the arms meet, and the phi takes what that arm has left. -/
theorem reaches_joined (t₁ : Translates (p.yesArm hp) yes q₁) (hq₁ : q₁.top = [y])
    (t₂ : Translates (Point.noArm t₁.grows) no q₂) (hq₂ : q₂.top = [z]) {f : Func}
    (hf : Completes f (Point.joined t₂.grows y z).builder) {s : State} {slots : Slots} {w : Int32}
    (hs : Matches s [] [] slots) (hc : slots.count = p.builder.slots)
    (hw : s.bit? p.builder.nextResult = some (w != 0)) :
    ∃ rest t s' v slots',
      f.block? (.merge p.builder.nextIf) = some ⟨.merge p.builder.nextIf,
        [.phi q₂.builder.nextResult y q₁.label z q₂.label] ++ rest, t⟩ ∧
      f.Reaches ⟨p.label, [], s⟩
        ⟨.merge p.builder.nextIf, rest, s'.define q₂.builder.nextResult (.word v)⟩ ∧
      Matches s' [] [] slots' ∧ slots'.count = q₂.builder.slots ∧
      Agree (p.builder.nextResult + 1) s s' ∧
      ∀ st, Machine.Reaches ⟨st, slots⟩ (if w ≠ 0 then yes else no) ⟨v :: st, slots'⟩ := by
  have hf₂ := hf.of_extends (extends_joined t₂.grows)
  have hf₁ := hf₂.of_extends (t₂.grows.toExtends.trans (q₂.extends_close _))
  have hfork := hf.keeps.closed (block?_joined t₂.grows p.isOpen (Builder.block?_fork_cur p.isOpen))
  obtain ⟨rest, t, hmerge, -⟩ := hf.keeps _ _ _ (Point.joined t₂.grows y z).isOpen
  have hphi := (hf.placed _ _ hmerge).tail
  by_cases h0 : w ≠ 0
  · obtain ⟨c', s', v, slots', hgoto, hr, hv, hm, hc', ha, hmach⟩ :=
      t₁.run_arm rfl rfl hq₁ nofun hf₁ hs hc p.label
    have hend := hf₁.keeps.closed (Builder.block?_close_cur q₁.isOpen)
    have hpick : pick q₁.label y q₁.label z q₂.label = some y := if_pos rfl
    refine ⟨rest, t, s', v, slots', hmerge, ?_, hm, hc'.trans t₂.grows.slots.symm, ha, ?_⟩
    · have hbranch := Func.reaches_branch hfork hw (by rw [if_pos (bne_iff_ne.2 h0)]; exact hgoto)
      have hjump := Func.reaches_jump hend (Func.goto_of_phi hmerge hphi hpick hv)
      exact hbranch.trans (hr.trans hjump)
    · rw [if_pos h0]; exact hmach
  · obtain ⟨c', s', v, slots', hgoto, hr, hv, hm, hc', ha, hmach⟩ :=
      t₂.run_arm rfl rfl hq₂ nofun hf₂ hs (hc.trans t₁.grows.slots.symm) p.label
    have hend := hf₂.keeps.closed (Builder.block?_close_cur q₂.isOpen)
    have hpick : pick q₂.label y q₁.label z q₂.label = some z := by
      rw [pick, if_neg (ends_ne t₂.grows), if_pos rfl]
    refine ⟨rest, t, s', v, slots', hmerge, ?_, hm, hc', fun id hid => ha id ?_, ?_⟩
    · have hbranch := Func.reaches_branch hfork hw (by rw [if_neg fun h => h0 (bne_iff_ne.1 h)]; exact hgoto)
      have hjump := Func.reaches_jump hend (Func.goto_of_phi hmerge hphi hpick hv)
      exact hbranch.trans (hr.trans hjump)
    · exact Nat.lt_of_lt_of_le hid t₁.grows.results
    · rw [if_neg h0]; exact hmach

theorem mirrors_branch (t₁ : Translates (p.yesArm hp) yes q₁) (hq₁ : q₁.top = [y])
    (t₂ : Translates (Point.noArm t₁.grows) no q₂) (hq₂ : q₂.top = [z]) {f : Func}
    (hf : Completes f (Point.joined t₂.grows y z).builder) :
    Mirrors f p [.branch yes no] (Point.joined t₂.grows y z) := by
  intro rest t s top slots hstart hm hc
  rw [hp] at hm
  obtain ⟨w, top, rfl, hw, hm⟩ := hm.uncons
  -- what is left to run in the block is the test of the condition
  obtain ⟨_, rfl, hnil⟩ :=
    hf.keeps.rest (block?_joined t₂.grows p.isOpen (Builder.block?_fork_cur p.isOpen)) hstart
  obtain ⟨rfl, rfl⟩ := hnil nofun
  let s₁ := s.define p.builder.nextResult (.bit (w != 0))
  have htest : f.Reaches ⟨p.label, [.isNonzero p.builder.nextResult c] ++ [], s⟩ ⟨p.label, [], s₁⟩ :=
    .exec (by simp [execAll, Op.exec, hw, s₁])
  have ha₁ : Agree p.builder.nextResult s s₁ := .define (Nat.le_refl _) s _
  obtain ⟨rest', t', s₂, v, slots', hmerge, hr, hm₂, hc', ha₂, hmach⟩ :=
    reaches_joined t₁ hq₁ t₂ hq₂ hf (s := s₁) ⟨rfl, hm.cells⟩ hc (s.bit?_define_self _ _)
  let s₃ := s₂.define q₂.builder.nextResult (.word v)
  have hres : p.builder.nextResult ≤ q₂.builder.nextResult :=
    Nat.le_trans (Nat.le_of_succ_le t₁.grows.results) t₂.grows.results
  have ha : Agree p.builder.nextResult s s₃ :=
    (ha₁.trans ha₂ (Nat.le_succ _)).trans (.define hres s₂ _) (Nat.le_refl _)
  have hvs : ∀ u ∈ vs, u.Below p.builder.nextResult := fun u hu =>
    p.top_below u (by rw [hp]; exact List.mem_cons_of_mem c hu)
  have hm₃ : Matches s₃ vs top slots' := hm.of_agree ha hvs ⟨rfl, hm₂.cells⟩
  exact ⟨rest', t', s₃, v :: top, slots', hmerge, htest.trans hr, hm₃.cons (s₂.word?_define_self _ _), hc', ha,
    fun st => Machine.reaches_branch (top ++ st) slots (hmach (top ++ st))⟩

theorem Translates.branch (t₁ : Translates (p.yesArm hp) yes q₁) (hq₁ : q₁.top = [y])
    (t₂ : Translates (Point.noArm t₁.grows) no q₂) (hq₂ : q₂.top = [z]) :
    Translates p [.branch yes no] (Point.joined t₂.grows y z) where
  lower := by
    rw [lower_singleton]
    have hy : q₁.builder.stack = y :: (vs ++ base) := by rw [q₁.stack, hq₁]; rfl
    have hz : q₂.builder.stack = z :: (vs ++ base) := by rw [q₂.stack, hq₂]; rfl
    exact lowerInstr_branch (p.stack_cons hp) t₁.lower hy t₂.lower hz
  grows := grows_joined t₂.grows
  run _ hf := mirrors_branch t₁ hq₁ t₂ hq₂ hf

end Branch

/-! ## Validated sequences -/

mutual

theorem exists_translates_of_depthAfter {locals : UInt32} :
    ∀ {i : Instr} {pc d : Nat} {base : List Operand} (p : Point base), p.builder.slots = locals.toNat →
      depthAfter locals pc p.top.length i = .ok d → ∃ q : Point base, Translates p [i] q ∧ q.top.length = d
  | .const n, pc, d, base, p, _, h => by
    simp only [depthAfter] at h
    cases h
    exact p.translates_const n
  | .select, pc, d, base, p, _, h => by
    obtain ⟨hd, rfl⟩ := depthAfter_select_eq_ok.1 h
    match hp : p.top, hd with
    | _ :: _ :: _ :: _, _ => exact p.translates_select hp
  | .branch yes no, pc, d, base, p, hs, h => by
    obtain ⟨hd, hy, hn, rfl⟩ := depthAfter_branch_eq_ok.1 h
    match hp : p.top, hd with
    | c :: vs, _ =>
      obtain ⟨q₁, t₁, hq₁⟩ := exists_translates_of_depthFrom (p.yesArm hp) hs hy
      obtain ⟨y, hq₁⟩ := List.length_eq_one_iff.1 hq₁
      obtain ⟨q₂, t₂, hq₂⟩ := exists_translates_of_depthFrom (Point.noArm t₁.grows) (t₁.grows.slots.trans hs) hn
      obtain ⟨z, hq₂⟩ := List.length_eq_one_iff.1 hq₂
      exact ⟨_, t₁.branch hq₁ t₂ hq₂, rfl⟩
  | .localGet i, pc, d, base, p, hs, h => by
    obtain ⟨hi, rfl⟩ := depthAfter_get_eq_ok.1 h
    exact p.translates_get (by rw [hs]; exact UInt32.lt_iff_toNat_lt.1 hi)
  | .localSet i, pc, d, base, p, hs, h => by
    obtain ⟨hi, hd, rfl⟩ := depthAfter_set_eq_ok.1 h
    match hp : p.top, hd with
    | _ :: _, _ => exact p.translates_set hp (by rw [hs]; exact UInt32.lt_iff_toNat_lt.1 hi)
  | .stop, _, _, _, _, _, h => by simp only [depthAfter] at h; cases h
  | .unknown, _, _, _, _, _, h => by simp only [depthAfter] at h; cases h

theorem exists_translates_of_depthFrom {locals : UInt32} :
    ∀ {is : List Instr} {pc d : Nat} {base : List Operand} (p : Point base), p.builder.slots = locals.toNat →
      depthFrom locals pc p.top.length is = .ok d → ∃ q : Point base, Translates p is q ∧ q.top.length = d
  | [], pc, d, base, p, _, h => by
    simp only [depthFrom] at h
    cases h
    exact ⟨p, .nil p, rfl⟩
  | i :: is, pc, d, base, p, hs, h => by
    obtain ⟨d₁, hi, his⟩ := depthFrom_cons_eq_ok.1 h
    obtain ⟨q, tq, rfl⟩ := exists_translates_of_depthAfter p hs hi
    obtain ⟨r, tr, hr⟩ := exists_translates_of_depthFrom q (tq.grows.slots.trans hs) his
    exact ⟨r, tq.append tr, hr⟩

end

/-! ## Modules -/

theorem allocations_succ (n : Nat) :
    allocations (n + 1) = allocations n ++ [.alloca n, .store (.const 0) n] := by
  simp [allocations, List.range_succ]

theorem noPhi_allocations (n : Nat) : ∀ op ∈ allocations n, op.isPhi = false := by
  intro op hop
  obtain ⟨i, -, hop⟩ := List.mem_flatMap.1 hop
  simp only [List.mem_cons, List.not_mem_nil, or_false] at hop
  obtain rfl | rfl := hop <;> rfl

/-- The slots are allocated and zeroed before anything else runs. -/
theorem exists_execAll_allocations : ∀ n : Nat,
    ∃ s, execAll .empty (allocations n) = some s ∧ Matches s [] [] (.zeros n)
  | 0 => ⟨.empty, rfl, rfl, fun _ h => absurd h (Nat.not_lt_zero _)⟩
  | n + 1 => by
    obtain ⟨s, hs, hm⟩ := exists_execAll_allocations n
    refine ⟨(s.write n none).write n (some 0), ?_, rfl, fun i hi => ?_⟩
    · rw [allocations_succ, execAll_append, hs]
      simp [execAll, Op.exec]
    · rw [State.cells_write, State.cells_write]
      by_cases hin : i = n
      · rw [if_pos hin]; rfl
      · rw [if_neg hin, if_neg hin]
        exact hm.cells i (Nat.lt_of_le_of_ne (Nat.le_of_lt_succ hi) hin)

/-- The builder of a module with its slots, before the first instruction. -/
def Builder.start (slots : Nat) : Builder := ⟨[⟨.entry, allocations slots, none⟩], slots, [], 0, 0⟩

theorem Builder.sound_start (slots : Nat) : (Builder.start slots).Sound := by
  have only : ∀ l blk, (Builder.start slots).block? l = some blk →
      l = .entry ∧ blk = ⟨.entry, allocations slots, none⟩ := by
    intro l blk h
    have hl := label_of_block? h
    have hmem := List.mem_of_find?_eq_some h
    rw [start, List.mem_singleton] at hmem
    subst hmem
    exact ⟨hl.symm, rfl⟩
  refine ⟨fun l blk h => ?_, fun l blk h => ?_, fun _ h => (nomatch h), rfl⟩
  · obtain ⟨rfl, -⟩ := only l blk h
    exact Nat.le_refl _
  · obtain ⟨-, rfl⟩ := only l blk h
    exact ⟨fun op hop => noPhi_allocations slots op (List.mem_of_mem_tail hop),
      fun _ => noPhi_allocations slots⟩

def Point.start (slots : Nat) : Point [] where
  builder := .start slots
  label := .entry
  ops := allocations slots
  top := []
  sound := Builder.sound_start slots
  isOpen := rfl
  stack := rfl

theorem ofModule_of_lower {m : Module} {l : Label} {b : Builder}
    (h : lower .entry (.start m.locals.toNat) m.body = .ok (l, b)) : ofModule m = .ok ⟨m.name, b.blocks⟩ := by
  unfold ofModule
  exact bind_eq_ok.2 ⟨(l, b), h, rfl⟩

/-- The first block of a function under construction is where it starts. -/
theorem Builder.Sound.start? {b : Builder} (hb : b.Sound) {ops : List Op} {t : Option Terminator}
    (h : b.block? .entry = some ⟨.entry, ops, t⟩) (name : Text) :
    Func.start? ⟨name, b.blocks⟩ = some ⟨.entry, ops, .empty⟩ := by
  unfold Func.start?
  rw [head?_of_first hb.first, h]
  rfl

/-- The function of a module returns what the run of the module leaves. -/
theorem returns_of_translates {slots : Nat} {is : List Instr} {q : Point []} {v : Operand}
    (hq : Translates (Point.start slots) is q) (htop : q.top = [v]) (name : Text) :
    ∃ w slots', Func.Returns ⟨name, (q.builder.close q.label (.ret v) []).blocks⟩ w ∧
      Machine.Reaches ⟨[], .zeros slots⟩ is ⟨[w], slots'⟩ := by
  let b := q.builder.close q.label (.ret v) []
  let f : Func := ⟨name, b.blocks⟩
  have hb : b.Sound := q.sound.close q.isOpen q.base_below
  have hkeeps : Extends q.builder.block? f.block? := q.extends_close (.ret v)
  have hf : Completes f q.builder := ⟨hkeeps, hb.placed⟩
  obtain ⟨rest, t, hentry, -⟩ := (hq.grows.toExtends.trans hkeeps) _ _ _ (Point.start slots).isOpen
  obtain ⟨s, hexec, hm⟩ := exists_execAll_allocations slots
  obtain ⟨rest', t', s', top, slots', hend, hr, hm', -, -, hmach⟩ :=
    hq.run f hf rest t s [] (.zeros slots) hentry hm rfl
  have hret : f.block? q.label = some ⟨q.label, q.ops ++ [], some (.ret v)⟩ := q.block?_close (.ret v)
  rw [hret, Option.some.injEq, Block.mk.injEq] at hend
  obtain rfl := List.append_cancel_left hend.2.1
  rw [htop] at hm'
  obtain ⟨w, top, rfl, hw, hm'⟩ := hm'.uncons
  cases top with
  | cons _ _ => cases hm'.words
  | nil =>
    have hrun := (Func.Reaches.exec hexec).trans hr
    exact ⟨w, slots', ⟨_, _, hb.start? hentry name, hrun, Func.step_ret hret hw⟩, hmach []⟩

/-- The translation keeps the meaning of a valid module: the module has a function, and running it
comes to a return of the word to which the module executes, and of no other. -/
theorem returns_ofModule {m : Module} (h : m.validate = .ok ()) :
    ∃ f w, ofModule m = .ok f ∧ m.execute = .ok w ∧ ∀ v, f.Returns v ↔ v = w := by
  obtain ⟨-, is, hbody, hdepth⟩ := Module.validate_eq_ok.1 h
  obtain ⟨q, hq, hlen⟩ := exists_translates_of_depthFrom (Point.start m.locals.toNat) rfl hdepth
  obtain ⟨v, htop⟩ := List.length_eq_one_iff.1 hlen
  obtain ⟨w, slots, hret, hmach⟩ := returns_of_translates hq htop m.name
  have hlower : lower .entry (.start m.locals.toNat) m.body =
      .ok (q.label, q.builder.close q.label (.ret v) []) := by
    rw [hbody, lower_append]
    refine bind_eq_ok.2 ⟨_, hq.lower, ?_⟩
    rw [lower_singleton]
    exact lowerInstr_stop (q.stack_cons htop)
  refine ⟨_, w, ofModule_of_lower hlower, ?_, fun u => ⟨fun hu => hu.unique hret, ?_⟩⟩
  · exact Module.execute_of_run h (by rw [hbody]; exact hmach.run_stop 0)
  · rintro rfl
    exact hret

/-- A slot is read before a conditional and the word used after it; in between, an arm sets the slot
and ends in another block than it starts in. -/
def crossingArms : Module where
  name := "main"
  locals := 1
  body := [.const 7, .localSet 0, .localGet 0, .const 5, .const 1,
    .branch [.const 9, .localSet 0, .localGet 0, .branch [.const 1] [.const 0]] [.const 3],
    .select, .stop]

theorem returns_crossingArms : crossingArms.validate = .ok () ∧ crossingArms.execute = .ok 7 ∧
    ∃ f, ofModule crossingArms = .ok f ∧ ∀ v, f.Returns v ↔ v = 7 := by
  obtain ⟨f, w, hf, hw, hr⟩ := returns_ofModule (m := crossingArms) rfl
  have h7 : crossingArms.execute = .ok 7 := rfl
  rw [h7] at hw
  cases hw
  exact ⟨rfl, h7, f, hf, hr⟩

end LetIf.Llvm
