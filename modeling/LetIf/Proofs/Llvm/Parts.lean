/-
What the parts of a draft have in common. Their labels, the goals of their ends and the values that they define
are counted by the number of conditionals; every part uses only values that it defines itself or that its scope
names; every end brings along what the blocks to which it leads ask for; and a part begins as an arm or as a
block where two arms meet.
-/
import LetIf.Proofs.Llvm.Draft

namespace LetIf.Llvm

open Instr

/-! ## Counting -/

/-- A list for each of `k` conditionals from `n` on. -/
def perIf {α : Type} (f : Nat → List α) (n k : Nat) : List α := (List.range' n k).flatMap f

section PerIf

variable {α : Type} (f : Nat → List α)

theorem perIf_zero (n : Nat) : perIf f n 0 = [] := rfl

theorem perIf_add (n j k : Nat) : perIf f n (j + k) = perIf f n j ++ perIf f (n + j) k := by
  rw [perIf, perIf, perIf, ← List.flatMap_append, List.range'_append_1]

theorem perIf_one (n : Nat) : perIf f n 1 = f n := by
  rw [perIf, List.range'_one, List.flatMap_singleton]

theorem mem_perIf {n k : Nat} {a : α} : a ∈ perIf f n k ↔ ∃ i, n ≤ i ∧ i < n + k ∧ a ∈ f i := by
  simp only [perIf, List.mem_flatMap, List.mem_range'_1, and_assoc]

end PerIf

/-- The labels to which the blocks of a conditional lead, and which lead there. -/
def Label.goals (n : Nat) : List Label := [.yes n, .no n, .merge n, .merge n]

def Part.goals (c : Part) : List Label := c.terminator.toList.flatMap Terminator.goals

/-- An end leads to its goals. -/
theorem Part.edge {f : Func} {c : Part} {goal : Label} (hc : c.block ∈ f.blocks) (hgoal : goal ∈ c.goals) :
    f.Edge c.label goal := by
  obtain ⟨t, ht, hgoal⟩ := List.mem_flatMap.1 hgoal
  exact ⟨_, hc, rfl, t, Option.mem_toList.1 ht, hgoal⟩

/-- The values that the operations of a block define. -/
def Part.results (c : Part) : List Nat := definedBy (c.head ++ c.body)

theorem Part.values_eq (c : Part) : c.values = c.scope ++ c.results := rfl

section Results

variable (p : Front) (c : Operand) (below : List Operand)

theorem Front.results_emit (new : List Op) (st : List Operand) (n : Nat) :
    (p.emit new st n).part.results = p.part.results ++ definedBy new := by
  rw [Part.results, Part.results, Front.emit, ← List.append_assoc, definedBy_append]

theorem Front.results_forked : (p.forked c).results = p.part.results ++ [p.nextResult] := by
  rw [Part.results, Part.results, Front.forked, ← List.append_assoc, definedBy_append]
  rfl

theorem Front.results_joined (q₁ q₂ : Front) (y z : Operand) :
    (p.joined c below q₁ q₂ y z).part.results = [q₂.nextResult] := rfl

end Results

theorem Emits.results {slots k n : Nat} {st st' : List Operand} {i : Instr} {new : List Op}
    (h : Emits slots k st i new st' n) : definedBy new = List.range' k n := by
  cases h <;> rfl

namespace Drafts

variable {slots : Nat} {p q : Front} {is : List Instr} {closed : List Part}

theorem conditionals_of_emits {k n : Nat} {st st' : List Operand} {i : Instr} {new : List Op}
    (h : Emits slots k st i new st' n) : conditionalsAll [i] = 0 := by
  cases h <;> rfl

theorem nextIf (h : Drafts slots p is closed q) : q.nextIf = p.nextIf + conditionalsAll is := by
  induction h with
  | nil => rfl
  | emit h => rw [conditionals_of_emits h]; rfl
  | append _ _ ih ih' => rw [ih', ih, conditionalsAll_append, Nat.add_assoc]
  | branch _ _ _ _ _ ih₁ ih₂ =>
    simp only [Front.yesArm] at ih₁
    simp only [Front.noArm] at ih₂
    simp only [Front.joined, conditionalsAll_singleton, conditionals]
    omega

/-- The blocks are those that were there and three for every conditional. -/
theorem labels (h : Drafts slots p is closed q) :
    ((q.part :: closed).map Part.label).Perm (p.part.label :: perIf Label.parts p.nextIf (conditionalsAll is)) := by
  rw [List.perm_iff_count]
  intro l
  induction h with
  | nil => rfl
  | emit h => rw [conditionals_of_emits h]; rfl
  | append h _ ih ih' =>
    rw [h.nextIf] at ih'
    simp only [conditionalsAll_append, perIf_add, List.map_cons, List.map_append, List.count_cons,
      List.count_append] at *
    omega
  | branch _ h₁ _ _ _ ih₁ ih₂ =>
    have hnext := h₁.nextIf
    simp only [Front.yesArm, Front.noArm, Front.joined, Front.forked, Front.ended, Part.close] at *
    rw [hnext] at ih₂
    simp only [conditionalsAll_singleton, conditionals, Nat.add_assoc, perIf_one, perIf_add, Label.parts,
      List.map_cons, List.map_append, List.map_nil, List.count_cons, List.count_append, List.count_nil] at *
    omega

/-- The ends lead to the arms of every conditional once, and to where they meet twice. -/
theorem goals (h : Drafts slots p is closed q) :
    (closed.flatMap Part.goals).Perm (perIf Label.goals p.nextIf (conditionalsAll is)) := by
  rw [List.perm_iff_count]
  intro l
  induction h with
  | nil => rfl
  | emit h => rw [conditionals_of_emits h]; rfl
  | append h _ ih ih' =>
    rw [h.nextIf] at ih'
    simp only [conditionalsAll_append, perIf_add, List.flatMap_append, List.count_append] at *
    omega
  | branch _ h₁ _ _ _ ih₁ ih₂ =>
    have hnext := h₁.nextIf
    simp only [Front.yesArm, Front.noArm, Front.forked, Front.ended, Part.close] at *
    rw [hnext] at ih₂
    simp only [conditionalsAll_singleton, conditionals, Nat.add_assoc, perIf_one, perIf_add, Label.goals,
      List.flatMap_cons, List.flatMap_append, List.flatMap_nil, Part.goals, Option.toList_some, Terminator.goals,
      List.count_cons, List.count_append, List.count_nil] at *
    omega

/-- The values are those that were there and a run of new ones. -/
theorem results (h : Drafts slots p is closed q) : ∃ n, q.nextResult = p.nextResult + n ∧
    ((q.part :: closed).flatMap Part.results).Perm (p.part.results ++ List.range' p.nextResult n) := by
  induction h with
  | nil p => exact ⟨0, rfl, by simp⟩
  | @emit p i new st n h =>
    refine ⟨n, rfl, .of_eq ?_⟩
    rw [List.flatMap_singleton, Front.results_emit, h.results]
  | @append p q r _ _ closed closed' _ _ ih ih' =>
    obtain ⟨n, hq, hn⟩ := ih
    obtain ⟨m, hr, hm⟩ := ih'
    refine ⟨n + m, by omega, ?_⟩
    rw [← List.range'_append_1, ← hq]
    rw [List.perm_iff_count] at *
    intro id
    have hn := hn id
    have hm := hm id
    simp only [List.flatMap_cons, List.flatMap_append, List.count_append] at *
    omega
  | @branch p q₁ q₂ _ _ closed₁ closed₂ c y z below _ _ _ _ _ ih₁ ih₂ =>
    obtain ⟨n, hq₁, hn⟩ := ih₁
    obtain ⟨m, hq₂, hm⟩ := ih₂
    have hq₁ : q₁.nextResult = p.nextResult + 1 + n := hq₁
    have hq₂ : q₂.nextResult = q₁.nextResult + m := hq₂
    have hn : ((q₁.ended p.nextIf :: closed₁).flatMap Part.results).Perm (List.range' (p.nextResult + 1) n) := hn
    have hm : ((q₂.ended p.nextIf :: closed₂).flatMap Part.results).Perm (List.range' q₁.nextResult m) := hm
    -- the test comes first, then the arms, one after the other, and the phi last
    have hrun : List.range' p.nextResult (1 + (n + (m + 1))) = p.nextResult ::
        (List.range' (p.nextResult + 1) n ++ (List.range' q₁.nextResult m ++ [q₂.nextResult])) := by
      rw [hq₂, hq₁]
      simp only [← List.range'_append_1, List.range'_one, List.singleton_append]
    refine ⟨1 + (n + (m + 1)), by simp only [Front.joined]; omega, ?_⟩
    rw [hrun]
    rw [List.perm_iff_count] at *
    intro id
    have hn := hn id
    have hm := hm id
    simp only [List.flatMap_cons, List.flatMap_append, List.flatMap_nil, List.count_append, List.count_cons,
      List.count_nil, Front.results_forked, Front.results_joined] at *
    omega

end Drafts

/-! ## Values in scope -/

/-- The operations use what is there before them, and what those before them define. -/
def Ordered (there : List Nat) : List Op → Prop
  | [] => True
  | op :: ops => (∀ id ∈ op.uses, id ∈ there) ∧ Ordered (there ++ op.result?.toList) ops

theorem ordered_append {ops' : List Op} : ∀ {ops : List Op} {there : List Nat},
    Ordered there (ops ++ ops') ↔ Ordered there ops ∧ Ordered (there ++ definedBy ops) ops'
  | [], there => by simp [Ordered, definedBy]
  | op :: ops, there => by
    have hdefined : definedBy (op :: ops) = op.result?.toList ++ definedBy ops := by
      rw [← List.singleton_append, definedBy_append]
      cases h : op.result? <;> simp [definedBy, h]
    rw [List.cons_append, Ordered, Ordered, ordered_append, hdefined, List.append_assoc, and_assoc]

/-- The values in an operand are among these. -/
def Operand.Within (there : List Nat) (v : Operand) : Prop := ∀ id ∈ v.uses, id ∈ there

theorem Operand.Within.mono {there there' : List Nat} {v : Operand} (h : v.Within there)
    (hsub : ∀ id ∈ there, id ∈ there') : v.Within there' :=
  fun id hid => hsub id (h id hid)

theorem Operand.within_result {there : List Nat} {id : Nat} (h : id ∈ there) : (Operand.result id).Within there :=
  List.forall_mem_singleton.2 h

/-- What instructions put into a block: no allocations and no phis, and only slots that there are. -/
structure Op.IsPlain (slots : Nat) (op : Op) : Prop where
  noPhi : op.isPhi = false
  noAlloca : op.allocated? = none
  slot : ∀ i, op.slot? = some i → i < slots

theorem Op.isPlain_isNonzero (slots id : Nat) (v : Operand) : (Op.isNonzero id v).IsPlain slots :=
  ⟨rfl, rfl, fun _ h => by cases h⟩

namespace Emits

variable {slots k n : Nat} {st st' : List Operand} {i : Instr} {new : List Op} {there : List Nat}

theorem isPlain (h : Emits slots k st i new st' n) : ∀ op ∈ new, op.IsPlain slots := by
  cases h with
  | const => exact List.forall_mem_nil _
  | select =>
    refine List.forall_mem_cons.2 ⟨Op.isPlain_isNonzero .., List.forall_mem_singleton.2 ⟨rfl, rfl, fun _ h => ?_⟩⟩
    cases h
  | get _ hi | set _ _ hi =>
    refine List.forall_mem_singleton.2 ⟨rfl, rfl, fun _ h => ?_⟩
    cases h
    exact hi

/-- The operations use what the stack holds, and the stack holds then what there is and what they define. -/
theorem within (h : Emits slots k st i new st' n) (hst : ∀ v ∈ st, v.Within there) :
    Ordered there new ∧ ∀ v ∈ st', v.Within (there ++ definedBy new) := by
  have mono (ids : List Nat) {v : Operand} (h : v.Within there) : v.Within (there ++ ids) :=
    h.mono fun id hid => List.mem_append_left _ hid
  cases h with
  | const st m =>
    refine ⟨trivial, List.forall_mem_cons.2 ⟨?_, fun v hv => mono [] (hst v hv)⟩⟩
    exact List.forall_mem_nil _
  | select c no yes st =>
    simp only [List.forall_mem_cons] at hst
    obtain ⟨hc, hno, hyes, hst⟩ := hst
    refine ⟨⟨hc, ?_, trivial⟩, List.forall_mem_cons.2 ⟨Operand.within_result ?_, fun v hv => mono _ (hst v hv)⟩⟩
    · refine List.forall_mem_cons.2 ⟨?_, List.forall_mem_append.2 ⟨mono _ hyes, mono _ hno⟩⟩
      exact List.mem_append_right _ (List.mem_singleton_self k)
    · exact List.mem_append_right _ (List.mem_cons_of_mem _ (List.mem_singleton_self _))
  | get st hi =>
    refine ⟨⟨List.forall_mem_nil _, trivial⟩, List.forall_mem_cons.2 ⟨Operand.within_result ?_, fun v hv => ?_⟩⟩
    · exact List.mem_append_right _ (List.mem_singleton_self k)
    · exact mono _ (hst v hv)
  | set v st hi =>
    obtain ⟨hv, hst⟩ := List.forall_mem_cons.1 hst
    exact ⟨⟨hv, trivial⟩, fun u hu => mono _ (hst u hu)⟩

end Emits

/-- The operations of a block are plain behind its head, and everything in it uses what is there. -/
structure Part.Tidy (slots : Nat) (c : Part) : Prop where
  plain : ∀ op ∈ c.body, op.IsPlain slots
  ordered : Ordered c.scope (c.head ++ c.body)
  atEnd : ∀ t, c.terminator = some t → ∀ id ∈ t.uses, id ∈ c.values

structure Front.Tidy (slots : Nat) (p : Front) : Prop where
  part : p.part.Tidy slots
  isOpen : p.part.terminator = none
  stack : ∀ v ∈ p.stack, v.Within p.part.values

namespace Front

variable {slots : Nat} {p q q₁ q₂ : Front} {c y z : Operand} {below : List Operand}

theorem values_emit (p : Front) (new : List Op) (st : List Operand) (n : Nat) :
    (p.emit new st n).part.values = p.part.values ++ definedBy new := by
  rw [Part.values_eq, Part.values_eq, results_emit, ← List.append_assoc]
  rfl

theorem values_forked (p : Front) (c : Operand) : (p.forked c).values = p.part.values ++ [p.nextResult] := by
  rw [Part.values_eq, Part.values_eq, results_forked, ← List.append_assoc]
  rfl

theorem values_joined (p : Front) (c : Operand) (below : List Operand) (q₁ q₂ : Front) (y z : Operand) :
    (p.joined c below q₁ q₂ y z).part.values = (p.forked c).values ++ [q₂.nextResult] := rfl

namespace Tidy

theorem emit (hp : p.Tidy slots) {i : Instr} {new : List Op} {st : List Operand} {n : Nat}
    (h : Emits slots p.nextResult p.stack i new st n) : (p.emit new st n).Tidy slots := by
  obtain ⟨hnew, hst⟩ := h.within hp.stack
  refine ⟨⟨List.forall_mem_append.2 ⟨hp.part.plain, h.isPlain⟩, ?_, fun t ht => ?_⟩, hp.isOpen, ?_⟩
  · show Ordered p.part.scope (p.part.head ++ (p.part.body ++ new))
    rw [← List.append_assoc]
    exact ordered_append.2 ⟨hp.part.ordered, hnew⟩
  · cases hp.isOpen.symm.trans ht
  · rw [values_emit]
    exact hst

theorem forked (hp : p.Tidy slots) (hc : p.stack = c :: below) : (p.forked c).Tidy slots := by
  refine ⟨List.forall_mem_append.2 ⟨hp.part.plain, List.forall_mem_singleton.2 (Op.isPlain_isNonzero ..)⟩, ?_, ?_⟩
  · show Ordered p.part.scope (p.part.head ++ (p.part.body ++ [.isNonzero p.nextResult c]))
    rw [← List.append_assoc]
    exact ordered_append.2 ⟨hp.part.ordered, hp.stack c (by rw [hc]; exact List.mem_cons_self), trivial⟩
  · intro t ht
    cases ht
    rw [values_forked]
    exact List.forall_mem_singleton.2 (List.mem_append_right _ (List.mem_singleton_self _))

/-- What is below the condition on the stack is there in the arms, and where they meet. -/
theorem stack_below (hp : p.Tidy slots) (hc : p.stack = c :: below) : ∀ v ∈ below, v.Within (p.forked c).values := by
  intro v hv
  rw [values_forked]
  exact (hp.stack v (by rw [hc]; exact List.mem_cons_of_mem c hv)).mono fun id hid => List.mem_append_left _ hid

theorem arm (hp : p.Tidy slots) (hc : p.stack = c :: below) (l : Label) (k n : Nat) :
    Front.Tidy slots ⟨⟨l, [], [], (p.forked c).values, none⟩, below, k, n⟩ := by
  refine ⟨⟨List.forall_mem_nil _, trivial, fun t ht => by cases ht⟩, rfl, fun v hv => ?_⟩
  exact (hp.stack_below hc v hv).mono fun id hid => List.mem_append_left _ hid

theorem ended (hq : q.Tidy slots) (n : Nat) : (q.ended n).Tidy slots := by
  refine ⟨hq.part.plain, hq.part.ordered, fun t ht => ?_⟩
  cases ht
  exact List.forall_mem_nil _

theorem joined (hp : p.Tidy slots) (hc : p.stack = c :: below) : (p.joined c below q₁ q₂ y z).Tidy slots := by
  refine ⟨⟨List.forall_mem_nil _, ⟨List.forall_mem_nil _, trivial⟩, fun t ht => by cases ht⟩, rfl, ?_⟩
  rw [values_joined]
  refine List.forall_mem_cons.2 ⟨Operand.within_result ?_, fun v hv => ?_⟩
  · exact List.mem_append_right _ (List.mem_singleton_self _)
  · exact (hp.stack_below hc v hv).mono fun id hid => List.mem_append_left _ hid

end Tidy

end Front

/-! ## Ways between blocks -/

/-- Among the parts is a block with the label, which asks for no more values than these. -/
def Enters (parts : List Part) (l : Label) (there : List Nat) : Prop :=
  ∃ c ∈ parts, c.label = l ∧ ∀ id ∈ c.scope, id ∈ there

theorem Enters.mono {parts parts' : List Part} {l : Label} {there : List Nat} (h : Enters parts l there)
    (hsub : ∀ c ∈ parts, ∃ c' ∈ parts', c'.label = c.label ∧ c'.scope = c.scope) : Enters parts' l there := by
  obtain ⟨c, hc, rfl, hscope⟩ := h
  obtain ⟨c', hc', hl, hs⟩ := hsub c hc
  exact ⟨c', hc', hl, by rw [hs]; exact hscope⟩

/-- What building adds to the blocks that it has: arms that begin with nothing, and blocks that begin with a
phi, which takes what the ends of two blocks bring, and both of these lead there. -/
inductive Begins (closed : List Part) (c : Part) : Prop
  | arm {n : Nat} (hl : c.label = .yes n ∨ c.label = .no n) (hhead : c.head = [])
  | merge {n id : Nat} {y z : Operand} {c₁ c₂ : Part} (hl : c.label = .merge n)
      (hhead : c.head = [.phi id y c₁.label z c₂.label]) (h₁ : c₁ ∈ closed) (h₂ : c₂ ∈ closed)
      (hne : c₁.label ≠ c₂.label) (hgoal₁ : .merge n ∈ c₁.goals) (hgoal₂ : .merge n ∈ c₂.goals)
      (hy : y.Within c₁.values) (hz : z.Within c₂.values)

theorem Begins.of_eq {closed closed' : List Part} {c c' : Part} (h : Begins closed c) (hl : c'.label = c.label)
    (hhead : c'.head = c.head) (hsub : ∀ c ∈ closed, c ∈ closed') : Begins closed' c' := by
  cases h with
  | arm hlabel hnil => exact .arm (by rwa [hl]) (by rwa [hhead])
  | merge hlabel hphi h₁ h₂ hne hgoal₁ hgoal₂ hy hz =>
    exact .merge (hl.trans hlabel) (hhead.trans hphi) (hsub _ h₁) (hsub _ h₂) hne hgoal₁ hgoal₂ hy hz

namespace Drafts

variable {slots : Nat} {p q : Front} {is : List Instr} {closed : List Part}

theorem tidy (h : Drafts slots p is closed q) (hp : p.Tidy slots) :
    q.Tidy slots ∧ ∀ c ∈ closed, c.Tidy slots := by
  induction h with
  | nil p => exact ⟨hp, List.forall_mem_nil _⟩
  | emit h => exact ⟨hp.emit h, List.forall_mem_nil _⟩
  | append _ _ ih ih' =>
    obtain ⟨hq, hclosed⟩ := ih hp
    obtain ⟨hr, hclosed'⟩ := ih' hq
    exact ⟨hr, List.forall_mem_append.2 ⟨hclosed, hclosed'⟩⟩
  | branch hc _ _ _ _ ih₁ ih₂ =>
    obtain ⟨hq₁, hclosed₁⟩ := ih₁ (hp.arm hc _ _ _)
    obtain ⟨hq₂, hclosed₂⟩ := ih₂ (hp.arm hc _ _ _)
    simp only [List.forall_mem_cons, List.forall_mem_append]
    exact ⟨hp.joined hc, hp.forked hc, hclosed₁, hq₁.ended _, hclosed₂, hq₂.ended _, List.forall_mem_nil _⟩

/-- All ends are there, and none of them returns. -/
theorem ends (h : Drafts slots p is closed q) : ∀ c ∈ closed, ∃ t, c.terminator = some t ∧ ∀ v, t ≠ .ret v := by
  induction h with
  | nil | emit => exact List.forall_mem_nil _
  | append _ _ ih ih' => exact List.forall_mem_append.2 ⟨ih, ih'⟩
  | branch _ _ _ _ _ ih₁ ih₂ =>
    simp only [List.forall_mem_cons, List.forall_mem_append]
    refine ⟨⟨_, rfl, fun v h => ?_⟩, ih₁, ⟨_, rfl, fun v h => ?_⟩, ih₂, ⟨_, rfl, fun v h => ?_⟩, ?_⟩
    · cases h
    · cases h
    · cases h
    · exact List.forall_mem_nil _

/-- No value gets lost. -/
theorem values_mono (h : Drafts slots p is closed q) : ∀ id ∈ p.part.values, id ∈ q.part.values := by
  induction h with
  | nil => exact fun _ hid => hid
  | emit =>
    intro id hid
    rw [Front.values_emit]
    exact List.mem_append_left _ hid
  | append _ _ ih ih' => exact fun id hid => ih' id (ih id hid)
  | branch =>
    intro id hid
    rw [Front.values_joined, Front.values_forked]
    exact List.mem_append_left _ (List.mem_append_left _ hid)

/-- The block of the first front is among the closed ones, or that of the last. -/
theorem start (h : Drafts slots p is closed q) :
    ∃ c ∈ q.part :: closed, c.label = p.part.label ∧ c.scope = p.part.scope := by
  induction h with
  | nil p => exact ⟨p.part, List.mem_cons_self, rfl, rfl⟩
  | @emit p i new st n h => exact ⟨(p.emit new st n).part, List.mem_cons_self, rfl, rfl⟩
  | @append p q r _ _ closed closed' _ _ ih ih' =>
    obtain ⟨c, hc, hl, hs⟩ := ih
    obtain rfl | hc := List.mem_cons.1 hc
    · obtain ⟨c', hc', hl', hs'⟩ := ih'
      refine ⟨c', ?_, hl'.trans hl, hs'.trans hs⟩
      exact (List.mem_cons.1 hc').elim (fun h => by rw [h]; exact List.mem_cons_self) fun h =>
        List.mem_cons_of_mem _ (List.mem_append_right _ h)
    · exact ⟨c, List.mem_cons_of_mem _ (List.mem_append_left _ hc), hl, hs⟩
  | @branch p q₁ q₂ _ _ closed₁ closed₂ c =>
    exact ⟨p.forked c, List.mem_cons_of_mem _ List.mem_cons_self, rfl, rfl⟩

/-- Every end leads to blocks that ask for no other values than are there. -/
theorem goes (h : Drafts slots p is closed q) :
    ∀ c ∈ closed, ∀ goal ∈ c.goals, Enters (q.part :: closed) goal c.values := by
  induction h with
  | nil | emit => exact List.forall_mem_nil _
  | @append p q r _ _ closed closed' h h' ih ih' =>
    refine List.forall_mem_append.2 ⟨fun c hc goal hgoal => (ih c hc goal hgoal).mono ?_, fun c hc goal hgoal =>
      (ih' c hc goal hgoal).mono ?_⟩
    · refine List.forall_mem_cons.2 ⟨?_, fun c hc => ⟨c, by simp [hc], rfl, rfl⟩⟩
      obtain ⟨c, hc, hl, hs⟩ := h'.start
      exact ⟨c, by grind, hl, hs⟩
    · exact fun c hc => ⟨c, by grind, rfl, rfl⟩
  | @branch p q₁ q₂ _ _ closed₁ closed₂ c y z below hc h₁ hy h₂ hz ih₁ ih₂ =>
    let parts := (p.joined c below q₁ q₂ y z).part ::
      p.forked c :: (closed₁ ++ q₁.ended p.nextIf :: (closed₂ ++ [q₂.ended p.nextIf]))
    have hsub₁ : ∀ c ∈ q₁.part :: closed₁, ∃ c' ∈ parts, c'.label = c.label ∧ c'.scope = c.scope :=
      List.forall_mem_cons.2
        ⟨⟨q₁.ended p.nextIf, by simp [parts], rfl, rfl⟩, fun c hc => ⟨c, by simp [parts, hc], rfl, rfl⟩⟩
    have hsub₂ : ∀ c ∈ q₂.part :: closed₂, ∃ c' ∈ parts, c'.label = c.label ∧ c'.scope = c.scope :=
      List.forall_mem_cons.2
        ⟨⟨q₂.ended p.nextIf, by simp [parts], rfl, rfl⟩, fun c hc => ⟨c, by simp [parts, hc], rfl, rfl⟩⟩
    have hyes : Enters parts (.yes p.nextIf) (p.forked c).values := by
      obtain ⟨c', hc', hl, hs⟩ := h₁.start
      exact Enters.mono ⟨c', hc', hl, fun id hid => by rwa [hs] at hid⟩ hsub₁
    have hno : Enters parts (.no p.nextIf) (p.forked c).values := by
      obtain ⟨c', hc', hl, hs⟩ := h₂.start
      exact Enters.mono ⟨c', hc', hl, fun id hid => by rwa [hs] at hid⟩ hsub₂
    have hmerge (there : List Nat) (hthere : ∀ id ∈ (p.forked c).values, id ∈ there) :
        Enters parts (.merge p.nextIf) there :=
      ⟨(p.joined c below q₁ q₂ y z).part, List.mem_cons_self, rfl, hthere⟩
    simp only [List.forall_mem_cons, List.forall_mem_append]
    refine ⟨?_, fun c hc goal hgoal => (ih₁ c hc goal hgoal).mono hsub₁, ?_,
      fun c hc goal hgoal => (ih₂ c hc goal hgoal).mono hsub₂, ?_, List.forall_mem_nil _⟩
    · exact List.forall_mem_cons.2 ⟨hyes, List.forall_mem_singleton.2 hno⟩
    · refine List.forall_mem_singleton.2 (hmerge _ fun id hid => h₁.values_mono id (List.mem_append_left _ hid))
    · refine List.forall_mem_singleton.2 (hmerge _ fun id hid => h₂.values_mono id (List.mem_append_left _ hid))

/-- The blocks in which the arms of a conditional end are different. -/
theorem label_ne {slots : Nat} {p q₁ q₂ : Front} {c : Operand} {below : List Operand} {yes no : List Instr}
    {closed₁ closed₂ : List Part} (h₁ : Drafts slots (p.yesArm c below) yes closed₁ q₁)
    (h₂ : Drafts slots (p.noArm c below q₁) no closed₂ q₂) : q₁.part.label ≠ q₂.part.label := by
  intro heq
  have hnext : q₁.nextIf = p.nextIf + 1 + conditionalsAll yes := h₁.nextIf
  have hl₁ : q₁.part.label ∈ .yes p.nextIf :: perIf Label.parts (p.nextIf + 1) (conditionalsAll yes) :=
    h₁.labels.mem_iff.1 List.mem_cons_self
  have hl₂ : q₂.part.label ∈ .no p.nextIf :: perIf Label.parts q₁.nextIf (conditionalsAll no) :=
    h₂.labels.mem_iff.1 List.mem_cons_self
  rw [← heq] at hl₂
  -- the conditionals of the one arm are numbered behind those of the other
  obtain hl₁ | hl₁ := List.mem_cons.1 hl₁ <;> obtain hl₂ | hl₂ := List.mem_cons.1 hl₂
  · cases hl₁.symm.trans hl₂
  · obtain ⟨i, hi, -, hmem⟩ := (mem_perIf _).1 hl₂
    have hnumber := Label.number_of_mem_parts hmem
    rw [hl₁, Label.number] at hnumber
    omega
  · obtain ⟨i, hi, -, hmem⟩ := (mem_perIf _).1 hl₁
    have hnumber := Label.number_of_mem_parts hmem
    rw [hl₂, Label.number] at hnumber
    omega
  · obtain ⟨i, -, hi, hmem⟩ := (mem_perIf _).1 hl₁
    obtain ⟨j, hj, -, hmem'⟩ := (mem_perIf _).1 hl₂
    have hnumber := (Label.number_of_mem_parts hmem).symm.trans (Label.number_of_mem_parts hmem')
    omega

/-- A block begins as the one in which building started, or in one of the ways in which it begins blocks. -/
theorem begins (h : Drafts slots p is closed q) (hp : p.Tidy slots) :
    ∀ c ∈ q.part :: closed, c.label = p.part.label ∧ c.head = p.part.head ∨ Begins closed c := by
  induction h with
  | nil p => exact List.forall_mem_singleton.2 (.inl ⟨rfl, rfl⟩)
  | emit => exact List.forall_mem_singleton.2 (.inl ⟨rfl, rfl⟩)
  | @append p q r _ _ closed closed' h h' ih ih' =>
    have ih' := ih' (h.tidy hp).1
    obtain ⟨hq, hclosed⟩ := List.forall_mem_cons.1 (ih hp)
    have hold : ∀ c, c.label = q.part.label ∧ c.head = q.part.head ∨ Begins closed' c →
        c.label = p.part.label ∧ c.head = p.part.head ∨ Begins (closed ++ closed') c := by
      rintro c (⟨hl, hhead⟩ | hc)
      · obtain ⟨hl', hhead'⟩ | hq := hq
        · exact .inl ⟨hl.trans hl', hhead.trans hhead'⟩
        · exact .inr (hq.of_eq hl hhead fun _ => List.mem_append_left _)
      · exact .inr (hc.of_eq rfl rfl fun _ => List.mem_append_right _)
    obtain ⟨hr, hclosed'⟩ := List.forall_mem_cons.1 ih'
    refine List.forall_mem_cons.2 ⟨hold _ hr, List.forall_mem_append.2 ⟨fun c hc => ?_, fun c hc => ?_⟩⟩
    · exact (hclosed c hc).imp_right fun h => h.of_eq rfl rfl fun _ => List.mem_append_left _
    · exact hold c (hclosed' c hc)
  | @branch p q₁ q₂ _ _ closed₁ closed₂ c y z below hc h₁ hy h₂ hz ih₁ ih₂ =>
    have hq₁ := (h₁.tidy (hp.arm hc _ _ _)).1
    have hq₂ := (h₂.tidy (hp.arm hc _ _ _)).1
    obtain ⟨hend₁, hclosed₁⟩ := List.forall_mem_cons.1 (ih₁ (hp.arm hc _ _ _))
    obtain ⟨hend₂, hclosed₂⟩ := List.forall_mem_cons.1 (ih₂ (hp.arm hc _ _ _))
    let closed := p.forked c :: (closed₁ ++ q₁.ended p.nextIf :: (closed₂ ++ [q₂.ended p.nextIf]))
    have hyes : ∀ c' : Part, c'.label = .yes p.nextIf ∧ c'.head = [] ∨ Begins closed₁ c' → Begins closed c' := by
      rintro c' (⟨hl, hhead⟩ | h)
      · exact .arm (.inl hl) hhead
      · exact h.of_eq rfl rfl fun _ h => by simp [closed, h]
    have hno : ∀ c' : Part, c'.label = .no p.nextIf ∧ c'.head = [] ∨ Begins closed₂ c' → Begins closed c' := by
      rintro c' (⟨hl, hhead⟩ | h)
      · exact .arm (.inr hl) hhead
      · exact h.of_eq rfl rfl fun _ h => by simp [closed, h]
    have hmerge : Begins closed (p.joined c below q₁ q₂ y z).part := by
      have hhead : (p.joined c below q₁ q₂ y z).part.head =
          [.phi q₂.nextResult y (q₁.ended p.nextIf).label z (q₂.ended p.nextIf).label] := rfl
      refine .merge rfl hhead (by simp [closed]) (by simp [closed]) (label_ne h₁ h₂) ?_ ?_ ?_ ?_
      · exact List.mem_singleton_self _
      · exact List.mem_singleton_self _
      · exact hq₁.stack y (by rw [hy]; exact List.mem_cons_self)
      · exact hq₂.stack z (by rw [hz]; exact List.mem_cons_self)
    simp only [List.forall_mem_cons, List.forall_mem_append]
    refine ⟨.inr hmerge, .inl ⟨rfl, rfl⟩, fun c' hc' => .inr (hyes c' (hclosed₁ c' hc')), .inr ?_,
      fun c' hc' => .inr (hno c' (hclosed₂ c' hc')), .inr ?_, List.forall_mem_nil _⟩
    · exact (hyes _ hend₁).of_eq rfl rfl fun _ h => h
    · exact (hno _ hend₂).of_eq rfl rfl fun _ h => h

/-- Control comes to every block, if it comes to the first. -/
theorem reached {f : Func} (h : Drafts slots p is closed q) (hf : ∀ c ∈ closed, c.block ∈ f.blocks)
    (hp : ∃ path, f.Walk p.part.label path) : ∀ c ∈ q.part :: closed, ∃ path, f.Walk c.label path := by
  have step {c : Part} {goal : Label} (hc : c.block ∈ f.blocks) (hgoal : goal ∈ c.goals)
      (hwalk : ∃ path, f.Walk c.label path) : ∃ path, f.Walk goal path := by
    obtain ⟨path, hpath⟩ := hwalk
    exact ⟨_, .step hpath (c.edge hc hgoal)⟩
  induction h with
  | nil => exact List.forall_mem_singleton.2 hp
  | emit => exact List.forall_mem_singleton.2 hp
  | append _ _ ih ih' =>
    obtain ⟨hclosed, hclosed'⟩ := List.forall_mem_append.1 hf
    obtain ⟨hq, hparts⟩ := List.forall_mem_cons.1 (ih hclosed hp)
    obtain ⟨hr, hparts'⟩ := List.forall_mem_cons.1 (ih' hclosed' hq)
    exact List.forall_mem_cons.2 ⟨hr, List.forall_mem_append.2 ⟨hparts, hparts'⟩⟩
  | branch _ _ _ _ _ ih₁ ih₂ =>
    simp only [List.forall_mem_cons, List.forall_mem_append] at hf ih₁ ih₂ ⊢
    obtain ⟨hfork, hclosed₁, hend₁, hclosed₂, -⟩ := hf
    obtain ⟨hq₁, hparts₁⟩ := ih₁ hclosed₁ (step hfork List.mem_cons_self hp)
    obtain ⟨hq₂, hparts₂⟩ := ih₂ hclosed₂ (step hfork (List.mem_cons_of_mem _ (List.mem_singleton_self _)) hp)
    exact ⟨step hend₁ (List.mem_singleton_self _) hq₁, hp, hparts₁, hq₁, hparts₂, hq₂, List.forall_mem_nil _⟩

end Drafts

end LetIf.Llvm
