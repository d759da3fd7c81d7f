/-
The built-in engine conforms to the standard. It reads what is in the binary format; it finds valid what is valid,
where the types that it follows leave open what stands behind a trap; and it runs what runs, with the arms
of a conditional on the stack as it is and not on one of their own. Well-typed code leaves as many values as its
signature says, so every call of a function without parameters gives what its body leaves.
-/
import LetIf.Proofs.Engine.Reading

namespace LetIf.Engine

open Standard

attribute [local simp] Engine.typesFrom Engine.typesAfter Engine.run Engine.step

/-! ## Local variables -/

theorem localType_eq : ∀ (groups : List (Nat × ValType)) (i : Nat),
    localType groups i = (groups.flatMap fun g => List.replicate g.1 g.2)[i]?
  | [], _ => rfl
  | (n, t) :: rest, i => by
    rw [localType, List.flatMap_cons, List.getElem?_append, List.length_replicate]
    split
    · rename_i h
      rw [List.getElem?_replicate, if_pos h]
    · exact localType_eq rest (i - n)

theorem localType_allLocals (s : Signature) (b : Body) (i : Nat) :
    localType (allLocals s b) i = (localTypes s b)[i]? := by
  rw [localType_eq, allLocals, List.flatMap_append, List.flatMap_map]
  have hparams : (s.params.flatMap fun t => List.replicate 1 t) = s.params := List.flatMap_singleton' s.params
  rw [hparams]
  rfl

/-! ## Types on the stack -/

/-- The known types agree with those that the standard has. Below them, an open stack agrees with any types. -/
inductive Agree (isOpen : Bool) : (known : List (Option ValType)) → (ts : List ValType) → Prop
  | nil : Agree isOpen [] []
  | bottom (ts : List ValType) : isOpen = true → Agree isOpen [] ts
  | known {t : ValType} {known : List (Option ValType)} {ts : List ValType} : Agree isOpen known ts →
      Agree isOpen (some t :: known) (t :: ts)
  | unknown {t : ValType} {known : List (Option ValType)} {ts : List ValType} : Agree isOpen known ts →
      Agree isOpen (none :: known) (t :: ts)

namespace Types

/-- The stack may have the types `ts`. -/
def Allows (s : Types) (ts : List ValType) : Prop := Agree s.isOpen s.known ts

variable {s : Types} {t : ValType} {ts : List ValType}

theorem Allows.push (h : s.Allows ts) : (s.push (some t)).Allows (t :: ts) := Agree.known h

theorem Allows.pop (h : s.Allows (t :: ts)) :
    ∃ found s', s.pop = some (found, s') ∧ (found = none ∨ found = some t) ∧ s'.Allows ts := by
  obtain ⟨known, isOpen⟩ := s
  unfold Allows at h
  generalize hts : t :: ts = us at h
  cases h with
  | nil => cases hts
  | bottom _ ho =>
    have ho : isOpen = true := ho
    subst ho
    exact ⟨none, _, rfl, .inl rfl, .bottom ts rfl⟩
  | known h => cases hts; exact ⟨_, _, rfl, .inr rfl, h⟩
  | unknown h => cases hts; exact ⟨_, _, rfl, .inl rfl, h⟩

theorem Allows.expect (h : s.Allows (t :: ts)) : ∃ s', s.expect t = some s' ∧ s'.Allows ts := by
  obtain ⟨found, s', hpop, hfound, h⟩ := h.pop
  refine ⟨s', ?_, h⟩
  unfold Types.expect
  rw [hpop]
  obtain rfl | rfl := hfound
  · rfl
  · exact if_pos rfl

theorem Allows.known_nil (h : s.Allows []) : s.known = [] := by
  obtain ⟨known, isOpen⟩ := s
  cases h <;> rfl

theorem Allows.foldlM_expect : ∀ {ts : List ValType} {s : Types}, s.Allows ts →
    ∃ s', ts.foldlM Types.expect s = some s' ∧ s'.known = []
  | [], s, h => ⟨s, rfl, h.known_nil⟩
  | t :: ts, s, h => by
    obtain ⟨s₁, hs₁, h₁⟩ := h.expect
    obtain ⟨s', hs', h'⟩ := h₁.foldlM_expect
    refine ⟨s', ?_, h'⟩
    rw [List.foldlM_cons, hs₁]
    exact hs'

theorem Allows.holds (h : s.Allows ts.reverse) : s.holds ts = true := by
  obtain ⟨s', hs', hnil⟩ := h.foldlM_expect
  unfold Types.holds
  rw [hs']
  simp only [hnil, List.isEmpty_nil]

theorem allows_empty : Types.empty.Allows [] := .nil

end Types

/-! ## Validity -/

/-- Where the standard has types for code, the engine finds types that allow them. -/
theorem typesFrom_of_typed {groups : List (Nat × ValType)} {locals : List ValType}
    (hl : ∀ i, localType groups i = locals[i]?) {ops : List Op} {ts us : List ValType}
    (h : Typed locals ops ts us) :
    ∀ {s : Types}, s.Allows ts → ∃ s', typesFrom groups s ops = some s' ∧ s'.Allows us := by
  induction h with
  | nil => exact fun {s} hs => ⟨s, by simp, hs⟩
  | trap _ ih =>
    intro s hs
    rw [typesFrom, typesAfter]
    exact ih (.bottom _ rfl)
  | const32 n _ ih =>
    intro s hs
    rw [typesFrom, typesAfter]
    exact ih hs.push
  | const64 n _ ih =>
    intro s hs
    rw [typesFrom, typesAfter]
    exact ih hs.push
  | @select t _ _ _ _ ih =>
    intro s hs
    obtain ⟨s₁, h₁, hs₁⟩ := hs.expect
    obtain ⟨b, s₂, h₂, hb, hs₂⟩ := hs₁.pop
    obtain ⟨a, s₃, h₃, ha, hs₃⟩ := hs₂.pop
    rw [typesFrom, typesAfter, h₁]
    simp only [Option.bind_eq_bind, Option.bind_some]
    rw [h₂]
    simp only [Option.bind_some]
    rw [h₃]
    simp only [Option.bind_some]
    obtain rfl | rfl := ha <;> obtain rfl | rfl := hb
    · exact ih (.unknown hs₃)
    · exact ih hs₃.push
    · exact ih hs₃.push
    · simp only [if_true]
      exact ih hs₃.push
  | localGet ht _ ih =>
    intro s hs
    rw [typesFrom, typesAfter, hl, ht]
    exact ih hs.push
  | localSet ht _ ih =>
    intro s hs
    obtain ⟨s₁, h₁, hs₁⟩ := hs.expect
    rw [typesFrom, typesAfter, hl, ht]
    simp only [Option.bind_eq_bind, Option.bind_some]
    rw [h₁]
    exact ih hs₁
  | @branch r yes no ops ts us _ _ _ ihy ihn ih =>
    intro s hs
    obtain ⟨s₁, h₁, hs₁⟩ := hs.expect
    obtain ⟨y, hy, hys⟩ := ihy Types.allows_empty
    obtain ⟨n, hn, hns⟩ := ihn Types.allows_empty
    have hreverse : r.toList.reverse = r.toList := by cases r <;> rfl
    have hyr : y.holds r.toList = true := Types.Allows.holds (by rwa [hreverse])
    have hnr : n.holds r.toList = true := Types.Allows.holds (by rwa [hreverse])
    rw [typesFrom, typesAfter, h₁]
    simp only [Option.bind_eq_bind, Option.bind_some]
    rw [hy, hn]
    simp only [Option.bind_some, hyr, hnr, Bool.and_self, if_true]
    cases r with
    | none => exact ih hs₁
    | some t => exact ih hs₁.push

theorem Body.isValid_of_typed {s : Signature} {b : Body}
    (h : Typed (localTypes s b) b.code [] s.results.reverse) : b.isValid s = true := by
  obtain ⟨s', hs', hallows⟩ := typesFrom_of_typed (localType_allLocals s b) h Types.allows_empty
  unfold Body.isValid
  rw [hs']
  exact hallows.holds

theorem Program.isValid_of_valid {p : Program} (h : Valid p) : p.isValid = true := by
  unfold Program.isValid
  simp only [Bool.and_eq_true, beq_iff_eq, List.all_eq_true, decide_eq_true_eq]
  refine ⟨⟨⟨h.count, fun f hf => ?_⟩, h.exports⟩, h.distinct⟩
  obtain ⟨s, hs, ht⟩ := h.bodies f hf
  rw [hs]
  exact Body.isValid_of_typed ht

/-! ## Running -/

/-- The engine's state with values on the stack and in the local variables. -/
def State.of (st ls : List Val) : State := ⟨st, fun i => ls[i]?⟩

theorem step_branch (c : Int32) (t : Option ValType) (yes no : List Op) (st ls : List Val) :
    step (.of (.i32 c :: st) ls) (.branch t yes no) = run (.of st ls) (if c ≠ 0 then yes else no) := by
  rw [step]
  exact (apply_ite (run (.of st ls)) ..).symm

/-- Whatever runs on a stack of its own runs in the engine above any values. -/
theorem run_of_runs {ops : List Op} {st ls : List Val} {r : Option (List Val × List Val)} (h : Runs ops st ls r) :
    ∀ below : List Val, run (.of (st ++ below) ls) ops = r.map fun r => .of (r.1 ++ below) r.2 := by
  induction h with
  | nil => intro below; rw [run]; rfl
  | trap => intro below; rw [run, step]; rfl
  | const32 n _ ih => intro below; rw [run, step]; exact ih below
  | const64 n _ ih => intro below; rw [run, step]; exact ih below
  | select _ ih => intro below; rw [run, step]; exact ih below
  | localGet hv _ ih =>
    intro below
    rw [run, step]
    simp only [State.of, hv]
    exact ih below
  | @localSet i v ops st ls r hlt _ ih =>
    intro below
    have hlocals : (fun j => if j = i then some v else ls[j]?) = fun j => (ls.set i v)[j]? := by
      refine funext fun j => ?_
      rw [List.getElem?_set, if_pos hlt]
      exact if_congr eq_comm rfl rfl
    rw [run, step]
    simp only [State.of, List.cons_append, hlocals]
    exact ih below
  | @branch c t yes no ops st st' ls ls' r _ _ iharm ih =>
    intro below
    rw [List.cons_append, run, step_branch, ← List.nil_append (st ++ below), iharm]
    simp only [Option.map_some]
    rw [← List.append_assoc]
    exact ih below
  | @branchTrap c t yes no ops st ls _ iharm =>
    intro below
    rw [List.cons_append, run, step_branch, ← List.nil_append (st ++ below), iharm]
    rfl

/-- Well-typed code leaves as many values as its type says. -/
theorem length_of_runs {locals : List ValType} {ops : List Op} {ts us : List ValType} (h : Typed locals ops ts us) :
    ∀ {st ls st' ls' : List Val}, Runs ops st ls (some (st', ls')) → st.length = ts.length →
      st'.length = us.length := by
  induction h with
  | nil =>
    intro st ls st' ls' hr hlen
    cases hr
    exact hlen
  | trap _ _ =>
    intro st ls st' ls' hr
    cases hr
  | const32 n _ ih =>
    intro st ls st' ls' hr hlen
    cases hr with
    | const32 _ hr => exact ih hr (congrArg (· + 1) hlen)
  | const64 n _ ih =>
    intro st ls st' ls' hr hlen
    cases hr with
    | const64 _ hr => exact ih hr (congrArg (· + 1) hlen)
  | select _ ih =>
    intro st ls st' ls' hr hlen
    cases hr with
    | select hr =>
      simp only [List.length_cons] at hlen
      exact ih hr (by simp only [List.length_cons]; omega)
  | localGet _ _ ih =>
    intro st ls st' ls' hr hlen
    cases hr with
    | localGet _ hr => exact ih hr (congrArg (· + 1) hlen)
  | localSet _ _ ih =>
    intro st ls st' ls' hr hlen
    cases hr with
    | localSet _ hr => exact ih hr (Nat.succ.inj hlen)
  | @branch r yes no ops ts us _ _ _ ihy ihn ih =>
    intro st ls st' ls' hr hlen
    cases hr with
    | @branch c _ _ _ _ st st₁ _ ls₁ _ harm hr =>
      have harm : st₁.length = r.toList.length := by
        split at harm
        · exact ihy harm rfl
        · exact ihn harm rfl
      refine ih hr ?_
      rw [List.length_append, List.length_append, harm, Nat.succ.inj hlen]

/-! ## Exports -/

/-- Of a name that stands once, what stands there is found. -/
theorem lookup_of_mem {α : Type} {name : Text} {a : α} : ∀ {l : List (Text × α)}, (l.map Prod.fst).Nodup →
    (name, a) ∈ l → l.lookup name = some a
  | (n, b) :: l, hnodup, h => by
    rw [List.map_cons, List.nodup_cons] at hnodup
    rw [List.lookup_cons]
    obtain heq | hmem := List.mem_cons.1 h
    · cases heq
      rw [beq_self_eq_true]
    · have hne : name ≠ n := by
        rintro rfl
        exact hnodup.1 (List.mem_map.2 ⟨_, hmem, rfl⟩)
      rw [beq_eq_false_iff_ne.2 hne]
      exact lookup_of_mem hnodup.2 hmem

theorem Program.export?_of_exports {p : Program} (hp : Valid p) {name : Text} {s : Signature} {b : Body}
    (h : Exports p name s b) : p.export? name = some (s, b) := by
  obtain ⟨i, j, hmem, hi, hj, hb⟩ := h
  unfold Program.export?
  rw [lookup_of_mem hp.distinct hmem]
  simp only [Option.bind_eq_bind, Option.bind_some]
  rw [hb, hi]
  simp only [Option.bind_some]
  rw [hj]
  rfl

theorem Program.exports_of_export? {p : Program} {name : Text} {s : Signature} {b : Body}
    (h : p.export? name = some (s, b)) : Exports p name s b := by
  unfold Program.export? at h
  simp only [Option.bind_eq_bind, Option.bind_eq_some_iff] at h
  obtain ⟨i, hi, b', hb, j, hj, s', hs, h⟩ := h
  cases h
  obtain ⟨l₁, l₂, hl, -⟩ := List.lookup_eq_some_iff.1 hi
  exact ⟨i, j, by rw [hl]; simp, hj, hs, hb⟩

/-- The body of an exported function has the type that its signature says. -/
theorem typed_of_exports {p : Program} (hp : Valid p) {name : Text} {s : Signature} {b : Body}
    (h : Exports p name s b) : Typed (localTypes s b) b.code [] s.results.reverse := by
  obtain ⟨i, j, -, hi, hj, hb⟩ := h
  obtain ⟨s', hs', ht⟩ := hp.bodies (j, b) (List.mem_of_getElem? (List.getElem?_zip_eq_some.2 ⟨hi, hb⟩))
  rw [hj] at hs'
  cases hs'
  exact ht

/-! ## Conformance -/

section Call

variable {s : Signature} {b : Body} (hparams : s.params = [])
include hparams

/-- A function starts in the zeroed local variables of its body. -/
theorem start_eq : (⟨[], fun i => (localType b.locals i).map .zero⟩ : State) =
    .of [] ((localTypes s b).map .zero) := by
  refine congrArg (State.mk []) (funext fun i => ?_)
  rw [localType_eq, List.getElem?_map, localTypes, hparams, List.nil_append]

theorem Body.call_of_runs (ht : Typed (localTypes s b) b.code [] s.results.reverse) {st ls : List Val}
    (hr : Runs b.code [] ((localTypes s b).map .zero) (some (st, ls))) :
    ∃ words, b.call s = some words ∧ words.1 = st.reverse.map Val.word := by
  have hrun := run_of_runs hr []
  rw [List.nil_append, ← start_eq hparams] at hrun
  have hlen : (st.reverse.map Val.word).length = s.results.length := by
    rw [List.length_map, List.length_reverse, length_of_runs ht hr rfl, List.length_reverse]
  refine ⟨⟨_, hlen⟩, ?_, rfl⟩
  unfold Body.call
  rw [hrun]
  simp only [Option.map_some, State.of, List.append_nil]
  exact dif_pos hlen

theorem Body.call_of_trap (hr : Runs b.code [] ((localTypes s b).map .zero) none) : b.call s = none := by
  have hrun := run_of_runs hr []
  rw [List.nil_append, ← start_eq hparams] at hrun
  unfold Body.call
  rw [hrun]
  rfl

end Call

theorem Program.implements {p : Program} (hp : Valid p) : Implements p.instantiated p where
  exported := by
    intro name s b h
    have ht := typed_of_exports hp h
    refine ⟨⟨s.params, s.results, if s.params.isEmpty then b.call s else none⟩, ?_, ?_⟩
    · exact congrArg (Option.map _) (p.export?_of_exports hp h)
    · refine ⟨rfl, rfl, fun hparams hr => ?_, fun hparams hr => ?_⟩
      · simp only [hparams, List.isEmpty_nil, if_true]
        exact Body.call_of_runs hparams ht hr
      · simp only [hparams, List.isEmpty_nil, if_true]
        exact Body.call_of_trap hparams hr
  missing := by
    intro name h
    have hnone : p.export? name = none := by
      rw [Option.eq_none_iff_forall_ne_some]
      rintro ⟨s, b⟩ hsome
      exact h s b (Program.exports_of_export? hsome)
    exact congrArg (Option.map _) hnone

/-- The built-in engine conforms to the standard. -/
theorem builtin_conforms : @Conforms builtin where
  instantiates := by
    intro p data hdata hp
    refine ⟨p.instantiated, ?_, p.implements hp⟩
    show (program data).bind _ = _
    rw [program_of_isModule hdata]
    exact if_pos (p.isValid_of_valid hp)

end LetIf.Engine
