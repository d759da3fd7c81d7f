/-
The grammar of the text format, over trees, and that reading accepts exactly its texts. How a word may stand
in a tree is a parameter of the grammar: as an atom only, or between quotes as well. What is read is the grammar
with words that may be quoted. Each thing that is read is inverted once: its head, then what stands behind it;
code is followed instruction by instruction.
-/
import LetIf.Proofs.Wat.Moving

namespace LetIf.Wat

open Text

/-! ## The grammar -/

/-- The word stands in the tree as an atom. -/
def IsBare (t : Text) (w : Tree) : Prop := w = .atom t

/-- The word stands in the tree as an atom or between quotes. -/
def IsQuotable (t : Text) (w : Tree) : Prop := w = .atom t ∨ w = .string t

section Grammar

variable (Word : Text → Tree → Prop)

/-- The trees are the code. -/
inductive IsCode : List Tree → List Instr → Prop
  | nil : IsCode [] []
  | const {w : Tree} {t : Text} {n : Int32} {ts : List Tree} {is : List Instr} (hw : Word t w)
      (hn : i32? t = some n) (h : IsCode ts is) :
      IsCode (.list [.atom "i32.const", w] :: ts) (.const n :: is)
  | select {ts : List Tree} {is : List Instr} (h : IsCode ts is) :
      IsCode (.list [.atom "select"] :: ts) (.select :: is)
  | localGet {w : Tree} {t : Text} {i : UInt32} {ts : List Tree} {is : List Instr} (hw : Word t w)
      (hi : slot? t = some i) (h : IsCode ts is) :
      IsCode (.list [.atom "local.get", w] :: ts) (.localGet i :: is)
  | localSet {w : Tree} {t : Text} {i : UInt32} {ts : List Tree} {is : List Instr} (hw : Word t w)
      (hi : slot? t = some i) (h : IsCode ts is) :
      IsCode (.list [.atom "local.set", w] :: ts) (.localSet i :: is)
  | branch {w : Tree} {ys ns ts : List Tree} {yes no is : List Instr} (hw : Word "i32" w)
      (hy : IsCode ys yes) (hn : IsCode ns no) (h : IsCode ts is) :
      IsCode (.list [.atom "if", .list [.atom "result", w], .list (.atom "then" :: ys),
        .list (.atom "else" :: ns)] :: ts) (.branch yes no :: is)

/-- The trees declare so many locals. -/
inductive IsLocals : List Tree → Nat → Prop
  | nil : IsLocals [] 0
  | cons {ws ds : List Tree} {n : Nat} (hw : ∀ w ∈ ws, Word "i32" w) (h : IsLocals ds n) :
      IsLocals (.list (.atom "local" :: ws) :: ds) (ws.length + n)

/-- An identifier, which may be left out. -/
inductive IsId : List Tree → Prop
  | none : IsId []
  | some {t : Text} (hlong : 1 < t.length) (hsign : t.head? = some (byte '$')) : IsId [.atom t]

/-- The tree is the function. The number of locals is one of 32 bits. -/
inductive IsFunc : Tree → Module → Prop
  | mk {ids ds cs : List Tree} {w : Tree} {name : Text} {n : Nat} {is : List Instr} (hid : IsId ids)
      (hw : Word "i32" w) (hlocals : IsLocals Word ds n) (hcode : IsCode Word cs is) :
      IsFunc (.list (.atom "func" :: (ids ++ .list [.atom "export", .string name] ::
        .list [.atom "result", w] :: (ds ++ cs)))) ⟨name, UInt32.ofNat n, is ++ [.stop]⟩

/-- The tree is the module. -/
inductive IsModule : Tree → Module → Prop
  | mk {f : Tree} {m : Module} (h : IsFunc Word f m) : IsModule (.list [.atom "module", f]) m

variable {Word} in
theorem IsCode.append {ts us : List Tree} {is js : List Instr} (h : IsCode Word ts is) (hu : IsCode Word us js) :
    IsCode Word (ts ++ us) (is ++ js) := by
  induction h with
  | nil => exact hu
  | const hw hn _ ih => exact .const hw hn ih
  | select _ ih => exact .select ih
  | localGet hw hi _ ih => exact .localGet hw hi ih
  | localSet hw hi _ ih => exact .localSet hw hi ih
  | branch hw hy hn _ _ _ ih => exact .branch hw hy hn ih

end Grammar

/-- The text has the tokens of the tree and no others. -/
def Spelled (src : Text) (t : Tree) : Prop :=
  ∃ last, (tokens src).ending = .endOfInput last ∧ (tokens src).list.map Token.form = t.forms

/-! ## Words and clauses -/

namespace Sexp

theorem isQuotable_iff {s : Sexp} {t : Text} : IsQuotable t s.tree ↔ s.word? = some t := by
  unfold IsQuotable
  cases s <;> simp [tree, word?]

/-- A list with an atom at its front. -/
theorem tree_eq_list_iff {s : Sexp} {head : Text} {ts : List Tree} (hh : head ≠ []) :
    s.tree = .list (.atom head :: ts) ↔ s.head = head ∧ trees s.arguments = ts := by
  constructor
  · intro h
    obtain ⟨o, o₁, rest, rfl, hrest⟩ := tree_eq_clause h
    exact ⟨rfl, hrest⟩
  · rintro ⟨hs, rfl⟩
    obtain ⟨o, o₁, hs⟩ := exists_of_head hs hh
    conv => lhs; rw [hs]
    simp only [tree, trees]

end Sexp

theorem clause?_eq_some {head : Text} {s a : Sexp} :
    clause? head s = some a ↔ s.head = head ∧ s.arguments = [a] := by
  unfold clause?
  constructor
  · intro h
    split at h
    · rename_i hhead hargs
      cases h
      exact ⟨eq_of_beq hhead, hargs⟩
    · cases h
  · rintro ⟨hhead, hargs⟩
    rw [hargs, hhead, beq_self_eq_true]

theorem isResult_iff {s : Sexp} :
    isResult s = true ↔ ∃ w, s.tree = .list [.atom "result", w] ∧ IsQuotable "i32" w := by
  have hne : ofString "result" ≠ [] := by decide
  have hword : isResult s = true ↔ ∃ a, clause? "result" s = some a ∧ a.word? = some (ofString "i32") := by
    unfold isResult
    rw [beq_iff_eq]
    exact Option.bind_eq_some_iff
  rw [hword]
  constructor
  · rintro ⟨a, ha, hw⟩
    obtain ⟨hhead, hargs⟩ := clause?_eq_some.1 ha
    refine ⟨a.tree, (Sexp.tree_eq_list_iff hne).2 ⟨hhead, ?_⟩, Sexp.isQuotable_iff.2 hw⟩
    rw [hargs, Sexp.trees, Sexp.trees]
  · rintro ⟨w, hs, hw⟩
    obtain ⟨hhead, hargs⟩ := (Sexp.tree_eq_list_iff hne).1 hs
    obtain ⟨a, ha, rfl⟩ := Sexp.trees_eq_singleton hargs
    exact ⟨a, clause?_eq_some.2 ⟨hhead, ha⟩, Sexp.isQuotable_iff.1 hw⟩

/-- A list with one operand, which is a word that may be quoted. -/
theorem operand_eq_ok_iff {α : Type} {read : Text → Option α} {bad : Text → Problem} {form : Problem}
    {head : Text} {s : Sexp} {a : α} (hh : head ≠ []) :
    s.head = head ∧ operand read bad form s = .ok a ↔
      ∃ w t, s.tree = .list [.atom head, w] ∧ IsQuotable t w ∧ read t = some a := by
  unfold operand
  constructor
  · rintro ⟨hs, h⟩
    split at h
    · rename_i o t hargs
      split at h
      · rename_i b hread
        cases h
        refine ⟨.atom t, t, (Sexp.tree_eq_list_iff hh).2 ⟨hs, ?_⟩, .inl rfl, hread⟩
        rw [hargs]
        simp only [Sexp.trees, Sexp.tree]
      · cases h
    · rename_i o t hargs
      split at h
      · rename_i b hread
        cases h
        refine ⟨.string t, t, (Sexp.tree_eq_list_iff hh).2 ⟨hs, ?_⟩, .inr rfl, hread⟩
        rw [hargs]
        simp only [Sexp.trees, Sexp.tree]
      · cases h
    · cases h
  · rintro ⟨w, t, hs, hw, hread⟩
    obtain ⟨hhead, hargs⟩ := (Sexp.tree_eq_list_iff hh).1 hs
    obtain ⟨s₁, hargs, hs₁⟩ := Sexp.trees_eq_singleton hargs
    refine ⟨hhead, ?_⟩
    rcases hw with rfl | rfl
    · obtain ⟨o, rfl⟩ := Sexp.tree_eq_atom.1 hs₁
      simp only [hargs, hread]
    · obtain ⟨o, rfl⟩ := Sexp.tree_eq_string.1 hs₁
      simp only [hargs, hread]

/-! ## Instructions -/

section Heads

variable {s : Sexp}

theorem instr_const (h : s.head = ofString "i32.const") : instr s = .const <$> constOperand s := by
  unfold instr
  rw [h, if_pos (by decide)]

theorem instr_select (h : s.head = ofString "select") :
    instr s = if s.arguments.isEmpty then .ok .select else .error ⟨.selectForm, s.offset⟩ := by
  unfold instr
  rw [h, if_neg (by decide), if_pos (by decide)]

theorem instr_localGet (h : s.head = ofString "local.get") : instr s = .localGet <$> slotOperand s := by
  unfold instr
  rw [h, if_neg (by decide), if_neg (by decide), if_pos (by decide)]

theorem instr_localSet (h : s.head = ofString "local.set") : instr s = .localSet <$> slotOperand s := by
  unfold instr
  rw [h, if_neg (by decide), if_neg (by decide), if_neg (by decide), if_pos (by decide)]

/-- No other head begins an instruction. -/
theorem head_of_instr {i : Instr} (h : instr s = .ok i) :
    s.head = ofString "i32.const" ∨ s.head = ofString "select" ∨ s.head = ofString "local.get" ∨
      s.head = ofString "local.set" ∨ s.head = ofString "if" := by
  apply Decidable.byContradiction
  intro hno
  simp only [not_or] at hno
  obtain ⟨hconst, hselect, hget, hset, hif⟩ := hno
  unfold instr at h
  rw [if_neg (by simpa using hconst), if_neg (by simpa using hselect), if_neg (by simpa using hget),
    if_neg (by simpa using hset), if_neg (by simpa using hif)] at h
  cases h

/-- What has arms, by its tree. -/
theorem exists_arms_iff {ys ns : List Tree} :
    (∃ yes no, arms? s = some (yes, no) ∧ Sexp.trees yes = ys ∧ Sexp.trees no = ns) ↔
      ∃ w, IsQuotable "i32" w ∧ Sexp.trees s.arguments =
        [.list [.atom "result", w], .list (.atom "then" :: ys), .list (.atom "else" :: ns)] := by
  constructor
  · rintro ⟨yes, no, h, rfl, rfl⟩
    obtain ⟨result, o₁, o₂, o₃, o₄, hresult, hargs⟩ := arms?_eq_some h
    obtain ⟨w, hresult, hw⟩ := isResult_iff.1 hresult
    refine ⟨w, hw, ?_⟩
    rw [hargs]
    simp only [Sexp.trees, Sexp.tree, hresult]
  · rintro ⟨w, hw, h⟩
    obtain ⟨result, rest, hargs, hresult, h⟩ := Sexp.trees_eq_cons.1 h
    obtain ⟨y, rest, rfl, hy, h⟩ := Sexp.trees_eq_cons.1 h
    obtain ⟨n, rfl, hn⟩ := Sexp.trees_eq_singleton h
    obtain ⟨hyhead, hys⟩ := (Sexp.tree_eq_list_iff (by decide)).1 hy
    obtain ⟨hnhead, hns⟩ := (Sexp.tree_eq_list_iff (by decide)).1 hn
    refine ⟨y.arguments, n.arguments, ?_, hys, hns⟩
    simp only [arms?, hargs, isResult_iff.2 ⟨w, hresult, hw⟩, hyhead, hnhead, beq_self_eq_true, Bool.and_self,
      if_true]

end Heads

mutual

/-- What is read as an instruction is code of one instruction. -/
theorem isCode_of_instr {s : Sexp} {i : Instr} (h : instr s = .ok i) : IsCode IsQuotable [s.tree] [i] := by
  rcases head_of_instr h with hs | hs | hs | hs | hs
  · rw [instr_const hs, constOperand_eq] at h
    obtain ⟨n, hop, rfl⟩ := map_eq_ok.1 h
    obtain ⟨w, t, hs, hw, hn⟩ := (operand_eq_ok_iff (by decide)).1 ⟨hs, hop⟩
    rw [hs]
    exact .const hw hn .nil
  · rw [instr_select hs] at h
    split at h
    · rename_i hargs
      cases h
      rw [(Sexp.tree_eq_list_iff (by decide)).2 ⟨hs, Sexp.trees_eq_nil.2 (List.isEmpty_iff.1 hargs)⟩]
      exact .select .nil
    · cases h
  · rw [instr_localGet hs, slotOperand_eq] at h
    obtain ⟨n, hop, rfl⟩ := map_eq_ok.1 h
    obtain ⟨w, t, hs, hw, hi⟩ := (operand_eq_ok_iff (by decide)).1 ⟨hs, hop⟩
    rw [hs]
    exact .localGet hw hi .nil
  · rw [instr_localSet hs, slotOperand_eq] at h
    obtain ⟨n, hop, rfl⟩ := map_eq_ok.1 h
    obtain ⟨w, t, hs, hw, hi⟩ := (operand_eq_ok_iff (by decide)).1 ⟨hs, hop⟩
    rw [hs]
    exact .localSet hw hi .nil
  · cases harms : arms? s with
    | none =>
      rw [instr_of_no_arms hs harms] at h
      cases h
    | some arms =>
      obtain ⟨yes, no⟩ := arms
      rw [instr_of_arms hs harms] at h
      obtain ⟨is₁, hyes, h⟩ := bind_eq_ok.1 h
      obtain ⟨is₂, hno, h⟩ := bind_eq_ok.1 h
      cases h
      obtain ⟨hlt₁, hlt₂⟩ := sizeOf_arms hs harms
      obtain ⟨w, hw, hargs⟩ := exists_arms_iff.1 ⟨yes, no, harms, rfl, rfl⟩
      rw [(Sexp.tree_eq_list_iff (by decide)).2 ⟨hs, hargs⟩]
      exact .branch hw (isCode_of_instrs hyes) (isCode_of_instrs hno) .nil
termination_by sizeOf s

theorem isCode_of_instrs {ss : List Sexp} {is : List Instr} (h : instrs ss = .ok is) :
    IsCode IsQuotable (Sexp.trees ss) is := by
  match ss with
  | [] =>
    rw [instrs] at h
    cases h
    rw [Sexp.trees]
    exact .nil
  | s :: ss =>
    rw [instrs] at h
    obtain ⟨i, hi, h⟩ := bind_eq_ok.1 h
    obtain ⟨is, his, h⟩ := bind_eq_ok.1 h
    cases h
    rw [Sexp.trees]
    exact (isCode_of_instr hi).append (isCode_of_instrs his)
termination_by sizeOf ss

end

/-- The s-expressions of this tree are read as the instruction. -/
def Means (t : Tree) (i : Instr) : Prop := ∀ s : Sexp, s.tree = t → instr s = .ok i

/-- The s-expressions of these trees are read as the instructions. -/
def MeansAll (ts : List Tree) (is : List Instr) : Prop :=
  ∀ ss : List Sexp, Sexp.trees ss = ts → instrs ss = .ok is

theorem Means.cons {t : Tree} {i : Instr} {ts : List Tree} {is : List Instr} (h : Means t i)
    (hs : MeansAll ts is) : MeansAll (t :: ts) (i :: is) := by
  intro ss hss
  obtain ⟨s, rest, rfl, h₁, h₂⟩ := Sexp.trees_eq_cons.1 hss
  rw [instrs, h s h₁, hs rest h₂]
  rfl

/-- Code is read, whatever s-expressions of its trees it is read from. -/
theorem meansAll_of_isCode {ts : List Tree} {is : List Instr} (h : IsCode IsQuotable ts is) : MeansAll ts is := by
  induction h with
  | nil =>
    intro ss hss
    cases Sexp.trees_eq_nil.1 hss
    rw [instrs]
  | const hw hn _ ih =>
    refine Means.cons ?_ ih
    intro s hs
    obtain ⟨hhead, hop⟩ := (operand_eq_ok_iff (by decide)).2 ⟨_, _, hs, hw, hn⟩
    rw [instr_const hhead, constOperand_eq, hop]
    rfl
  | select _ ih =>
    refine Means.cons ?_ ih
    intro s hs
    obtain ⟨hhead, hargs⟩ := (Sexp.tree_eq_list_iff (by decide)).1 hs
    rw [instr_select hhead, Sexp.trees_eq_nil.1 hargs]
    rfl
  | localGet hw hi _ ih =>
    refine Means.cons ?_ ih
    intro s hs
    obtain ⟨hhead, hop⟩ := (operand_eq_ok_iff (by decide)).2 ⟨_, _, hs, hw, hi⟩
    rw [instr_localGet hhead, slotOperand_eq, hop]
    rfl
  | localSet hw hi _ ih =>
    refine Means.cons ?_ ih
    intro s hs
    obtain ⟨hhead, hop⟩ := (operand_eq_ok_iff (by decide)).2 ⟨_, _, hs, hw, hi⟩
    rw [instr_localSet hhead, slotOperand_eq, hop]
    rfl
  | branch hw _ _ _ ihy ihn ih =>
    refine Means.cons ?_ ih
    intro s hs
    obtain ⟨hhead, hargs⟩ := (Sexp.tree_eq_list_iff (by decide)).1 hs
    obtain ⟨yes, no, harms, hyes, hno⟩ := exists_arms_iff.2 ⟨_, hw, hargs⟩
    rw [instr_of_arms hhead harms, ihy yes hyes, ihn no hno]
    rfl

theorem instrs_eq_ok {ss : List Sexp} {is : List Instr} :
    instrs ss = .ok is ↔ IsCode IsQuotable (Sexp.trees ss) is := by
  constructor
  · exact isCode_of_instrs
  · intro h
    exact meansAll_of_isCode h ss rfl

/-! ## Functions -/

theorem UInt32.add_one_add_ofNat (k : UInt32) (n : Nat) : k + 1 + UInt32.ofNat n = k + UInt32.ofNat (n + 1) := by
  rw [UInt32.add_assoc, UInt32.add_comm 1, ← UInt32.ofNat_one, ← UInt32.ofNat_add]

theorem countLocals_cons (k : UInt32) (s : Sexp) (ss : List Sexp) : countLocals k (s :: ss) =
    if s.word? = some (ofString "i32") then countLocals (k + 1) ss else .error ⟨.localType, s.offset⟩ := by
  have hword : (s.word? == some (ofString "i32")) = true ↔ s.word? = some (ofString "i32") := beq_iff_eq
  rw [countLocals]
  exact ite_congr (propext hword) (fun _ => rfl) (fun _ => rfl)

/-- What is counted are the words, each of which is the one type. -/
theorem countLocals_eq_ok {n : UInt32} : ∀ {ss : List Sexp} {k : UInt32}, countLocals k ss = .ok n ↔
    (∀ w ∈ Sexp.trees ss, IsQuotable "i32" w) ∧ n = k + UInt32.ofNat (Sexp.trees ss).length
  | [], k => by
    rw [countLocals, Sexp.trees]
    simp [eq_comm]
  | s :: ss, k => by
    rw [Sexp.trees, List.forall_mem_cons, List.length_cons, ← UInt32.add_one_add_ofNat, and_assoc,
      ← countLocals_eq_ok, Sexp.isQuotable_iff, countLocals_cons]
    split
    · rename_i hs
      rw [eq_true hs, true_and]
    · rename_i hs
      rw [eq_false hs, false_and, iff_false]
      intro h
      cases h

/-- Declarations of locals, then what no declaration is at the front of. -/
theorem exists_isLocals {n : UInt32} {code : List Sexp} : ∀ {ss : List Sexp} {k : UInt32},
    localDecls k ss = .ok (n, code) → ∃ ds c, IsLocals IsQuotable ds c ∧
      Sexp.trees ss = ds ++ Sexp.trees code ∧ n = k + UInt32.ofNat c
  | [], k, h => by
    cases h
    exact ⟨[], 0, .nil, rfl, (UInt32.add_zero _).symm⟩
  | s :: ss, k, h => by
    rw [localDecls] at h
    split at h
    · rename_i hs
      obtain ⟨k', hk', h⟩ := bind_eq_ok.1 h
      obtain ⟨hw, rfl⟩ := countLocals_eq_ok.1 hk'
      obtain ⟨ds, c, hds, hss, rfl⟩ := exists_isLocals h
      refine ⟨_, _, .cons hw hds, ?_, ?_⟩
      · rw [Sexp.trees, (Sexp.tree_eq_list_iff (by decide)).2 ⟨eq_of_beq hs, rfl⟩, hss, List.cons_append]
      · rw [UInt32.ofNat_add, UInt32.add_assoc]
    · cases h
      exact ⟨[], 0, .nil, rfl, (UInt32.add_zero _).symm⟩

/-- No instruction is taken for a declaration of locals. -/
theorem localDecls_of_instrs {ss : List Sexp} {is : List Instr} (h : instrs ss = .ok is) (n : UInt32) :
    localDecls n ss = .ok (n, ss) := by
  cases ss with
  | nil => rfl
  | cons s ss =>
    have hhead : s.head ≠ ofString "local" := by
      intro hs
      rw [instrs] at h
      obtain ⟨i, hi, -⟩ := bind_eq_ok.1 h
      have hheads := head_of_instr hi
      rw [hs] at hheads
      revert hheads
      decide
    rw [localDecls, if_neg (by simpa using hhead)]

theorem localDecls_of_isLocals {ds cs : List Tree} {c : Nat} {is : List Instr} (h : IsLocals IsQuotable ds c)
    (hcode : IsCode IsQuotable cs is) : ∀ {ss : List Sexp} {k : UInt32}, Sexp.trees ss = ds ++ cs →
      ∃ code, localDecls k ss = .ok (k + UInt32.ofNat c, code) ∧ Sexp.trees code = cs := by
  induction h with
  | nil =>
    rintro ss k rfl
    exact ⟨ss, by rw [localDecls_of_instrs (instrs_eq_ok.2 hcode)]; simp, rfl⟩
  | @cons ws ds n hw _ ih =>
    intro ss k hss
    obtain ⟨s, rest, rfl, hs, hrest⟩ := Sexp.trees_eq_cons.1 hss
    obtain ⟨hhead, rfl⟩ := (Sexp.tree_eq_list_iff (by decide)).1 hs
    obtain ⟨code, hcode', hcs⟩ := ih (k := k + UInt32.ofNat (Sexp.trees s.arguments).length) hrest
    refine ⟨code, ?_, hcs⟩
    rw [localDecls, hhead, if_pos (beq_self_eq_true _), countLocals_eq_ok.2 ⟨hw, rfl⟩, UInt32.ofNat_add,
      ← UInt32.add_assoc]
    exact hcode'

/-- An identifier is what is dropped, and nothing is if there is none. -/
theorem exists_isId (ss : List Sexp) : ∃ ids, IsId ids ∧ Sexp.trees ss = ids ++ Sexp.trees (dropId ss) := by
  unfold dropId
  split
  · rename_i o t rest
    split
    · rename_i h
      rw [Bool.and_eq_true, decide_eq_true_eq, beq_iff_eq] at h
      exact ⟨[.atom t], .some h.1 h.2, by rw [Sexp.trees, Sexp.tree]; rfl⟩
    · exact ⟨[], .none, rfl⟩
  · exact ⟨[], .none, rfl⟩

theorem trees_dropId {ids : List Tree} (h : IsId ids) {ts us : List Tree} {ss : List Sexp}
    (hss : Sexp.trees ss = ids ++ .list ts :: us) : Sexp.trees (dropId ss) = .list ts :: us := by
  cases h with
  | none =>
    obtain ⟨s, rest, rfl, hs, hrest⟩ := Sexp.trees_eq_cons.1 hss
    obtain ⟨o, items, rfl, -⟩ := Sexp.tree_eq_list.1 hs
    exact hss
  | @some t hlong hsign =>
    obtain ⟨s, rest, rfl, hs, hrest⟩ := Sexp.trees_eq_cons.1 hss
    obtain ⟨o, rfl⟩ := Sexp.tree_eq_atom.1 hs
    rw [dropId, if_pos (by rw [decide_eq_true hlong, hsign]; rfl)]
    exact hrest

theorem exportName?_eq_some {s : Sexp} {name : Text} :
    exportName? s = some name ↔ s.tree = .list [.atom "export", .string name] := by
  have hne : ofString "export" ≠ [] := by decide
  rw [Sexp.tree_eq_list_iff hne]
  unfold exportName?
  constructor
  · intro h
    split at h
    · rename_i o name' hclause
      cases h
      obtain ⟨hhead, hargs⟩ := clause?_eq_some.1 hclause
      refine ⟨hhead, ?_⟩
      rw [hargs, Sexp.trees, Sexp.trees, Sexp.tree]
    · cases h
  · rintro ⟨hhead, hargs⟩
    obtain ⟨a, hargs, ha⟩ := Sexp.trees_eq_singleton hargs
    obtain ⟨o, rfl⟩ := Sexp.tree_eq_string.1 ha
    rw [clause?_eq_some.2 ⟨hhead, hargs⟩]

/-- The parts of a function. -/
theorem func_eq_ok {f : Sexp} {m : Module} : func f = .ok m ↔
    f.head = ofString "func" ∧ ∃ e r rest name locals code body, dropId f.arguments = e :: r :: rest ∧
      exportName? e = some name ∧ isResult r = true ∧ localDecls 0 rest = .ok (locals, code) ∧
      instrs code = .ok body ∧ m = ⟨name, locals, body ++ [.stop]⟩ := by
  have hhead : ¬ (f.head != ofString "func") = true ↔ f.head = ofString "func" := by
    rw [bne_iff_ne, Decidable.not_not]
  unfold func
  rw [ite_throw_eq_ok, hhead]
  apply and_congr_right
  intro _
  constructor
  · intro h
    split at h
    · rename_i e rest₁ hdrop
      split at h
      · rename_i name he
        simp only [pure_bind] at h
        split at h
        · rename_i r rest
          split at h
          · rename_i hr
            obtain ⟨⟨locals, code⟩, hlocals, h⟩ := bind_eq_ok.1 h
            obtain ⟨body, hbody, h⟩ := bind_eq_ok.1 h
            cases h
            exact ⟨e, r, rest, name, locals, code, body, hdrop, he, hr, hlocals, hbody, rfl⟩
          · cases h
        · cases h
      · cases h
    · cases h
  · rintro ⟨e, r, rest, name, locals, code, body, hdrop, he, hr, hlocals, hbody, rfl⟩
    simp only [hdrop, he, hr, if_true, pure_bind]
    exact bind_eq_ok.2 ⟨_, hlocals, bind_eq_ok.2 ⟨_, hbody, rfl⟩⟩

theorem func_eq_ok_iff {f : Sexp} {m : Module} : func f = .ok m ↔ IsFunc IsQuotable f.tree m := by
  rw [func_eq_ok]
  constructor
  · rintro ⟨hf, e, r, rest, name, locals, code, body, hdrop, he, hr, hlocals, hbody, rfl⟩
    obtain ⟨ids, hids, hargs⟩ := exists_isId f.arguments
    obtain ⟨w, hr, hw⟩ := isResult_iff.1 hr
    obtain ⟨ds, c, hds, hrest, rfl⟩ := exists_isLocals hlocals
    rw [hdrop, Sexp.trees, Sexp.trees, exportName?_eq_some.1 he, hr, hrest] at hargs
    rw [(Sexp.tree_eq_list_iff (by decide)).2 ⟨hf, hargs⟩, UInt32.zero_add]
    exact .mk hids hw hds (isCode_of_instrs hbody)
  · intro h
    generalize hf : f.tree = t at h
    obtain @⟨ids, ds, cs, w, name, n, is, hids, hw, hds, hcode⟩ := h
    obtain ⟨hhead, hargs⟩ := (Sexp.tree_eq_list_iff (by decide)).1 hf
    obtain ⟨e, rest, hdrop, he, hrest⟩ := Sexp.trees_eq_cons.1 (trees_dropId hids hargs)
    obtain ⟨r, rest, rfl, hr, hrest⟩ := Sexp.trees_eq_cons.1 hrest
    obtain ⟨code, hlocals, hcs⟩ := localDecls_of_isLocals hds hcode (k := 0) hrest
    rw [UInt32.zero_add] at hlocals
    refine ⟨hhead, e, r, rest, name, _, code, is, hdrop, exportName?_eq_some.2 he, isResult_iff.2 ⟨w, hr, hw⟩,
      hlocals, instrs_eq_ok.2 ?_, rfl⟩
    rwa [hcs]

/-! ## Modules -/

/-- The parts of a module. -/
theorem moduleOf_eq_ok {ts : Tokens} {m : Module} : moduleOf ts = .ok m ↔
    ∃ top f, Sexp.ofTokens ts = .ok top ∧ clause? "module" top = some f ∧ func f = .ok m ∧
      m.validate = .ok () := by
  unfold moduleOf
  rw [bind_eq_ok]
  constructor
  · rintro ⟨top, htop, h⟩
    split at h
    · cases h
    · rename_i f hclause
      obtain ⟨n, hf, h⟩ := bind_eq_ok.1 h
      split at h
      · cases h
      · rename_i hv
        cases h
        exact ⟨top, f, htop, hclause, hf, hv⟩
  · rintro ⟨top, f, htop, hclause, hf, hv⟩
    refine ⟨top, htop, ?_⟩
    simp only [hclause]
    refine bind_eq_ok.2 ⟨m, hf, ?_⟩
    simp only [hv]
    rfl

/-- A text is accepted exactly when it spells a valid module of the grammar, with words in quotes or not. -/
theorem parse_eq_ok {src : Text} {m : Module} : parse src = .ok m ↔
    ∃ t, Spelled src t ∧ IsModule IsQuotable t m ∧ m.validate = .ok () := by
  rw [parse_eq, moduleOf_eq_ok]
  constructor
  · rintro ⟨top, f, htop, hclause, hf, hv⟩
    obtain ⟨hhead, hargs⟩ := clause?_eq_some.1 hclause
    refine ⟨top.tree, Sexp.forms_of_ofTokens htop, ?_, hv⟩
    rw [(Sexp.tree_eq_list_iff (by decide)).2 ⟨hhead, rfl⟩, hargs, Sexp.trees, Sexp.trees]
    exact .mk (func_eq_ok_iff.1 hf)
  · rintro ⟨t, ⟨last, hend, hforms⟩, ⟨hm⟩, hv⟩
    obtain ⟨top, htop, htree⟩ := Sexp.ofTokens_of_forms hforms last
    obtain ⟨hhead, hargs⟩ := (Sexp.tree_eq_list_iff (by decide)).1 htree
    obtain ⟨f, hf, rfl⟩ := Sexp.trees_eq_singleton hargs
    refine ⟨top, f, ?_, clause?_eq_some.2 ⟨hhead, hf⟩, func_eq_ok_iff.2 hm, hv⟩
    rw [← hend] at htop
    exact htop

end LetIf.Wat
