/-
What becomes of a source that passes checking, and that a source fails in no other way than by being
refused. A source has no more nodes than bytes, so the slots of a program never run out; a checked
program has a value and, by a strategy that has a name, a valid module; and a valid module can be
written in every format.
-/
import LetIf.Format
import LetIf.Program
import LetIf.Proofs.Json.RoundTrip
import LetIf.Proofs.Llvm.Closing
import LetIf.Proofs.Lowering.Correct
import LetIf.Proofs.Lowering.Slots
import LetIf.Proofs.Source.Printing
import LetIf.Proofs.Typing.Offences
import LetIf.Proofs.Wasm.RoundTrip
import LetIf.Proofs.Wat.RoundTrip

namespace LetIf

/-! ## Size of a source -/

namespace Source

theorem Lexes.length_le {src : Text} {ls : List Lexeme} (h : Lexes src ls) : ls.length ≤ src.length := by
  induction h with
  | nil => exact Nat.le_refl _
  | blank _ _ ih => exact Nat.le_succ_of_le ih
  | sign hs _ ih =>
    obtain ⟨b, hb, -⟩ := sign_of_mem hs
    rw [hb, List.length_cons, List.length_append, List.length_singleton]
    omega
  | @integer digits rest ls hd _ _ ih =>
    have hpos : 0 < digits.length := by
      cases digits with
      | nil => cases hd
      | cons _ _ => exact Nat.succ_pos _
    rw [List.length_cons, List.length_append]
    omega
  | @word w rest ls hw _ _ ih =>
    have hpos : 0 < w.length := by
      cases w with
      | nil => cases hw
      | cons _ _ => exact Nat.succ_pos _
    rw [List.length_cons, List.length_append]
    omega

theorem Derives.size_le {ls : List Lexeme} {e : Expr Unit} (h : Derives ls e) : e.size ≤ ls.length := by
  induction h with
  | integer | trueWord | falseWord | ident => exact Nat.le_refl 1
  | parens _ _ _ ih =>
    simp only [List.length_append, List.length_cons]
    omega
  | cond _ _ _ ihc ihy ihn =>
    simp only [Expr.size, List.length_append, List.length_cons]
    omega
  | bind _ _ _ _ ihb ihk =>
    simp only [Expr.size, List.length_append, List.length_cons]
    omega

theorem size_le_of_parse {src : Text} {e : Expr Position} (h : parse src = .ok e) : e.size ≤ src.length := by
  obtain ⟨ls, hl, hd⟩ := parse_iff.1 ⟨e, h, rfl⟩
  have hsize := hd.size_le
  rw [Expr.erase, Expr.size_map] at hsize
  exact Nat.le_trans hsize hl.length_le

end Source

theorem Expr.bindings_le_size {A : Type} : ∀ e : Expr A, e.bindings ≤ e.size
  | .lit .. | .var .. | .hole => Nat.zero_le 1
  | .cond _ c y n => by
    have := bindings_le_size c
    have := bindings_le_size y
    have := bindings_le_size n
    rw [bindings, size]
    omega
  | .bind _ _ b k => by
    have := bindings_le_size b
    have := bindings_le_size k
    rw [bindings, size]
    omega

/-! ## Formats -/

/-- A valid module can be written in every format. -/
theorem Format.exists_encode_of_validate [Json.Replacement] (f : Format) {m : Module} (h : m.validate = .ok ()) :
    ∃ data, f.encode m = .ok data := by
  cases f with
  | json => exact Json.exists_encode_of_validate h
  | llvm => exact Llvm.exists_encode_of_validate h
  | wasm =>
    obtain ⟨is, bs, -, -, -, hcode⟩ := Wasm.exists_code_body h
    exact ⟨_, mapError_eq_ok.2 (Wasm.encode_of_code hcode)⟩
  | wat =>
    obtain ⟨text, -, -, htext, -⟩ := Wat.render_of_validate h
    exact ⟨text, mapError_eq_ok.2 htext⟩

/-! ## Stages -/

/-- The strategy has a name, and the text is this name in any case. -/
def Strategy.Called (s : Strategy) (t : Text) : Prop :=
  (s = .select ∨ s = .branch) ∧ Text.sameName s.name t = true

theorem Strategy.called_of_ofName? {t : Text} {s : Strategy} (h : Strategy.ofName? t = some s) : s.Called t := by
  unfold Strategy.ofName? at h
  split at h
  · rename_i hselect
    cases h
    exact ⟨.inl rfl, hselect⟩
  · split at h
    · rename_i hbranch
      cases h
      exact ⟨.inr rfl, hbranch⟩
    · cases h

theorem Strategy.not_called_of_ofName? {t : Text} (h : Strategy.ofName? t = none) (s : Strategy) :
    ¬ s.Called t := by
  unfold Strategy.ofName? at h
  split at h
  · cases h
  · rename_i hselect
    split at h
    · cases h
    · rename_i hbranch
      rintro ⟨rfl | rfl, ht⟩
      · exact hselect ht
      · exact hbranch ht

namespace Program

variable {src : Text} {t : Typing.Elaborated Position}

theorem check_eq_ok :
    check src = .ok t ↔ ∃ e, Source.parse src = .ok e ∧ Typing.infer [] e = .ok t := by
  unfold check
  simp only [bind_eq_ok, mapError_eq_ok]

/-- Checking meets no defect: what fails it is an error in the source. -/
theorem check_eq_error {f : Failure} (h : check src = .error f) : ∃ e, f = .refused e := by
  obtain hparse | ⟨e, hparse, hinfer⟩ := bind_eq_error.1 h
  · cases he : Source.parse src with
    | ok e => rw [he] at hparse; cases hparse
    | error e =>
      rw [he] at hparse
      cases hparse
      exact ⟨_, rfl⟩
  · have hv := (Source.printable_of_parse (mapError_eq_ok.1 hparse)).1
    cases hi : Typing.infer [] e with
    | ok t => rw [hi] at hinfer; cases hinfer
    | error g =>
      obtain ⟨err, -, rfl, -⟩ := @Typing.first_of_infer Position e [] g hv hi
      rw [hi] at hinfer
      cases hinfer
      exact ⟨_, rfl⟩

/-- What checks has a value, and is given the model that checking finds. -/
theorem exists_eval (h : check src = .ok t) : ∃ v, eval src = .ok (v, t.model) := by
  obtain ⟨e, -, hi⟩ := check_eq_ok.1 h
  obtain ⟨v, hv, -⟩ := Expr.word_of_hasKind (Typing.hasKind_tree hi)
  exact ⟨v, bind_eq_ok.2 ⟨t, h, bind_eq_ok.2 ⟨v, mapError_eq_ok.2 hv, rfl⟩⟩⟩

/-- What checks has a valid module, by a strategy that has a name. -/
theorem exists_compile (h : check src = .ok t) (hlen : src.length < 2 ^ 32) (target : Target)
    (hs : target.strategy = .select ∨ target.strategy = .branch) :
    ∃ m, compile target src = .ok m ∧ m.validate = .ok () := by
  obtain ⟨e, he, hi⟩ := check_eq_ok.1 h
  have hk := Typing.hasKind_tree hi
  have hb : t.tree.bindings < 2 ^ 32 := by
    rw [Expr.bindings_of_erase (Typing.erase_of_infer hi)]
    have := Source.size_le_of_parse he
    have := e.bindings_le_size
    omega
  obtain ⟨m, -, hm, hvalid, -⟩ :=
    Expr.lower_spec hk.isValued (Expr.boundIn_nil.1 hk.boundIn) hb target hs
  exact ⟨m, bind_eq_ok.2 ⟨t, h, mapError_eq_ok.2 hm⟩, hvalid⟩

end Program

end LetIf
