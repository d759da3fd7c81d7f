/-
Programs run as WebAssembly. The code of an expression takes at least two bytes for each binding and
at most six for each node, and an expression has no more nodes than its source has bytes; so a module
within the sizes that the binary format can say has slots for all bindings, and the modules of sources
of ordinary length are within them. There a source with a value runs to the word of the value, on every
engine that conforms to the standard.
-/
import LetIf.Program
import LetIf.Proofs.Engine.Module
import LetIf.Proofs.Program

namespace LetIf

/-! ## Bytes of code -/

namespace Wasm

open Leb128

attribute [local simp] instr code

/-- The sequence is written in some number of bytes between the two. -/
def Takes (least most : Nat) (is : List Instr) : Prop :=
  ∃ bs, code is = .ok bs ∧ least ≤ bs.length ∧ bs.length ≤ most

namespace Takes

variable {least most least' most' : Nat} {is js : List Instr}

theorem mono (h : Takes least most is) (hl : least' ≤ least) (hm : most ≤ most') : Takes least' most' is := by
  obtain ⟨bs, hbs, h₁, h₂⟩ := h
  exact ⟨bs, hbs, by omega, by omega⟩

theorem append (h : Takes least most is) (h' : Takes least' most' js) :
    Takes (least + least') (most + most') (is ++ js) := by
  obtain ⟨bs, hbs, h₁, h₂⟩ := h
  obtain ⟨cs, hcs, h₃, h₄⟩ := h'
  exact ⟨bs ++ cs, code_append hcs hbs, by rw [List.length_append]; omega, by rw [List.length_append]; omega⟩

theorem single {i : Instr} {bs : Text} (h : instr i = .ok bs) (hl : least ≤ bs.length) (hm : bs.length ≤ most) :
    Takes least most [i] :=
  ⟨bs, code_cons_eq_ok.2 ⟨bs, h, [], by simp, List.append_nil bs⟩, hl, hm⟩

theorem const (n : Int32) : Takes 0 6 [.const n] := by
  have h : instr (.const n) = .ok (opConst :: signed n.toInt) := by simp
  exact single h (Nat.zero_le _) (Nat.succ_le_succ (isS32_signed n).2.1)

theorem localGet (i : UInt32) : Takes 0 6 [.localGet i] := by
  have h : instr (.localGet i) = .ok (opLocalGet :: unsigned i.toNat) := by simp
  exact single h (Nat.zero_le _) (Nat.succ_le_succ (isU32_unsigned i).2.1)

theorem localSet (i : UInt32) : Takes 2 6 [.localSet i] := by
  have h : instr (.localSet i) = .ok (opLocalSet :: unsigned i.toNat) := by simp
  have hpos := List.length_pos_iff.2 (isU32_ne_nil (isU32_unsigned i))
  exact single h (Nat.succ_le_succ hpos) (Nat.succ_le_succ (isU32_unsigned i).2.1)

theorem select : Takes 0 6 [.select] := by
  have h : instr .select = .ok [opSelect] := by simp
  exact single h (Nat.zero_le _) (by decide)

theorem branch (h : Takes least most is) (h' : Takes least' most' js) :
    Takes (least + least') (most + most' + 4) [.branch is js] := by
  obtain ⟨bs, hbs, h₁, h₂⟩ := h
  obtain ⟨cs, hcs, h₃, h₄⟩ := h'
  have hinstr : instr (.branch is js) = .ok (opIf :: i32Type :: bs ++ opElse :: cs ++ [opEnd]) := by
    rw [instr]
    exact bind_eq_ok.2 ⟨bs, hbs, bind_eq_ok.2 ⟨cs, hcs, rfl⟩⟩
  refine single hinstr ?_ ?_ <;>
  · simp only [List.length_append, List.length_cons, List.length_nil]
    omega

end Takes

theorem sized_length_le {t : Text} (h : t.length < Bits.span 32) : (sized t).length ≤ t.length + 5 := by
  obtain ⟨size, n, hsize, -, heq⟩ := isSized_sized h
  have := hsize.2.1
  rw [heq, List.length_append]
  omega

theorem section_length_le (s : Section) {t : Text} (h : t.length < Bits.span 32) :
    (section_ s t).length ≤ t.length + 6 :=
  Nat.succ_le_succ (sized_length_le h)

/-- What a module has besides its name and its body takes few bytes. -/
theorem moduleText_length_le (name body : Text) (h : name.length + body.length + 60 < Bits.span 32) :
    (moduleText name body).length ≤ name.length + body.length + 60 := by
  have htypes := section_length_le .types (t := typesContents) (by decide)
  have hfunctions := section_length_le .functions (t := functionsContents) (by decide)
  have hname : (exportsContents name).length ≤ name.length + 8 := by
    have := sized_length_le (t := name) (by omega)
    simp only [exportsContents, exportOfFunction, List.length_append, List.length_cons, List.length_nil]
    omega
  have hexports := section_length_le .exports (t := exportsContents name) (by omega)
  have hbody : (0x01 :: sized body).length ≤ body.length + 6 := Nat.succ_le_succ (sized_length_le (by omega))
  have hcode := section_length_le .code (t := 0x01 :: sized body) (by omega)
  have hfixed : (magic ++ version).length = 8 ∧ typesContents.length = 5 ∧ functionsContents.length = 2 := by
    decide
  simp only [moduleText, List.length_append] at hfixed ⊢
  omega

theorem localsDecl_length_le (n : UInt32) : (localsDecl n).length ≤ 7 := by
  unfold localsDecl
  split
  · exact Nat.le_add_left 1 6
  · have := (isU32_unsigned n).2.1
    rw [List.length_append, List.length_cons, List.length_singleton]
    omega

end Wasm

/-- Lowered code takes two bytes or more for each binding, and six or less for each node. -/
theorem Lowering.Lowers.takes {A : Type} {s : Strategy} {env : Env UInt32} {next next' : UInt32} {e : Expr A}
    {is : List Instr} (h : Lowers s env next e is next') : Wasm.Takes (2 * e.bindings) (6 * e.size) is := by
  induction h with
  | lit a v => exact .const v.word
  | var a _ => exact .localGet _
  | select a _ _ _ hy hn hc =>
    refine (((hy.append hn).append hc).append .select).mono ?_ ?_
    · rw [Expr.bindings]; omega
    · rw [Expr.size]; omega
  | branch a _ _ _ hc hy hn =>
    refine (hc.append (hy.branch hn)).mono ?_ ?_
    · rw [Expr.bindings]; omega
    · rw [Expr.size]; omega
  | bind a _ _ hb hk =>
    refine (hb.append ((Wasm.Takes.localSet _).append hk)).mono ?_ ?_
    · rw [Expr.bindings]; omega
    · rw [Expr.size]; omega

/-- The module of lowered code is written in as many bytes as the code takes, and few more. -/
theorem Lowering.Lowers.encode {A : Type} {s : Strategy} {env : Env UInt32} {next next' : UInt32} {e : Expr A}
    {is : List Instr} (h : Lowers s env next e is next') (name : Text) (locals : UInt32) :
    ∃ body, Wasm.encode ⟨name, locals, is ++ [.stop]⟩ = .ok (Wasm.moduleText name body) ∧
      2 * e.bindings ≤ body.length ∧ (name.length + 6 * e.size + 68 < Bits.span 32 →
        (Wasm.moduleText name body).length ≤ name.length + 6 * e.size + 68) := by
  obtain ⟨bs, hbs, hleast, hmost⟩ := h.takes
  have hlocals := Wasm.localsDecl_length_le locals
  obtain ⟨body, hbody⟩ : ∃ body, body = Wasm.localsDecl locals ++ (bs ++ [Wasm.opEnd]) := ⟨_, rfl⟩
  have hlen : body.length = (Wasm.localsDecl locals).length + (bs.length + 1) := by
    rw [hbody, List.length_append, List.length_append, List.length_singleton]
  refine ⟨body, ?_, by omega, fun hbound => ?_⟩
  · rw [hbody]
    exact Wasm.encode_of_code (Wasm.code_append Wasm.code_stop hbs)
  · have := Wasm.moduleText_length_le name body (by omega)
    omega

/-! ## Running -/

theorem Target.isUtf8_exportName {target : Target} (h : Text.isUtf8 target.name = true) :
    Text.isUtf8 target.exportName = true := by
  unfold Target.exportName
  split
  · exact Text.isUtf8_iff.2 ⟨['m', 'a', 'i', 'n'], by decide⟩
  · exact h

theorem Target.exportName_length_le (target : Target) :
    target.exportName.length ≤ target.name.length + 4 := by
  unfold Target.exportName
  split
  · exact Nat.le_add_left 4 _
  · exact Nat.le_add_right _ 4

namespace Program

variable {src : Text} {v : Value} {m : Model Position}

/-- What has a value has a tree that checks, and the word of the tree is that of the value. -/
theorem exists_tree_of_eval (h : eval src = .ok (v, m)) : ∃ e t, Source.parse src = .ok e ∧
    Typing.infer [] e = .ok t ∧ check src = .ok t ∧ t.tree.word = some v.word := by
  obtain ⟨t, hcheck, h⟩ := bind_eq_ok.1 h
  obtain ⟨v', hv, h⟩ := bind_eq_ok.1 h
  cases h
  obtain ⟨e, hparse, hinfer⟩ := check_eq_ok.1 hcheck
  obtain ⟨v', hv', hw⟩ := Expr.word_of_hasKind (Typing.hasKind_tree hinfer)
  rw [mapError_eq_ok.1 hv] at hv'
  cases hv'
  exact ⟨e, t, hparse, hinfer, hcheck, hw⟩

/-- A source with a value, under a name in UTF-8 and by a strategy that has a name, has a module that is
written. The data are a valid module, unless the source or the name is very long and a part of the module longer than
the binary format can say; and where they are one, the source runs to the word of its value. -/
theorem run_of_eval (h : eval src = .ok (v, m)) {target : Target}
    (hs : target.strategy = .select ∨ target.strategy = .branch) (hutf : Text.isUtf8 target.name = true) :
    ∃ md data, compile target src = .ok md ∧ Wasm.encode md = .ok data ∧
      (src.length ≤ 2 ^ 29 → target.name.length ≤ 2 ^ 29 → Engine.Standard.IsValidModule data) ∧
      ∀ [Engine.Runtime], Engine.Standard.Conforms → Engine.Standard.IsValidModule data →
        run target src = .ok v.word := by
  have hspan : Bits.span 32 = 2 ^ 32 := rfl
  obtain ⟨e, t, hparse, hinfer, hcheck, hword⟩ := exists_tree_of_eval h
  have hk := Typing.hasKind_tree hinfer
  have hclosed := Expr.boundIn_nil.1 hk.boundIn
  obtain ⟨is, n, hl⟩ := Lowering.exists_lowers hs hk.isValued (Expr.boundIn_nil.2 hclosed) 0
  have hlower : t.tree.lower target = .ok ⟨target.exportName, n, is ++ [.stop]⟩ := by
    rw [Expr.lower, hl.code]
    rfl
  have hcompile : compile target src = .ok ⟨target.exportName, n, is ++ [.stop]⟩ :=
    bind_eq_ok.2 ⟨t, hcheck, mapError_eq_ok.2 hlower⟩
  obtain ⟨body, hencode, hleast, hmost⟩ := hl.encode target.exportName n
  -- with slots for all bindings the module is valid, and executes to the word of the source
  have hwritten : t.tree.bindings < 2 ^ 32 → ∃ ops,
      Engine.Written ⟨target.exportName, n, is ++ [.stop]⟩ (Wasm.moduleText target.exportName body) ops v.word := by
    intro hbindings
    obtain ⟨md, w, hmd, hvalid, hexec, hw⟩ := Expr.lower_spec hk.isValued hclosed hbindings target hs
    cases hlower.symm.trans hmd
    cases hword.symm.trans hw
    obtain ⟨data, ops, w, hwritten⟩ := Engine.exists_written hvalid (Target.isUtf8_exportName hutf)
    cases hencode.symm.trans hwritten.encode
    cases hexec.symm.trans hwritten.execute
    exact ⟨ops, hwritten⟩
  refine ⟨_, _, hcompile, hencode, fun hsrc hname => ?_, fun {_} hrt hdata => ?_⟩
  · have hsize : t.tree.size ≤ src.length := by
      rw [Expr.size_of_erase (Typing.erase_of_infer hinfer)]
      exact Source.size_le_of_parse hparse
    have hexport := target.exportName_length_le
    have hbindings := t.tree.bindings_le_size
    obtain ⟨ops, hwritten⟩ := hwritten (by omega)
    exact hwritten.isValidModule (by omega)
  · obtain ⟨p, hp⟩ : ∃ p, Engine.Standard.IsModule p _ := hdata.imp fun _ => And.left
    have hbody := (Engine.fits_of_isModule hp).body_lt
    obtain ⟨ops, hwritten⟩ := hwritten (by omega)
    have hcall := (hwritten.call hrt hdata).1
    exact bind_eq_ok.2 ⟨_, mapError_eq_ok.2 hcompile,
      bind_eq_ok.2 ⟨_, mapError_eq_ok.2 hencode, mapError_eq_ok.2 hcall⟩⟩

end Program

end LetIf
