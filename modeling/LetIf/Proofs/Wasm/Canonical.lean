/-
The written form of a module is canonical. Whatever data a module was read from, with padded
numbers, several groups of locals or custom sections, writing it takes no more bytes, part by part:
numbers are in their shortest form, one group holds all locals, and a section is no longer when its
contents are not. Since no length grows, every size still fits its width, so what is written is read
back as the same module, however long the data were.
-/
import LetIf.Proofs.Wasm.RoundTrip

namespace LetIf.Wasm

open Leb128

/-! ## Numbers and lengths -/

theorem IsU32.length_le {bs : Text} {n : UInt32} (h : IsU32 bs n) :
    (unsigned n.toNat).length ≤ bs.length :=
  unsigned_length_le h.1 h.2.2.ge

theorem IsS32.length_le {bs : Text} {n : Int32} (h : IsS32 bs n) :
    (signed n.toInt).length ≤ bs.length := by
  rw [← h.2.2]
  exact signed_length_le h.1

/-- Contents that are no longer have a size that still fits, and take no more bytes behind it. -/
theorem IsSized.shrink {contents bs t : Text} (h : IsSized contents bs)
    (hle : t.length ≤ contents.length) : IsSized t (sized t) ∧ (sized t).length ≤ bs.length := by
  obtain ⟨size, n, hn, hlen, rfl⟩ := h
  have h32 : Bits.span 32 = 4294967296 := rfl
  have hlt := n.toNat_lt
  have hsize : (unsigned t.length).length ≤ size.length :=
    unsigned_length_le hn.1 (by rw [hn.2.2]; omega)
  refine ⟨isSized_sized (by omega), ?_⟩
  rw [sized, List.length_append, List.length_append]
  omega

theorem IsSection.shrink {s : Section} {contents bs t : Text} (h : IsSection s contents bs)
    (hle : t.length ≤ contents.length) :
    IsSection s t (section_ s t) ∧ (section_ s t).length ≤ bs.length := by
  obtain ⟨customs, sized, -, hsized, rfl⟩ := h
  obtain ⟨ht, hlen⟩ := hsized.shrink hle
  refine ⟨isSection_of_sized ht, ?_⟩
  rw [section_, List.length_append, List.length_cons, List.length_cons]
  omega

/-! ## Locals -/

/-- Locals in any number of groups take at least the bytes of one group with their sum. -/
theorem IsGroups.length_le {groups total : Nat} {bs : Text} (h : IsGroups groups total bs)
    (hpos : 0 < total) : (unsigned total).length + 1 ≤ bs.length := by
  induction h with
  | nil => cases hpos
  | @cons size rest n groups total hn hrest ih =>
    have hsize := hn.length_le
    rw [List.length_append, List.length_cons]
    by_cases htotal : total = 0
    · subst htotal
      rw [Nat.add_zero n.toNat]
      omega
    · have hadd := unsigned_length_add n.toNat total
      have hgroups := ih (Nat.pos_of_ne_zero htotal)
      omega

theorem IsLocals.length_le {n : UInt32} {bs : Text} (h : IsLocals n bs) :
    (localsDecl n).length ≤ bs.length := by
  obtain ⟨size, groups, text, hsize, hgroups, rfl⟩ := h
  have hpos := List.length_pos_iff.2 (isU32_ne_nil hsize)
  rw [List.length_append]
  unfold localsDecl
  split
  · rw [List.length_singleton]
    omega
  · rename_i hn
    have hn : 0 < n.toNat := Nat.pos_of_ne_zero fun h => hn (UInt32.toNat_inj.1 h)
    have hlen := hgroups.length_le hn
    rw [List.cons_append, List.length_cons, List.length_append, List.length_singleton]
    omega

/-! ## Code -/

/-- Code of the grammar is written in no more bytes than any of its forms. -/
theorem IsCode.exists_code {is : List Instr} {bs : Text} (h : IsCode is bs) :
    ∃ cs, code is = .ok cs ∧ cs.length ≤ bs.length := by
  induction h with
  | nil => exact ⟨[], by rw [code], Nat.le_refl 0⟩
  | @const n imm bs is himm _ ih =>
    obtain ⟨cs, hcs, hle⟩ := ih
    have himm := himm.length_le
    refine ⟨_, code_cons_eq_ok.2 ⟨_, by rw [instr], cs, hcs, rfl⟩, ?_⟩
    simp only [List.length_append, List.length_cons]
    omega
  | @select bs is _ ih =>
    obtain ⟨cs, hcs, hle⟩ := ih
    refine ⟨_, code_cons_eq_ok.2 ⟨_, by rw [instr], cs, hcs, rfl⟩, ?_⟩
    simp only [List.length_append, List.length_cons, List.length_nil]
    omega
  | @branch ys ns bs yes no is _ _ _ ihy ihn ih =>
    obtain ⟨ys', hys, hyle⟩ := ihy
    obtain ⟨ns', hns, hnle⟩ := ihn
    obtain ⟨cs, hcs, hle⟩ := ih
    have hbranch : instr (.branch yes no) = .ok (opIf :: i32Type :: ys' ++ opElse :: ns' ++ [opEnd]) := by
      rw [instr]
      exact bind_eq_ok.2 ⟨ys', hys, bind_eq_ok.2 ⟨ns', hns, rfl⟩⟩
    refine ⟨_, code_cons_eq_ok.2 ⟨_, hbranch, cs, hcs, rfl⟩, ?_⟩
    simp only [List.length_append, List.length_cons, List.length_nil]
    omega
  | @localGet i imm bs is himm _ ih =>
    obtain ⟨cs, hcs, hle⟩ := ih
    have himm := himm.length_le
    refine ⟨_, code_cons_eq_ok.2 ⟨_, by rw [instr], cs, hcs, rfl⟩, ?_⟩
    simp only [List.length_append, List.length_cons]
    omega
  | @localSet i imm bs is himm _ ih =>
    obtain ⟨cs, hcs, hle⟩ := ih
    have himm := himm.length_le
    refine ⟨_, code_cons_eq_ok.2 ⟨_, by rw [instr], cs, hcs, rfl⟩, ?_⟩
    simp only [List.length_append, List.length_cons]
    omega

/-! ## Modules -/

/-- The body of a valid module is written in no more bytes than any form of it. -/
theorem IsBody.exists_code {m : Module} {body : Text} (h : IsBody m body) (hv : m.validate = .ok ()) :
    ∃ bs, code m.body = .ok bs ∧ IsBody m (localsDecl m.locals ++ bs) ∧
      (localsDecl m.locals ++ bs).length ≤ body.length := by
  obtain ⟨locals, is, given, hlocals, hgiven, hbody, rfl⟩ := h
  obtain ⟨is', cs, hbody', -, hcs, hcode⟩ := exists_code_body hv
  obtain rfl : is' = is := List.append_cancel_right (hbody'.symm.trans hbody)
  obtain ⟨cs', hcs', hle⟩ := hgiven.exists_code
  have hall := code_append code_stop hcs'
  rw [← hbody, hcode] at hall
  cases List.append_cancel_right (Except.ok.inj hall)
  refine ⟨_, hcode, ⟨localsDecl m.locals, is', cs, isLocals_localsDecl m.locals, hcs, hbody, by simp⟩, ?_⟩
  have hdecl := hlocals.length_le
  simp only [List.length_append]
  omega

/-- What is written for a module is a form of it, and no form of it is shorter. -/
theorem IsModule.exists_encode {m : Module} {data : Text} (h : IsModule m data)
    (hv : m.validate = .ok ()) :
    ∃ out, encode m = .ok out ∧ IsModule m out ∧ out.length ≤ data.length := by
  obtain ⟨name, chars, body, filled, types, functions, exports, codes, hname, hchars, hbody, hfilled,
    htypes, hfunctions, hexports, hcodes, rfl⟩ := h
  obtain ⟨bs, hbs, hbody', hle⟩ := hbody.exists_code hv
  obtain ⟨hname', hnameLe⟩ := hname.shrink (Nat.le_refl m.name.length)
  obtain ⟨hfilled', hfilledLe⟩ := hfilled.shrink hle
  obtain ⟨htypes', htypesLe⟩ := htypes.shrink (Nat.le_refl _)
  obtain ⟨hfunctions', hfunctionsLe⟩ := hfunctions.shrink (Nat.le_refl _)
  have hcontents : (exportsContents m.name).length ≤ (0x01 :: name ++ exportOfFunction).length := by
    simp only [exportsContents, List.length_append, List.length_cons]
    omega
  obtain ⟨hexports', hexportsLe⟩ := hexports.shrink hcontents
  obtain ⟨hcodes', hcodesLe⟩ := hcodes.shrink (t := 0x01 :: sized (localsDecl m.locals ++ bs)) (Nat.succ_le_succ hfilledLe)
  refine ⟨_, encode_of_code hbs, ⟨sized m.name, chars, _, _, _, _, _, _, hname', hchars, hbody', hfilled',
    htypes', hfunctions', hexports', hcodes', rfl⟩, ?_⟩
  simp only [moduleText, List.length_append]
  omega

/-- Data read and written again. -/
def recode (data : Text) : Option Text :=
  match decode data with
  | .ok m => (encode m).toOption
  | .error _ => none

theorem recode_of_encode {data out : Text} {m : Module} (h : decode data = .ok m)
    (hout : encode m = .ok out) : recode data = some out := by
  rw [recode, h]
  simp only [hout]
  rfl

/-- Writing gives the canonical form. Data that are read as a module are written again in no more
bytes, and what is written is read back as the same module; so writing it once more changes nothing,
all data of the same module are written alike, and none of them are shorter. -/
theorem encode_shortest {data : Text} {m : Module} (h : decode data = .ok m) :
    m.validate = .ok () ∧ Text.isUtf8 m.name = true ∧
      ∃ out, encode m = .ok out ∧ (∃ n, decode out = .ok n ∧ n.same m = true) ∧
        out.length ≤ data.length ∧ recode data = some out ∧ recode out = some out ∧
        ∀ data' m', decode data' = .ok m' → m'.same m = true →
          recode data' = some out ∧ out.length ≤ data'.length := by
  obtain ⟨hv, hm⟩ := decode_eq_ok.1 h
  obtain ⟨out, hout, hform, hle⟩ := hm.exists_encode hv
  have hback : decode out = .ok m := decode_eq_ok.2 ⟨hv, hform⟩
  obtain ⟨_, chars, _, _, _, _, _, _, -, hchars, -⟩ := hm
  refine ⟨hv, Text.isUtf8_iff.2 ⟨chars, hchars⟩, out, hout, ⟨m, hback, m.same_refl⟩, hle,
    recode_of_encode h hout, recode_of_encode hback hout, fun data' m' h' hsame => ?_⟩
  obtain rfl := Module.eq_of_same hsame
  obtain ⟨out', hout', -, hle'⟩ := (decode_eq_ok.1 h').2.exists_encode hv
  rw [hout] at hout'
  cases hout'
  exact ⟨recode_of_encode h' hout, hle'⟩

/-- Two groups of locals, a custom section and padded numbers: writing the module leaves
seven bytes out. -/
theorem encode_shortest_padded : decode paddedData = .ok paddedModule ∧
    ∃ out, encode paddedModule = .ok out ∧ out.length + 7 = paddedData.length ∧
      (∃ n, decode out = .ok n ∧ n.same paddedModule = true) ∧ recode paddedData = some out ∧
      recode out = some out := by
  have hread : decode paddedData = .ok paddedModule := decode_eq_ok.2 ⟨rfl, isModule_padded⟩
  obtain ⟨-, -, out, hout, hback, -, hdata, hagain, -⟩ := encode_shortest hread
  have hcount : (encode paddedModule).toOption.map List.length = some 48 := by decide +kernel
  rw [hout] at hcount
  have hlen : out.length = 48 := Option.some.inj hcount
  exact ⟨hread, out, hout, by rw [hlen]; rfl, hback, hdata, hagain⟩

end LetIf.Wasm
