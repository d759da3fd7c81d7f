/-
Modules survive the binary format. What is written for a valid module is one of the forms that the
grammar allows for it, with every number in its shortest form, so decoding gives the module back.
-/
import LetIf.Proofs.Code.Same
import LetIf.Proofs.Wasm.Decode

namespace LetIf.Wasm

open Leb128 Code

attribute [local simp] instr code

/-! ## Numbers -/

theorem isU32_unsigned (n : UInt32) : IsU32 (unsigned n.toNat) n := by
  obtain ⟨hn, hv⟩ := unsigned_spec n.toNat
  refine ⟨hn, unsigned_length (k := 4) ?_, hv⟩
  exact Nat.lt_of_lt_of_le n.toNat_lt (Bits.span_le_span (by decide : 32 ≤ 7 * (4 + 1)))

theorem isS32_signed (n : Int32) : IsS32 (signed n.toInt) n := by
  obtain ⟨hn, hv⟩ := signed_spec n.toInt
  have h28 : 64 * Bits.span (7 * 4) = 17179869184 := rfl
  have hlo := n.le_toInt
  have hhi := n.toInt_lt
  exact ⟨hn, signed_length (k := 4) (by omega) (by omega), hv⟩

/-- The size of contents shorter than `2 ^ 32` bytes. -/
theorem isSized_sized {t : Text} (h : t.length < Bits.span 32) : IsSized t (sized t) := by
  have ht : (UInt32.ofNat t.length).toNat = t.length := by
    rw [UInt32.toNat_ofNat']; exact Nat.mod_eq_of_lt h
  refine ⟨unsigned t.length, UInt32.ofNat t.length, ?_, ht, rfl⟩
  have := isU32_unsigned (UInt32.ofNat t.length)
  rwa [ht] at this

theorem isSection_of_sized {s : Section} {contents : Text} (h : IsSized contents (sized contents)) :
    IsSection s contents (section_ s contents) :=
  ⟨[], sized contents, .nil, h, rfl⟩

theorem isLocals_localsDecl (n : UInt32) : IsLocals n (localsDecl n) := by
  unfold localsDecl
  split
  · rename_i h
    subst h
    exact ⟨[0], 0, [], by decide, .nil, rfl⟩
  · exact ⟨[1], 1, unsigned n.toNat ++ [i32Type], by decide, .cons (isU32_unsigned n) .nil, rfl⟩

/-! ## Code -/

theorem code_cons_eq_ok {i : Instr} {is : List Instr} {bs : Text} : code (i :: is) = .ok bs ↔
    ∃ a, instr i = .ok a ∧ ∃ b, code is = .ok b ∧ a ++ b = bs := by
  simp only [code, bind_eq_ok, pure_eq_ok]

mutual

/-- An instruction that passes validation is written, in front of any code. -/
theorem instr_of_depthAfter {locals : UInt32} : ∀ {i : Instr} {pc d d' : Nat},
    depthAfter locals pc d i = .ok d' →
      ∃ bs, instr i = .ok bs ∧ ∀ {is : List Instr} {cs : Text}, IsCode is cs → IsCode (i :: is) (bs ++ cs)
  | .const n, _, _, _, _ => ⟨_, by simp, fun hc => .const (isS32_signed n) hc⟩
  | .select, _, _, _, _ => ⟨[opSelect], by simp, fun hc => .select hc⟩
  | .branch yes no, _, _, _, h => by
    obtain ⟨-, hy, hn, -⟩ := depthAfter_branch_eq_ok.1 h
    obtain ⟨ys, hys, hyc⟩ := code_of_depthFrom hy
    obtain ⟨ns, hns, hnc⟩ := code_of_depthFrom hn
    refine ⟨opIf :: i32Type :: ys ++ opElse :: ns ++ [opEnd], ?_, fun {is cs} hc => ?_⟩
    · rw [instr]
      exact bind_eq_ok.2 ⟨ys, hys, bind_eq_ok.2 ⟨ns, hns, rfl⟩⟩
    · have := IsCode.branch hyc hnc hc
      simpa using this
  | .localGet i, _, _, _, _ => ⟨_, by simp, fun hc => .localGet (isU32_unsigned i) hc⟩
  | .localSet i, _, _, _, _ => ⟨_, by simp, fun hc => .localSet (isU32_unsigned i) hc⟩
  | .stop, _, _, _, h => by simp [depthAfter] at h
  | .unknown, _, _, _, h => by simp [depthAfter] at h

theorem code_of_depthFrom {locals : UInt32} : ∀ {is : List Instr} {pc d d' : Nat},
    depthFrom locals pc d is = .ok d' → ∃ bs, code is = .ok bs ∧ IsCode is bs
  | [], _, _, _, _ => ⟨[], by simp, .nil⟩
  | i :: is, _, _, _, h => by
    obtain ⟨d₁, hi, his⟩ := depthFrom_cons_eq_ok.1 h
    obtain ⟨bs, hbs, hi⟩ := instr_of_depthAfter hi
    obtain ⟨cs, hcs, hc⟩ := code_of_depthFrom his
    exact ⟨bs ++ cs, code_cons_eq_ok.2 ⟨bs, hbs, cs, hcs, rfl⟩, hi hc⟩

end

theorem code_append {js : List Instr} {cs : Text} (hjs : code js = .ok cs) : ∀ {is : List Instr} {bs : Text},
    code is = .ok bs → code (is ++ js) = .ok (bs ++ cs)
  | [], bs, his => by
    simp only [code, Except.ok.injEq] at his
    subst his
    exact hjs
  | i :: is, bs, his => by
    obtain ⟨a, ha, b, hb, rfl⟩ := code_cons_eq_ok.1 his
    exact code_cons_eq_ok.2 ⟨a, ha, b ++ cs, code_append hjs hb, (List.append_assoc ..).symm⟩

theorem code_stop : code [.stop] = .ok [opEnd] :=
  code_cons_eq_ok.2 ⟨[opEnd], by simp, [], by simp, rfl⟩

/-! ## Modules -/

theorem length_le_sized (t : Text) : t.length ≤ (sized t).length := by
  rw [sized, List.length_append]; omega

/-- The body of a valid module is written as code of the grammar and an `end`. -/
theorem exists_code_body {m : Module} (hv : m.validate = .ok ()) : ∃ is bs, m.body = is ++ [.stop] ∧
    Code.depth m.locals is = .ok 1 ∧ IsCode is bs ∧ code m.body = .ok (bs ++ [opEnd]) := by
  obtain ⟨-, is, hbody, hd⟩ := Module.validate_eq_ok.1 hv
  obtain ⟨bs, hbs, hcode⟩ := code_of_depthFrom hd
  exact ⟨is, bs, hbody, hd, hcode, by rw [hbody]; exact code_append code_stop hbs⟩

/-- The data of a module by its name and the text of its body. -/
def moduleText (name body : Text) : Text :=
  magic ++ version ++ section_ .types typesContents ++ section_ .functions functionsContents ++
    section_ .exports (exportsContents name) ++ section_ .code (0x01 :: sized body)

theorem encode_of_code {m : Module} {bs : Text} (h : code m.body = .ok bs) :
    encode m = .ok (moduleText m.name (localsDecl m.locals ++ bs)) := by
  rw [encode, h]
  rfl

/-- Every length that is written in a module is less than that of the whole. -/
theorem isSized_of_moduleText {name body : Text} (h : (moduleText name body).length < Bits.span 32) :
    IsSized name (sized name) ∧ IsSized (exportsContents name) (sized (exportsContents name)) ∧
      IsSized body (sized body) ∧ IsSized (0x01 :: sized body) (sized (0x01 :: sized body)) := by
  have hname₁ := length_le_sized name
  have hname₂ := length_le_sized (exportsContents name)
  have hbody₁ := length_le_sized body
  have hbody₂ := length_le_sized (0x01 :: sized body)
  simp only [moduleText, section_, List.length_append, List.length_cons] at h
  simp only [exportsContents, List.length_append, List.length_cons] at hname₂ h hbody₂
  refine ⟨isSized_sized (by omega), isSized_sized ?_, isSized_sized (by omega), isSized_sized ?_⟩
  · simp only [exportsContents, List.length_append, List.length_cons]; omega
  · rw [List.length_cons]; omega

/-- The writer succeeds on every valid module, and writes a form of it. -/
theorem encode_of_validate {m : Module} (hv : m.validate = .ok ()) {chars : List Char}
    (hname : m.name = Text.ofChars chars) :
    ∃ data, encode m = .ok data ∧ (data.length < Bits.span 32 → IsModule m data) := by
  obtain ⟨is, bs, hbody, -, hcode, hall⟩ := exists_code_body hv
  refine ⟨_, encode_of_code hall, fun hlen => ?_⟩
  obtain ⟨hsizedName, hexports, hsizedBody, hbodies⟩ := isSized_of_moduleText hlen
  refine ⟨sized m.name, chars, _, _, _, _, _, _, hsizedName, hname, ?_, hsizedBody,
    isSection_of_sized (isSized_sized (by decide)), isSection_of_sized (isSized_sized (by decide)),
    isSection_of_sized hexports, isSection_of_sized hbodies, rfl⟩
  exact ⟨localsDecl m.locals, is, bs, isLocals_localsDecl m.locals, hcode, hbody, by simp⟩

/-- The round trip through the binary format: every valid module whose name is UTF-8 is written, and
unless that takes `2 ^ 32` bytes or more, reading it gives an equal module. -/
theorem decode_encode_same {m : Module} (hv : m.validate = .ok ()) {chars : List Char}
    (hname : m.name = Text.ofChars chars) :
    ∃ data, encode m = .ok data ∧
      (data.length < Bits.span 32 → ∃ n, decode data = .ok n ∧ n.same m = true) := by
  obtain ⟨data, hdata, hm⟩ := encode_of_validate hv hname
  refine ⟨data, hdata, fun hlen => ⟨m, ?_, m.same_refl⟩⟩
  exact decode_eq_ok.2 ⟨hv, hm hlen⟩

/-- Extreme constants, the highest slot of many, and an arm in the arm of a branch; the name is not
in ASCII. -/
def extremeModule : Module where
  name := "é"
  locals := 4294967295
  body := [.const (-2147483648), .localSet 4294967294, .const 2147483647,
    .branch [.const 64, .branch [.localGet 4294967294] [.const (-65)]] [.const 0], .stop]

theorem decode_encode_extreme : extremeModule.validate = .ok () ∧
    ∃ data, encode extremeModule = .ok data ∧ data.length < Bits.span 32 ∧
      ∃ n, decode data = .ok n ∧ n.same extremeModule = true := by
  have hv : extremeModule.validate = .ok () := by decide
  have hname : extremeModule.name = Text.ofChars ['é'] := by decide
  obtain ⟨data, hdata, h⟩ := decode_encode_same hv hname
  have hcount : (encode extremeModule).toOption.map List.length = some 79 := by decide +kernel
  have hlen : data.length < Bits.span 32 := by
    rw [hdata] at hcount
    rw [Option.some.inj hcount]
    decide
  exact ⟨hv, data, hdata, hlen, h hlen⟩

end LetIf.Wasm
