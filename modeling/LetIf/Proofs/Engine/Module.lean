/-
Written modules under the standard. What is written for a valid module is, unless a part is longer than the
binary format can say, a program of one function. The program is valid, so an engine that conforms to the
standard has the export and no other, and calling it gives the word to which the module executes.
-/
import LetIf.Proofs.Engine.Builtin
import LetIf.Proofs.Engine.Code
import LetIf.Proofs.Wasm.RoundTrip
import LetIf.Proofs.Wasm.Widths

namespace LetIf.Engine

open Standard
open Bits (span)
open Wasm (IsSized opEnd sized)

/-! ## Pieces -/

theorem isMeasured_of_isSized {t bs : Text} (h : IsSized t bs) : IsMeasured t bs := by
  obtain ⟨size, n, hn, hlen, rfl⟩ := h
  exact .mk (hlen ▸ isUnsigned_of_isU32 hn)

theorem isMeasured_sized {t : Text} (h : t.length < span 32) : IsMeasured t (sized t) :=
  isMeasured_of_isSized (Wasm.isSized_sized h)

theorem isUnsigned_zero : IsUnsigned 32 0 [0x00] := isUnsigned_of_isU32 (by decide : Wasm.IsU32 [0x00] 0)

theorem isUnsigned_one : IsUnsigned 32 1 [0x01] := isUnsigned_of_isU32 (by decide : Wasm.IsU32 [0x01] 1)

theorem isVector_one {α : Type} {item : α → Text → Prop} {a : α} {t : Text} (h : item a t) :
    IsVector item [a] (0x01 :: t) := by
  have hcount : IsUnsigned 32 [a].length [0x01] := isUnsigned_one
  have hvec := IsVector.mk hcount (.cons h .nil)
  rwa [List.append_nil] at hvec

theorem isVector_nil {α : Type} {item : α → Text → Prop} : IsVector item [] [0x00] := by
  have hcount : IsUnsigned 32 ([] : List α).length [0x00] := isUnsigned_zero
  exact .mk hcount .nil

/-- The local variables of a function with `n` slots, as they are declared. -/
def localGroups (n : UInt32) : List (Nat × ValType) := if n = 0 then [] else [(n.toNat, .i32)]

theorem isVector_localsDecl (n : UInt32) : IsVector IsGroup (localGroups n) (Wasm.localsDecl n) := by
  unfold localGroups Wasm.localsDecl
  split
  · exact isVector_nil
  · have hn : IsUnsigned 32 n.toNat (Wasm.Leb128.unsigned n.toNat) := isUnsigned_of_isU32 (Wasm.isU32_unsigned n)
    exact isVector_one (.mk hn)

theorem declared_localGroups (n : UInt32) : declared (localGroups n) = n.toNat := by
  unfold localGroups
  split
  · rename_i hn
    rw [hn]
    rfl
  · exact Nat.add_zero _

theorem localTypes_localGroups (n : UInt32) (ops : List Op) (results : List ValType) :
    localTypes ⟨[], results⟩ ⟨localGroups n, ops⟩ = numbers n.toNat := by
  unfold localTypes localGroups
  split
  · rename_i hn
    rw [hn]
    rfl
  · exact List.append_nil _

/-! ## The binary format -/

/-- The program of one function without parameters, exported under a name. -/
def single (name : Text) (locals : UInt32) (ops : List Op) : Program where
  signatures := [⟨[], [.i32]⟩]
  functions := [0]
  exports := [(name, 0)]
  bodies := [⟨localGroups locals, ops⟩]

theorem isVector_types : IsVector IsSignature [⟨[], [.i32]⟩] Wasm.typesContents := by
  have hresult : IsValType .i32 [Wasm.i32Type] := rfl
  have hs := IsSignature.mk (s := ⟨[], [.i32]⟩) isVector_nil (isVector_one hresult)
  exact isVector_one hs

theorem isVector_functions : IsVector (IsUnsigned 32) [0] Wasm.functionsContents :=
  isVector_one isUnsigned_zero

theorem isVector_exports {name : Text} (hutf : Text.isUtf8 name = true) (hlen : name.length < span 32) :
    IsVector IsExport [(name, 0)] (Wasm.exportsContents name) :=
  isVector_one (.mk ⟨hutf, isMeasured_sized hlen⟩ isUnsigned_zero)

/-- Every length in a module is one that the binary format can say. -/
structure Fits (name body : Text) : Prop where
  exports : (Wasm.exportsContents name).length < span 32
  code : (0x01 :: sized body).length < span 32

namespace Fits

variable {name body : Text} (h : Fits name body)
include h

theorem name_lt : name.length < span 32 := by
  have := Wasm.length_le_sized name
  have := h.exports
  simp only [Wasm.exportsContents, List.length_append, List.length_cons] at this
  omega

theorem body_lt : body.length < span 32 := by
  have := Wasm.length_le_sized body
  have := h.code
  rw [List.length_cons] at this
  omega

end Fits

/-- Every part of a module is shorter than the whole. -/
theorem fits_of_length {name body : Text} (h : (Wasm.moduleText name body).length < span 32) : Fits name body := by
  have hexports := Wasm.length_le_sized (Wasm.exportsContents name)
  have hcode := Wasm.length_le_sized (0x01 :: sized body)
  simp only [Wasm.moduleText, Wasm.section_, List.length_append, List.length_cons] at h
  exact ⟨by omega, by omega⟩

theorem moduleText_eq (name body : Text) : Wasm.moduleText name body =
    header ++ (Wasm.section_ .types Wasm.typesContents ++ (Wasm.section_ .functions Wasm.functionsContents ++
      (Wasm.section_ .exports (Wasm.exportsContents name) ++ (Wasm.section_ .code (0x01 :: sized body) ++ [])))) := by
  simp only [Wasm.moduleText, Wasm.magic, Wasm.version, header, List.append_assoc, List.cons_append,
    List.nil_append, List.append_nil]

/-- Written code is a program of one function. -/
theorem isModule_single {name bs : Text} {locals : UInt32} {ops : List Op} (hops : IsCode ops bs)
    (hutf : Text.isUtf8 name = true) (h : Fits name (Wasm.localsDecl locals ++ (bs ++ [opEnd]))) :
    IsModule (single name locals ops) (Wasm.moduleText name (Wasm.localsDecl locals ++ (bs ++ [opEnd]))) := by
  have hlocals : declared (localGroups locals) < span 32 := by
    rw [declared_localGroups]
    exact locals.toNat_lt
  have hbody : IsBody ⟨localGroups locals, ops⟩ (sized (Wasm.localsDecl locals ++ (bs ++ [opEnd]))) :=
    .mk (isVector_localsDecl locals) hlocals hops (isMeasured_sized h.body_lt)
  rw [moduleText_eq]
  have hcode : IsSections 7 ⟨[], [], [], [⟨localGroups locals, ops⟩]⟩ (Wasm.section_ .code _ ++ []) :=
    .code (by decide) (isVector_one hbody) (isMeasured_sized h.code) .nil
  have hexports : IsSections 3 ⟨[], [], [(name, 0)], [⟨localGroups locals, ops⟩]⟩ (Wasm.section_ .exports _ ++ _) :=
    .exports (by decide) (isVector_exports hutf h.name_lt) (isMeasured_sized h.exports) hcode
  have hfunctions : IsSections 1 ⟨[], [0], [(name, 0)], [⟨localGroups locals, ops⟩]⟩
      (Wasm.section_ .functions _ ++ _) :=
    .functions (by decide) isVector_functions (isMeasured_sized (by decide)) hexports
  exact .mk (.types (by decide) isVector_types (isMeasured_sized (by decide)) hfunctions)

/-! ## Parts of modules in the format -/

/-- A length has one form in front of what it measures, so what is written behind its length is what the format
finds there. -/
theorem measured_unique {t rest c bs rest' : Text} (h : IsMeasured c bs) (heq : sized t ++ rest = bs ++ rest') :
    t.length < span 32 ∧ rest = rest' := by
  obtain ⟨hn⟩ := h
  obtain ⟨hnum, -, hval, hfit⟩ := (isUnsigned_iff (by decide)).1 hn
  obtain ⟨hnum', hval'⟩ := Wasm.Leb128.unsigned_spec t.length
  rw [sized, List.append_assoc, List.append_assoc] at heq
  obtain ⟨hsize, heq⟩ := Wasm.Leb128.number_append_inj hnum' hnum heq
  have hlen : t.length = c.length := by rw [← hval', hsize, hval]
  obtain ⟨-, hrest⟩ := List.append_inj heq hlen
  exact ⟨by omega, hrest⟩

theorem sections_section {last id : UInt8} {p : Program} {contents rest : Text}
    (h : IsSections last p (id :: (sized contents ++ rest))) :
    contents.length < span 32 ∧ ∃ last p, IsSections last p rest := by
  generalize hsrc : id :: (sized contents ++ rest) = src at h
  have key : ∀ {c t more : Text} {id' : UInt8} {last' : UInt8} {p' : Program}, IsMeasured c t →
      IsSections last' p' more → id :: (sized contents ++ rest) = id' :: (t ++ more) →
      contents.length < span 32 ∧ ∃ last p, IsSections last p rest := by
    intro c t more id' last' p' hm hs heq
    obtain ⟨hlen, rfl⟩ := measured_unique hm (List.cons.inj heq).2
    exact ⟨hlen, last', p', hs⟩
  cases h with
  | nil => cases hsrc
  | custom _ hm hs => exact key hm hs hsrc
  | types _ _ hm hs => exact key hm hs hsrc
  | functions _ _ hm hs => exact key hm hs hsrc
  | exports _ _ hm hs => exact key hm hs hsrc
  | code _ _ hm hs => exact key hm hs hsrc

theorem fits_of_isModule {p : Program} {name body : Text} (h : IsModule p (Wasm.moduleText name body)) :
    Fits name body := by
  rw [moduleText_eq] at h
  generalize hdata : header ++ _ = data at h
  obtain ⟨hs⟩ := h
  obtain rfl := List.append_cancel_left hdata
  obtain ⟨-, _, _, hs⟩ := sections_section hs
  obtain ⟨-, _, _, hs⟩ := sections_section hs
  obtain ⟨hexports, _, _, hs⟩ := sections_section hs
  obtain ⟨hcode, -⟩ := sections_section hs
  exact ⟨hexports, hcode⟩

/-! ## Validity and exports -/

section Single

variable {name : Text} {locals : UInt32} {ops : List Op}

theorem valid_single (ht : Typed (numbers locals.toNat) ops [] [.i32]) : Valid (single name locals ops) where
  arity := by
    intro s hs
    obtain rfl := List.mem_singleton.1 hs
    exact Nat.le_refl 1
  count := rfl
  bodies := by
    intro f hf
    obtain rfl := List.mem_singleton.1 hf
    refine ⟨⟨[], [.i32]⟩, rfl, ?_⟩
    rw [localTypes_localGroups]
    exact ht
  exports := by
    intro e he
    obtain rfl := List.mem_singleton.1 he
    exact Nat.one_pos
  distinct := List.pairwise_singleton _ name

theorem exports_single : Exports (single name locals ops) name ⟨[], [.i32]⟩ ⟨localGroups locals, ops⟩ :=
  ⟨0, 0, List.mem_singleton.2 rfl, rfl, rfl, rfl⟩

theorem not_exports_single {n : Text} (hn : n ≠ name) (s : Signature) (b : Body) :
    ¬ Exports (single name locals ops) n s b := by
  rintro ⟨i, j, hmem, -⟩
  obtain ⟨rfl, -⟩ := Prod.mk.inj (List.mem_singleton.1 hmem)
  exact hn rfl

end Single

/-! ## Calls -/

/-- A number is got back from its word. -/
theorem decode32_word (w : Int32) : decode32 (Val.i32 w).word = w := by
  unfold decode32 Val.word
  rw [UInt32.toUInt32_toUInt64]
  rfl

section Calls

variable [Runtime] {i : Instance} {p : Program} {data name : Text} (hi : Runtime.instantiate data = some i)
  (hp : Implements i p)
include hi hp

/-- A function without parameters is called to the number that its body leaves. -/
theorem call_of_runs {b : Body} {w : Int32} {ls : List Val} (he : Exports p name ⟨[], [.i32]⟩ b)
    (hr : Runs b.code [] ((localTypes ⟨[], [.i32]⟩ b).map .zero) (some ([.i32 w], ls))) :
    call data name = .ok w := by
  obtain ⟨f, hf, hperf⟩ := hp.exported he
  obtain ⟨⟨words, hlen⟩, hcall, hwords⟩ := hperf.returns rfl hr
  obtain rfl : words = [(Val.i32 w).word] := hwords
  have hparams : ¬ f.params.length ≠ 0 := by rw [hperf.params]; exact fun h => h rfl
  unfold call
  rw [hi]
  simp only [hf]
  rw [if_neg hparams, dif_pos hperf.results, hcall]
  exact congrArg Except.ok (decode32_word w)

theorem call_of_missing (hn : ∀ s b, ¬ Exports p name s b) : call data name = .error (.notFound name) := by
  unfold call
  rw [hi]
  simp only [hp.missing hn]

end Calls

/-- Data are written for a module, whose code is `ops` in WebAssembly and executes to `w`. -/
structure Written (m : Module) (data : Text) (ops : List Op) (w : Int32) : Prop where
  encode : Wasm.encode m = .ok data
  /-- The data are in the format if they are short, and if they are in it at all. -/
  isModule : data.length < span 32 ∨ IsValidModule data → IsModule (single m.name m.locals ops) data
  valid : Valid (single m.name m.locals ops)
  execute : m.execute = .ok w
  runs : ∃ ls, Runs ops [] ((numbers m.locals.toNat).map .zero) (some ([.i32 w], ls))

theorem exists_written {m : Module} (hv : m.validate = .ok ()) (hutf : Text.isUtf8 m.name = true) :
    ∃ data ops w, Written m data ops w := by
  obtain ⟨is, bs, hbody, hd, hcode, hall⟩ := Wasm.exists_code_body hv
  obtain ⟨ops, hops, hisCode⟩ := exists_codes_of_isCode hcode
  have hslots : (Slots.zeros m.locals.toNat).count = m.locals.toNat := rfl
  obtain ⟨top, slots, htop, -, hr⟩ := Machine.leaves_of_depth hd hslots
  obtain ⟨w, rfl⟩ := List.length_eq_one_iff.1 htop
  refine ⟨_, ops, w, Wasm.encode_of_code hall, ?_, valid_single (hops.typed hd), ?_, values slots, ?_⟩
  · rintro (hlen | ⟨p, hp, -⟩)
    · exact isModule_single hisCode hutf (fits_of_length hlen)
    · exact isModule_single hisCode hutf (fits_of_isModule hp)
  · exact Module.execute_of_run hv (by rw [hbody]; exact (hr []).run_stop 0)
  · rw [← values_zeros]
    exact hops.runs (s := ⟨[], .zeros m.locals.toNat⟩) hd hslots ((hr []).run 0)

namespace Written

variable {m : Module} {data : Text} {ops : List Op} {w : Int32} (h : Written m data ops w)
include h

theorem isValidModule (hlen : data.length < span 32) : IsValidModule data :=
  ⟨_, h.isModule (.inl hlen), h.valid⟩

/-- A valid module is called by the name of its export, to the word to which it executes, and by no other. -/
theorem call [Runtime] (hrt : Conforms) (hdata : IsValidModule data) : Engine.call data m.name = .ok w ∧
    ∀ name, name ≠ m.name → Engine.call data name = .error (.notFound name) := by
  obtain ⟨i, hi, hp⟩ := hrt.instantiates (h.isModule (.inr hdata)) h.valid
  obtain ⟨ls, hr⟩ := h.runs
  rw [← localTypes_localGroups m.locals ops [.i32]] at hr
  exact ⟨call_of_runs hi hp exports_single hr,
    fun name hne => call_of_missing hi hp (not_exports_single hne)⟩

end Written

/-- The machine predicts the engine. On an engine that decodes, validates and runs modules as WebAssembly 1.0
prescribes: every valid module whose name is UTF-8 is written and executes to a word; unless its data have
`2 ^ 32` bytes or more, the engine calls its export to the same word, and finds no export of any other name. -/
theorem call_encode [Runtime] (hrt : Conforms) {m : Module} (hv : m.validate = .ok ())
    (hutf : Text.isUtf8 m.name = true) :
    ∃ data w, Wasm.encode m = .ok data ∧ m.execute = .ok w ∧
      (data.length < span 32 → call data m.name = .ok w ∧ ∀ name, name ≠ m.name →
        call data name = .error (.notFound name) ∧
          (CallError.notFound name).message = "export not found: " ++ name) := by
  obtain ⟨data, ops, w, h⟩ := exists_written hv hutf
  refine ⟨data, w, h.encode, h.execute, fun hlen => ?_⟩
  obtain ⟨hcall, hother⟩ := h.call hrt (h.isValidModule hlen)
  exact ⟨hcall, fun name hne => ⟨hother name hne, rfl⟩⟩

/-- A name with a blank and a character that is not in ASCII, a slot that is read before it is set, and
operands whose order decides. -/
def orderedOperands : Module where
  name := "é main"
  locals := 200
  body := [.localGet 199, .const (-2147483648), .localGet 0, .select, .localSet 130, .const 3, .const 4,
    .localGet 130, .branch [.const 1, .branch [.localGet 130] [.const 0]] [.const 0], .select, .stop]

theorem call_orderedOperands : @Conforms builtin ∧ orderedOperands.validate = .ok () ∧
    Text.isUtf8 orderedOperands.name = true ∧ orderedOperands.execute = .ok 3 ∧
    ∃ data, Wasm.encode orderedOperands = .ok data ∧ data.length < span 32 ∧
      @call builtin data "é main" = .ok 3 ∧ @call builtin data "main" = .error (.notFound "main") := by
  have hv : orderedOperands.validate = .ok () := by decide
  have hutf : Text.isUtf8 orderedOperands.name = true :=
    Text.isUtf8_iff.2 ⟨['é', ' ', 'm', 'a', 'i', 'n'], by decide⟩
  obtain ⟨data, w, hdata, hw, h⟩ := call_encode builtin_conforms hv hutf
  have hcount : (Wasm.encode orderedOperands).toOption.map List.length = some 81 := by decide +kernel
  have hlen : data.length < span 32 := by
    rw [hdata] at hcount
    rw [Option.some.inj hcount]
    decide
  have h3 : orderedOperands.execute = .ok 3 := by decide +kernel
  rw [h3] at hw
  cases hw
  obtain ⟨hcall, hother⟩ := h hlen
  exact ⟨builtin_conforms, hv, hutf, h3, data, hdata, hlen, hcall, (hother "main" (by decide)).1⟩

end LetIf.Engine
