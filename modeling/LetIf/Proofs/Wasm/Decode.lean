/-
The reader of modules accepts exactly its format. What it reads is a module of the grammar whose
contents fill their sections, every module of the grammar is read back, and every other input is
refused at an offset within the data.
-/
import LetIf.Proofs.Code.Validation
import LetIf.Proofs.Text.Utf8
import LetIf.Proofs.Wasm.Faults

namespace LetIf.Wasm

/-! ## Modules -/

/-- A section that holds one thing of a given size, and then `after`. -/
theorem isSection_of_one {s : Section} {src mid behind contents after rest : Text} {left : Nat}
    {n : UInt32} {hlt : behind.length < mid.length}
    (hh : sectionHeader s src = .ok (left, [0x01] ++ mid)) (hn : u32 mid = .ok ⟨n, behind, hlt⟩)
    (hb : behind = contents ++ after ++ rest) (hlen : n.toNat = contents.length)
    (hl : rest.length = left) :
    ∃ bs sized, src = bs ++ rest ∧ IsSized contents sized ∧ IsSection s (0x01 :: sized ++ after) bs := by
  obtain ⟨size, rfl, hsize⟩ := u32_eq_ok.1 hn
  have hshape : [0x01] ++ (size ++ behind) = (0x01 :: (size ++ contents) ++ after) ++ rest := by
    simp [hb]
  rw [hshape] at hh
  obtain ⟨bs, hsrc, hs⟩ := isSection_of_header hh hl
  exact ⟨bs, size ++ contents, hsrc, ⟨size, n, hsize, hlen, rfl⟩, hs⟩

theorem isModule_of_module {data : Text} {m : Module} (h : module data = .ok m) : IsModule m data := by
  unfold module at h
  simp only [bind_eq_ok, ite_throw_eq_ok, pure_eq_ok, expect_eq_ok, closeSection_eq_ok] at h
  obtain ⟨_, rfl, src, rfl, h⟩ := h
  obtain ⟨⟨_, _⟩, ht, src₁, rfl, _, hl₁, h⟩ := h
  obtain ⟨⟨_, _⟩, hf, src₂, rfl, _, hl₂, h⟩ := h
  obtain ⟨⟨_, _⟩, he, _, rfl, ⟨n, named, _⟩, hn, hle, hutf, src₃, hdrop, _, hl₃, h⟩ := h
  obtain ⟨⟨left, _⟩, hc, _, rfl, ⟨k, filled, _⟩, hk, hfill, h⟩ := h
  obtain ⟨⟨groups, _, _⟩, hg, ⟨locals, _⟩, hlocals, ⟨⟨is, last⟩, src₄, _⟩, hs, hlast, _, hl₄, hend, rfl⟩ := h
  dsimp only at *
  obtain ⟨types, rfl, htypes⟩ := isSection_of_header ht hl₁
  obtain ⟨functions, rfl, hfunctions⟩ := isSection_of_header hf hl₂
  -- the name is what the size takes from behind it
  obtain ⟨name, hname⟩ : ∃ name, named.take n.toNat = name := ⟨_, rfl⟩
  have hnamed : named = name ++ exportOfFunction ++ src₃ := by
    rw [List.append_assoc, ← hname, ← hdrop, List.take_append_drop]
  have hlen : n.toNat = name.length := by rw [← hname, List.length_take]; omega
  obtain ⟨exports, sizedName, rfl, hsizedName, hexports⟩ := isSection_of_one he hn hnamed hlen hl₃
  obtain ⟨chars, hchars⟩ := Text.isUtf8_iff.1 (by simpa using hutf)
  -- the body ends where its code does, which is the end of the data
  obtain rfl := Decidable.not_not.1 hlast
  obtain ⟨sizeG, rfl, hsizeG⟩ := u32_eq_ok.1 hg
  obtain ⟨text, total, rfl, hgroups, htotal⟩ := localGroups_eq_ok.1 hlocals
  obtain ⟨bs, rfl, hcode, -⟩ := isCode_of_sequence hs
  obtain rfl : src₄ = [] := by simpa using hend
  have hbody : sizeG ++ (text ++ (bs ++ Terminator.atEnd.opcode :: [])) =
      (sizeG ++ text ++ bs ++ [opEnd]) ++ [] ++ [] := by simp [Terminator.opcode]
  have hlen' : k.toNat = (sizeG ++ text ++ bs ++ [opEnd]).length := by
    rw [hbody] at hfill
    simp only [List.append_nil] at hfill
    rw [List.length_nil] at hl₄
    omega
  obtain ⟨code, sizedBody, rfl, hsizedBody, hcodeSection⟩ := isSection_of_one hc hk hbody hlen' hl₄
  rw [List.append_nil] at hcodeSection
  rw [hname] at hchars ⊢
  rw [UInt32.toNat_zero, Nat.zero_add] at htotal
  subst htotal
  refine ⟨sizedName, chars, _, sizedBody, types, functions, exports, code, hsizedName, hchars, ?_, hsizedBody,
    htypes, hfunctions, hexports, hcodeSection, by simp⟩
  exact ⟨sizeG ++ text, is, bs, ⟨sizeG, groups, text, hsizeG, hgroups, rfl⟩, hcode, rfl, rfl⟩

theorem u32_append {size : Text} {n : UInt32} (hn : IsU32 size n) (rest : Text) :
    ∃ h, u32 (size ++ rest) = .ok ⟨n, rest, h⟩ := by
  have hpos := List.length_pos_iff.2 (isU32_ne_nil hn)
  exact ⟨by rw [List.length_append]; omega, u32_eq_ok.2 ⟨size, rfl, hn⟩⟩

theorem IsModule.module {data : Text} {m : Module} (h : IsModule m data) : module data = .ok m := by
  obtain ⟨_, chars, _, _, types, functions, exports, code, ⟨sizeN, n, hn, hlen, rfl⟩, hchars,
    ⟨_, is, bs, ⟨sizeG, groups, text, hsizeG, hgroups, rfl⟩, hcode, hbody, rfl⟩,
    ⟨sizeB, k, hk, hlen', rfl⟩, ht, hf, he, hc, rfl⟩ := h
  obtain ⟨h₁, hn⟩ := u32_append hn (m.name ++ (exportOfFunction ++ code))
  obtain ⟨h₂, hk⟩ := u32_append hk (sizeG ++ (text ++ (bs ++ [opEnd])))
  obtain ⟨h₃, hg⟩ := u32_append hsizeG (text ++ (bs ++ [opEnd]))
  obtain ⟨h₄, hs⟩ := hcode.sequence .atEnd (Nat.le_refl ([] : Text).length)
  have hlocals : localGroups groups.toNat 0 (text ++ (bs ++ [opEnd])) = .ok (m.locals, bs ++ [opEnd]) :=
    localGroups_eq_ok.2 ⟨text, _, rfl, hgroups, Nat.zero_add _⟩
  have he := he.header code
  have hc := hc.header []
  simp only [List.cons_append, List.append_assoc, List.append_nil] at he hc
  unfold Wasm.module
  simp only [bind_eq_ok, ite_throw_eq_ok, pure_eq_ok, expect_eq_ok, closeSection_eq_ok, List.append_assoc]
  refine ⟨_, rfl, _, rfl, ?_⟩
  refine ⟨_, ht.header _, _, rfl, (), rfl, ?_⟩
  refine ⟨_, hf.header _, _, rfl, (), rfl, ?_⟩
  refine ⟨_, he, _, rfl, _, hn, ?_, ?_, code, ?_, (), rfl, ?_⟩
  · rw [hlen, List.length_append]; omega
  · rw [hlen, List.take_left, Text.isUtf8_iff.2 ⟨chars, hchars⟩]; decide
  · rw [hlen, List.drop_left]
  refine ⟨_, hc, _, rfl, _, hk, ?_, _, hg, _, hlocals, _, hs, by simp, (), rfl, by simp, ?_⟩
  · simp only [List.length_append, List.length_nil] at hlen' ⊢; omega
  · rw [hlen, List.take_left, ← hbody]

/-- What is read without regard to validity is what the grammar allows. -/
theorem module_eq_ok {data : Text} {m : Module} : module data = .ok m ↔ IsModule m data :=
  ⟨isModule_of_module, IsModule.module⟩

/-! ## Decoding -/

theorem decode_eq_ok {data : Text} {m : Module} :
    decode data = .ok m ↔ m.validate = .ok () ∧ IsModule m data := by
  rw [← module_eq_ok]
  unfold decode
  constructor
  · intro h
    split at h
    · cases h
    · rename_i n hn
      split at h
      · cases h
      · rename_i hv
        cases h
        exact ⟨hv, hn⟩
  · rintro ⟨hv, hm⟩
    rw [hm]
    simp only [hv]

/-- The offset of an error: where the reader stood, or the end of the data when the module that was
read is not valid. -/
theorem decode_eq_error {data : Text} {e : DecodeError} (h : decode data = .error e) :
    (∃ f, module data = .error f ∧ e.problem = f.problem ∧ e.offset + f.left = data.length) ∨
      (∃ m v, module data = .ok m ∧ m.validate = .error v ∧ e.problem = .invalid v ∧
        e.offset = data.length) := by
  unfold decode at h
  split at h
  · rename_i f hf
    cases h
    have hle := module_faults data f hf
    exact .inl ⟨f, hf, rfl, by simp only; omega⟩
  · rename_i m hm
    split at h
    · rename_i v hv
      cases h
      exact .inr ⟨m, v, hm, hv, rfl, rfl⟩
    · cases h

theorem DecodeError.report_eq (e : DecodeError) : e.report.notice.kind = .codecError ∧
    ∃ more, e.report.notice.sections = ⟨"Codec", "wasm"⟩ :: ⟨"Offset", Text.ofNat e.offset⟩ :: more :=
  ⟨rfl, _, rfl⟩

/-- Decoding accepts exactly the binary format. The data are read as a module exactly when the module
is valid and the grammar allows the data for it; on all other data the answer is an error of the
format `wasm`, with an offset between the start and the end of the data, where the reader stood. -/
theorem decode_exact (data : Text) :
    (∀ m, decode data = .ok m ↔ m.validate = .ok () ∧ IsModule m data) ∧
    ((∀ m, m.validate = .ok () → ¬ IsModule m data) →
      ∃ e, decode data = .error e ∧ e.offset ≤ data.length ∧
        (∀ f, module data = .error f → e.offset + f.left = data.length) ∧
        e.report.notice.kind = .codecError ∧ ∃ more, e.report.notice.sections =
          ⟨"Codec", "wasm"⟩ :: ⟨"Offset", Text.ofNat e.offset⟩ :: more) := by
  refine ⟨fun m => decode_eq_ok, fun hno => ?_⟩
  cases hd : decode data with
  | ok m =>
    obtain ⟨hv, hm⟩ := decode_eq_ok.1 hd
    exact absurd hm (hno m hv)
  | error e =>
    refine ⟨e, rfl, ?_, ?_, e.report_eq⟩
    · rcases decode_eq_error hd with ⟨f, -, -, hsum⟩ | ⟨m, v, -, -, -, hend⟩
      · omega
      · omega
    · intro f hf
      rcases decode_eq_error hd with ⟨f', hf', -, hsum⟩ | ⟨m, v, hm, -⟩
      · rw [hf] at hf'; cases hf'; exact hsum
      · rw [hf] at hm; cases hm

/-- A module in which a negative number is kept in the second of two slots and decides a branch. -/
def paddedModule : Module where
  name := "f"
  locals := 2
  body := [.const (-1), .localSet 1, .localGet 1, .branch [.const 1] [.const 0], .stop]

/-- The locals of that module in two groups, and its code with a padded slot. -/
def paddedBody : Text :=
  [2, 1, 0x7f, 1, 0x7f] ++ [0x41, 0x7f, 0x21, 0x81, 0, 0x20, 1, 4, 0x7f, 0x41, 1, 5, 0x41, 0, 0x0b] ++
    [opEnd]

/-- That module with a custom section in front and a padded section size. -/
def paddedData : Text :=
  magic ++ version ++ ([0, 1, 0xff] ++ [1, 0x85, 0] ++ typesContents) ++ ([3, 2] ++ functionsContents) ++
    [7, 5, 1, 1, 0x66, 0, 0] ++ ([10, 0x17, 1, 0x15] ++ paddedBody)

theorem isBody_padded : IsBody paddedModule paddedBody := by
  refine ⟨_, paddedModule.body.dropLast, _, ⟨[2], 2, [1, 0x7f, 1, 0x7f], by decide, ?_, rfl⟩, ?_, rfl, rfl⟩
  · exact .cons (show IsU32 [1] 1 by decide) (.cons (show IsU32 [1] 1 by decide) .nil)
  · have hbranch := IsCode.branch (.const (show IsS32 [1] 1 by decide) .nil)
      (.const (show IsS32 [0] 0 by decide) .nil) .nil
    exact .const (show IsS32 [0x7f] (-1) by decide) (.localSet (show IsU32 [0x81, 0] 1 by decide)
      (.localGet (show IsU32 [1] 1 by decide) hbranch))

theorem isModule_padded : IsModule paddedModule paddedData := by
  refine ⟨[1, 0x66], ['f'], paddedBody, 0x15 :: paddedBody, _, _, _, _, ⟨[1], 1, by decide, rfl, rfl⟩,
    by decide, isBody_padded, ⟨[0x15], 0x15, by decide, rfl, rfl⟩, ?_, ?_, ?_, ?_, rfl⟩
  · have hcustom : IsSized [0xff] [1, 0xff] := ⟨[1], 1, by decide, rfl, rfl⟩
    exact ⟨[0, 1, 0xff], [0x85, 0] ++ typesContents, .cons hcustom .nil,
      ⟨[0x85, 0], 5, by decide, rfl, rfl⟩, rfl⟩
  · exact ⟨[], _, .nil, ⟨[2], 2, by decide, rfl, rfl⟩, rfl⟩
  · exact ⟨[], _, .nil, ⟨[5], 5, by decide, rfl, rfl⟩, rfl⟩
  · exact ⟨[], _, .nil, ⟨[0x17], 0x17, by decide, rfl, rfl⟩, rfl⟩

theorem decode_exact_padded :
    paddedModule.validate = .ok () ∧ decode paddedData = .ok paddedModule ∧
      (∀ m, m.validate = .ok () → ¬ IsModule m []) ∧ ∃ e, decode [] = .error e ∧ e.offset = 0 := by
  have hno : ∀ m, m.validate = .ok () → ¬ IsModule m [] := by
    rintro m - ⟨_, _, _, _, _, _, _, _, -, -, -, -, -, -, -, -, hd⟩
    cases hd
  obtain ⟨e, he, hle, -⟩ := (decode_exact []).2 hno
  exact ⟨rfl, ((decode_exact paddedData).1 paddedModule).2 ⟨rfl, isModule_padded⟩, hno, e, he,
    Nat.le_zero.1 hle⟩

end LetIf.Wasm
