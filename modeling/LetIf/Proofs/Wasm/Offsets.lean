/-
What the offsets of decoding errors point at. A complaint about an opcode points at it. A complaint
about a section in the wrong place is made when its number and its size have been read, and steps
back by one byte, whatever the size took: it points at the last byte of the size. The section's
number stands where whole sections end, as many bytes before that offset as the size has.
-/
import LetIf.Proofs.Wasm.Decode

namespace LetIf.Wasm

/-! ## Sections that have been read -/

/-- Whole sections of any numbers. -/
inductive IsSections : Text → Prop
  | nil : IsSections []
  | cons {id : UInt8} {contents sized rest : Text} : IsSized contents sized → IsSections rest →
      IsSections (id :: sized ++ rest)

theorem IsSections.append {a b : Text} (ha : IsSections a) (hb : IsSections b) : IsSections (a ++ b) := by
  induction ha with
  | nil => exact hb
  | cons hsized _ ih => rw [List.append_assoc]; exact .cons hsized ih

theorem IsCustoms.sections {bs : Text} (h : IsCustoms bs) : IsSections bs := by
  induction h with
  | nil => exact .nil
  | cons hsized _ ih => exact .cons hsized ih

theorem IsSection.sections {s : Section} {contents bs : Text} (h : IsSection s contents bs) :
    IsSections bs := by
  obtain ⟨customs, sized, hcustoms, hsized, rfl⟩ := h
  have hlast : IsSections (s.id :: sized ++ []) := .cons hsized .nil
  rw [List.append_nil] at hlast
  exact hcustoms.sections.append hlast

/-- The header of the data and whole sections stand before `src`. -/
def Behind (data src : Text) : Prop :=
  ∃ before, data = magic ++ version ++ before ++ src ∧ IsSections before

section Steps

variable {α : Type} {data src : Text}

theorem Behind.suffix (h : Behind data src) : src <:+ data := by
  obtain ⟨before, rfl, -⟩ := h
  exact List.suffix_append _ _

theorem Behind.append {bs : Text} (h : Behind data (bs ++ src)) (hbs : IsSections bs) :
    Behind data src := by
  obtain ⟨before, rfl, hbefore⟩ := h
  exact ⟨before ++ bs, by simp only [List.append_assoc], hbefore.append hbs⟩

/-- A section that is read to its end. -/
theorem Behind.close {s : Section} {contents rest : Text} {left : Nat} (h : Behind data src)
    (hh : sectionHeader s src = .ok (left, contents)) (hr : rest <:+ contents) (hl : rest.length = left) :
    Behind data rest := by
  obtain ⟨contents, rfl⟩ := hr
  obtain ⟨bs, rfl, hs⟩ := isSection_of_header hh hl
  exact h.append hs.sections

theorem Behind.header {s : Section} {contents : Text} {left : Nat} (h : Behind data src)
    (hh : sectionHeader s src = .ok (left, contents)) : contents <:+ data := by
  obtain ⟨customs, size, n, -, -, rfl, -⟩ := sectionHeader_eq_ok.1 hh
  exact (List.suffix_append _ _).trans h.suffix

/-! ## Where faults point -/

/-- Where a fault points: inside the data, or, for a section in the wrong place, at the last byte of
the size that stands behind its number. -/
inductive Fault.Points (data : Text) (f : Fault) : Prop
  | inside : f.In data → Points data f
  | misplaced {want : Section} {found : UInt8} {size rest : Text} {n : UInt32} :
      f.problem = .wrongSection want found → found ≠ 0 → found ≠ want.id → IsU32 size n →
      Behind data (found :: size ++ rest) → f.left = rest.length + 1 → Points data f

theorem Faults.points {x : Except Fault α} (h : Faults (·.In src) x) (hs : src <:+ data) :
    Faults (Fault.Points data) x :=
  (h.inSuffix hs).mono fun _ => .inside

theorem sectionHeader_points (want : Section) : ∀ {src : Text}, Behind data src →
    Faults (Fault.Points data) (sectionHeader want src)
  | [], h => by rw [sectionHeader]; exact (Faults.plain (Nat.le_refl 0) rfl).points h.suffix
  | id :: later, h => by
    have hlater : later <:+ data := (List.suffix_cons id later).trans h.suffix
    rw [sectionHeader]
    cases hu : u32 later with
    | error f => exact .error (.inside ((u32_in later f hu).of_suffix hlater))
    | ok r =>
      have hrest : r.rest <:+ data := (u32_suffix hu).trans hlater
      obtain ⟨n, rest, hlt⟩ := r
      obtain ⟨size, rfl, hn⟩ := u32_eq_ok.1 hu
      refine .ite (fun _ => (Faults.plain (Nat.le_refl _) rfl).points hrest) fun hle => ?_
      refine .ite (fun hid => ?_) fun hid => .ite (fun hne => ?_) fun _ => .ok _
      · -- what is skipped is a section like any other
        have hcontents : IsSized (rest.take n.toNat) (size ++ rest.take n.toNat) :=
          ⟨size, n, hn, by rw [List.length_take]; omega, rfl⟩
        have hskipped : IsSections (id :: (size ++ rest.take n.toNat) ++ []) := .cons hcontents .nil
        refine sectionHeader_points want (Behind.append ?_ hskipped)
        rw [List.append_nil, List.cons_append, List.append_assoc, List.take_append_drop]
        exact h
      · exact .error (.misplaced rfl hid hne hn h rfl)
  termination_by src => src.length
  decreasing_by rw [List.length_drop, List.length_cons]; omega

end Steps

theorem module_points (data : Text) : Faults (Fault.Points data) (module data) := by
  unfold module
  refine .bind ((expect_in rfl data).points List.suffix_rfl) fun src hmagic => ?_
  refine .bind ((expect_in rfl src).points (expect_suffix hmagic)) fun src₀ hversion => ?_
  have h₀ : Behind data src₀ := by
    rw [expect_eq_ok] at hmagic hversion
    exact ⟨[], by rw [hmagic, hversion]; simp only [List.append_assoc, List.nil_append], .nil⟩
  -- the signature
  refine .bind (sectionHeader_points .types h₀) fun ⟨left, src⟩ hh => ?_
  refine .bind ((expect_in rfl src).points (h₀.header hh)) fun src₁ hs => ?_
  refine .bind ((closeSection_in _ _ _).points ((expect_suffix hs).trans (h₀.header hh))) fun _ hl => ?_
  have h₁ : Behind data src₁ := h₀.close hh (expect_suffix hs) (closeSection_eq_ok.1 hl)
  -- the function
  refine .bind (sectionHeader_points .functions h₁) fun ⟨left, src⟩ hh => ?_
  refine .bind ((expect_in rfl src).points (h₁.header hh)) fun src₂ hs => ?_
  refine .bind ((closeSection_in _ _ _).points ((expect_suffix hs).trans (h₁.header hh))) fun _ hl => ?_
  have h₂ : Behind data src₂ := h₁.close hh (expect_suffix hs) (closeSection_eq_ok.1 hl)
  -- the export
  refine .bind (sectionHeader_points .exports h₂) fun ⟨left, contents⟩ hh => ?_
  have hcontents := h₂.header hh
  refine .bind ((expect_in rfl contents).points hcontents) fun src hs => ?_
  have hsrc : src <:+ contents := expect_suffix hs
  refine .bind ((u32_in src).points (hsrc.trans hcontents)) fun ⟨size, named, _⟩ hs => ?_
  have hnamed : named <:+ contents := (u32_suffix hs).trans hsrc
  have hdrop : named.drop size.toNat <:+ contents := (List.drop_suffix ..).trans hnamed
  refine .ite (fun _ => (Faults.plain hnamed.length_le rfl).points hcontents) fun _ => ?_
  refine .ite (fun _ => (Faults.plain hnamed.length_le rfl).points hcontents) fun _ => ?_
  refine .bind ((expect_in rfl _).points (hdrop.trans hcontents)) fun src₃ hs => ?_
  have hsrc₃ : src₃ <:+ contents := (expect_suffix hs).trans hdrop
  refine .bind ((closeSection_in _ _ _).points (hsrc₃.trans hcontents)) fun _ hl => ?_
  have h₃ : Behind data src₃ := h₂.close hh hsrc₃ (closeSection_eq_ok.1 hl)
  -- the code
  refine .bind (sectionHeader_points .code h₃) fun ⟨left, src⟩ hh => ?_
  have hsrc := h₃.header hh
  refine .bind ((expect_in rfl src).points hsrc) fun src hs => ?_
  have hsrc : src <:+ data := (expect_suffix hs).trans hsrc
  refine .bind ((u32_in src).points hsrc) fun ⟨_, src, _⟩ hs => ?_
  have hsrc : src <:+ data := (u32_suffix hs).trans hsrc
  refine .ite (fun _ => (Faults.plain (Nat.le_refl _) rfl).points hsrc) fun _ => ?_
  refine .bind ((u32_in src).points hsrc) fun ⟨_, src, _⟩ hs => ?_
  have hsrc : src <:+ data := (u32_suffix hs).trans hsrc
  refine .bind ((localGroups_in _ _ _).points hsrc) fun ⟨_, src⟩ hs => ?_
  have hsrc : src <:+ data := (localGroups_suffix hs).trans hsrc
  refine .bind ((sequence_in left src).points hsrc) fun ⟨⟨_, _⟩, src, _⟩ hs => ?_
  have hsrc : src <:+ data := (sequence_suffix hs).trans hsrc
  refine .ite (fun _ => (Faults.plain (Nat.le_refl _) rfl).points hsrc) fun _ => ?_
  refine .bind ((closeSection_in _ _ _).points hsrc) fun _ hl => ?_
  exact .ite (fun _ => (Faults.plain (Nat.le_refl _) rfl).points hsrc) fun _ => .ok _

/-! ## Offsets -/

theorem Fault.In.opcode {data : Text} {f : Fault} {op : UInt8} (h : f.In data)
    (hop : f.problem = .unknownOpcode op) : data[data.length - f.left]? = some op := by
  obtain hplain | ⟨op', hop', hat⟩ := h.names
  · rw [hop] at hplain
    cases hplain
  · rw [hop] at hop'
    cases hop'
    exact hat

theorem Fault.In.ne_wrongSection {data : Text} {f : Fault} (h : f.In data) (want : Section)
    (found : UInt8) : f.problem ≠ .wrongSection want found := by
  intro hfound
  obtain hplain | ⟨op, hop, -⟩ := h.names
  · rw [hfound] at hplain
    cases hplain
  · rw [hfound] at hop
    cases hop

/-- A number and a size behind other bytes: where each of them stands. -/
theorem getElem?_number (start : Text) (id : UInt8) {size : Text} (h : size ≠ []) (rest : Text) :
    (start ++ id :: (size ++ rest))[start.length]? = some id ∧
      (start ++ id :: (size ++ rest))[start.length + size.length]? = size.getLast? := by
  obtain ⟨k, hk⟩ : ∃ k, size.length = k + 1 := ⟨size.length - 1, by
    have := List.length_pos_iff.2 h
    omega⟩
  constructor
  · rw [List.getElem?_append_right (Nat.le_refl _), Nat.sub_self, List.getElem?_cons_zero]
  · rw [List.getElem?_append_right (Nat.le_add_right ..), Nat.add_sub_cancel_left, hk,
      List.getElem?_cons_succ, List.getElem?_append_left (by omega), List.getLast?_eq_getElem?, hk,
      Nat.add_sub_cancel]

/-- The offset of a complaint about an opcode is that of the opcode. The offset of a complaint about a
section in the wrong place lies behind the section's number by as many bytes as the section's size
takes, so it is that of the last byte of the size; only where this byte happens to be the section's
number as well is the number what stands there. -/
theorem decode_error_offset {data : Text} {e : DecodeError} (h : decode data = .error e) :
    (∀ op, e.problem = .unknownOpcode op → data[e.offset]? = some op) ∧
      ∀ want found, e.problem = .wrongSection want found → ∃ before size n rest,
        data = magic ++ version ++ before ++ found :: size ++ rest ∧ IsSections before ∧
          IsU32 size n ∧ found ≠ 0 ∧ found ≠ want.id ∧
          data[(magic ++ version ++ before).length]? = some found ∧
          e.offset = (magic ++ version ++ before).length + size.length ∧
          data[e.offset]? = size.getLast? := by
  obtain ⟨f, hf, hproblem, hoffset⟩ | ⟨m, v, -, -, hproblem, -⟩ := decode_eq_error h
  · rw [hproblem]
    cases module_points data f hf with
    | inside hin =>
      refine ⟨fun op hop => ?_, fun want found hfound => absurd hfound (hin.ne_wrongSection want found)⟩
      rw [show e.offset = data.length - f.left by omega]
      exact hin.opcode hop
    | @misplaced want found size rest n hmisplaced hzero hne hsize hbehind hleft =>
      refine ⟨fun op hop => ?_, fun want' found' hfound => ?_⟩
      · rw [hmisplaced] at hop
        cases hop
      · rw [hmisplaced] at hfound
        cases hfound
        obtain ⟨before, hdata, hbefore⟩ := hbehind
        rw [List.cons_append] at hdata
        have hlen := congrArg List.length hdata
        obtain ⟨hfirst, hlast⟩ := getElem?_number (magic ++ version ++ before) found (isU32_ne_nil hsize) rest
        have hat : e.offset = (magic ++ version ++ before).length + size.length := by
          simp only [List.length_append, List.length_cons] at hlen ⊢
          omega
        refine ⟨before, size, n, rest, by simpa using hdata, hbefore, hsize, hzero, hne, ?_, hat, ?_⟩
        · rw [hdata]; exact hfirst
        · rw [hat, hdata]; exact hlast
  · rw [hproblem]
    exact ⟨by simp, by simp⟩

/-- An opcode that is not known, in an arm and behind a custom section. -/
def nestedOpcode : Text :=
  magic ++ version ++ ([0, 1, 0xff] ++ [1, 5] ++ typesContents) ++ ([3, 2] ++ functionsContents) ++
    [7, 5, 1, 1, 0x66, 0, 0] ++ [10, 14, 1, 12, 0, 0x41, 1, 4, 0x7f, 0x41, 0xc0, 0, 0x6a, 5, 0x0b, 0x0b]

/-- The section of the function, its size padded to three bytes, in the place of the signature's. -/
def paddedSize : Text := magic ++ version ++ [3, 0x82, 0x80, 0] ++ functionsContents

theorem decode_error_nested : decode nestedOpcode = .error ⟨.unknownOpcode 0x6a, 41⟩ ∧
    nestedOpcode[41]? = some 0x6a ∧ decode paddedSize = .error ⟨.wrongSection .types 3, 11⟩ ∧
      ∃ before size n rest, paddedSize = magic ++ version ++ before ++ 3 :: size ++ rest ∧
        IsSections before ∧ IsU32 size n ∧ 11 = (magic ++ version ++ before).length + size.length ∧
          paddedSize[11]? = size.getLast? := by
  have hopcode : decode nestedOpcode = .error ⟨.unknownOpcode 0x6a, 41⟩ :=
    map_eq_error.1 (show (decode nestedOpcode).map (fun _ => ()) = _ by decide +kernel)
  have hsection : decode paddedSize = .error ⟨.wrongSection .types 3, 11⟩ :=
    map_eq_error.1 (show (decode paddedSize).map (fun _ => ()) = _ by decide +kernel)
  obtain ⟨before, size, n, rest, hdata, hbefore, hsize, -, -, -, hat, hlast⟩ :=
    (decode_error_offset hsection).2 .types 3 rfl
  exact ⟨hopcode, (decode_error_offset hopcode).1 0x6a rfl, hsection, before, size, n, rest, hdata, hbefore,
    hsize, hat, hlast⟩

/-- The shortest header of a section in the wrong place, and nothing in the section. -/
def misplacedSection : Text := magic ++ version ++ [3, 0]

/-- A complaint about a section does not stand at the section's number. -/
theorem decode_misplaced : ¬ ∀ data e want found, decode data = .error e →
    e.problem = .wrongSection want found → data[e.offset]? = some found := by
  intro h
  have hsection : decode misplacedSection = .error ⟨.wrongSection .types 3, 9⟩ :=
    map_eq_error.1 (show (decode misplacedSection).map (fun _ => ()) = _ by decide +kernel)
  exact absurd (h _ _ .types 3 hsection rfl) (by decide)

end LetIf.Wasm
