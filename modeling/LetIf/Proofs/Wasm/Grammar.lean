/-
The binary format of modules as a grammar, and the reader's pieces against it. Each relation says of
some bytes that they spell a thing, without regard to what is read before or behind them; each piece
of the reader takes from the front of the data exactly the bytes that its relation allows. Numbers
are read to the end of the data and not to the end of their section, so the relations of sections
rest on the checks of lengths that come after.
-/
import LetIf.Proofs.Except
import LetIf.Proofs.Wasm.Leb128
import LetIf.Wasm.Decode

namespace LetIf.Wasm

open Leb128

/-! ## The grammar -/

/-- An unsigned number of 32 bits, in at most five groups. -/
def IsU32 (bs : Text) (n : UInt32) : Prop :=
  isNumber bs = true ∧ bs.length ≤ 5 ∧ natValue bs = n.toNat

/-- A signed number of 32 bits, in at most five groups. -/
def IsS32 (bs : Text) (n : Int32) : Prop :=
  isNumber bs = true ∧ bs.length ≤ 5 ∧ intValue bs = n.toInt

instance (bs : Text) (n : UInt32) : Decidable (IsU32 bs n) := inferInstanceAs (Decidable (_ ∧ _ ∧ _))

instance (bs : Text) (n : Int32) : Decidable (IsS32 bs n) := inferInstanceAs (Decidable (_ ∧ _ ∧ _))

/-- Some contents behind their length. -/
def IsSized (contents bs : Text) : Prop :=
  ∃ size n, IsU32 size n ∧ n.toNat = contents.length ∧ bs = size ++ contents

/-- Any number of custom sections with any contents. -/
inductive IsCustoms : Text → Prop
  | nil : IsCustoms []
  | cons {contents sized rest : Text} : IsSized contents sized → IsCustoms rest →
      IsCustoms (0 :: sized ++ rest)

/-- A section with its contents, and the custom sections before it. -/
def IsSection (s : Section) (contents bs : Text) : Prop :=
  ∃ customs sized, IsCustoms customs ∧ IsSized contents sized ∧ bs = customs ++ s.id :: sized

/-- A number of groups of locals, and how many locals there are in all. -/
inductive IsGroups : (groups total : Nat) → Text → Prop
  | nil : IsGroups 0 0 []
  | cons {size rest : Text} {n : UInt32} {groups total : Nat} : IsU32 size n →
      IsGroups groups total rest → IsGroups (groups + 1) (n.toNat + total) (size ++ i32Type :: rest)

/-- The declaration of `n` locals, in any number of groups. -/
def IsLocals (n : UInt32) (bs : Text) : Prop :=
  ∃ size groups text, IsU32 size groups ∧ IsGroups groups.toNat n.toNat text ∧ bs = size ++ text

/-- Instructions without `stop`, the immediates in any of their forms. -/
inductive IsCode : List Instr → Text → Prop
  | nil : IsCode [] []
  | const {n : Int32} {imm bs : Text} {is : List Instr} : IsS32 imm n → IsCode is bs →
      IsCode (.const n :: is) (opConst :: imm ++ bs)
  | select {bs : Text} {is : List Instr} : IsCode is bs → IsCode (.select :: is) (opSelect :: bs)
  | branch {ys ns bs : Text} {yes no is : List Instr} : IsCode yes ys → IsCode no ns → IsCode is bs →
      IsCode (.branch yes no :: is) (opIf :: i32Type :: ys ++ opElse :: ns ++ opEnd :: bs)
  | localGet {i : UInt32} {imm bs : Text} {is : List Instr} : IsU32 imm i → IsCode is bs →
      IsCode (.localGet i :: is) (opLocalGet :: imm ++ bs)
  | localSet {i : UInt32} {imm bs : Text} {is : List Instr} : IsU32 imm i → IsCode is bs →
      IsCode (.localSet i :: is) (opLocalSet :: imm ++ bs)

/-- The locals and the code of a function, up to the `end` for its `stop`. -/
def IsBody (m : Module) (bs : Text) : Prop :=
  ∃ locals is code, IsLocals m.locals locals ∧ IsCode is code ∧ m.body = is ++ [.stop] ∧
    bs = locals ++ code ++ [opEnd]

/-- A module: the four sections in order, and nothing behind them. The name is valid UTF-8. -/
def IsModule (m : Module) (data : Text) : Prop :=
  ∃ name chars body sized types functions exports code,
    IsSized m.name name ∧ m.name = Text.ofChars chars ∧ IsBody m body ∧ IsSized body sized ∧
    IsSection .types typesContents types ∧ IsSection .functions functionsContents functions ∧
    IsSection .exports (0x01 :: name ++ exportOfFunction) exports ∧
    IsSection .code (0x01 :: sized) code ∧
    data = magic ++ version ++ types ++ functions ++ exports ++ code

/-! ## Numbers and bytes -/

theorem u32_eq_ok {src rest : Text} {n : UInt32} {h : rest.length < src.length} :
    u32 src = .ok ⟨n, rest, h⟩ ↔ ∃ bs, src = bs ++ rest ∧ IsU32 bs n := by
  have h32 : Bits.span 32 = 4294967296 := rfl
  unfold u32
  constructor
  · intro hr
    split at hr
    · rename_i r hu
      cases hr
      obtain ⟨bs, hsrc, hbs, hlen, hval, hfit⟩ := (unsigned?_eq_some (by decide)).1 hu
      refine ⟨bs, hsrc, hbs, by omega, ?_⟩
      rw [hval, UInt32.toNat_ofNat', Nat.mod_eq_of_lt (by omega)]
    · cases hr
  · rintro ⟨bs, hsrc, hbs, hlen, hval⟩
    have hn : n.toNat < 4294967296 := n.toNat_lt
    rw [(unsigned?_eq_some (by decide) (h := h)).2 ⟨bs, hsrc, hbs, by omega, hval, by omega⟩]
    simp only [Read.map, UInt32.ofNat_toNat]

theorem s32_eq_ok {src rest : Text} {n : Int32} {h : rest.length < src.length} :
    s32 src = .ok ⟨n, rest, h⟩ ↔ ∃ bs, src = bs ++ rest ∧ IsS32 bs n := by
  have h31 : Bits.span (32 - 1) = 2147483648 := rfl
  unfold s32
  constructor
  · intro hr
    split at hr
    · rename_i r hu
      cases hr
      obtain ⟨bs, hsrc, hbs, hlen, hval, hlo, hhi⟩ := (signed?_eq_some (by decide)).1 hu
      refine ⟨bs, hsrc, hbs, by omega, ?_⟩
      rw [hval, Int32.toInt_ofInt_of_le (by omega) (by omega)]
    · cases hr
  · rintro ⟨bs, hsrc, hbs, hlen, hval⟩
    have hlo := n.le_toInt
    have hhi := n.toInt_lt
    rw [(signed?_eq_some (by decide) (h := h)).2 ⟨bs, hsrc, hbs, by omega, hval, by omega, by omega⟩]
    simp only [Read.map, Int32.ofInt_toInt]

theorem byte_eq_ok {src rest : Text} {b : UInt8} {h : rest.length < src.length} :
    byte src = .ok ⟨b, rest, h⟩ ↔ src = b :: rest := by
  cases src with
  | nil => exact absurd h (Nat.not_lt_zero _)
  | cons c src => simp only [byte, Except.ok.injEq, Read.mk.injEq, List.cons.injEq]

theorem expect_eq_ok {want src rest : Text} {p : Problem} :
    expect want p src = .ok rest ↔ src = want ++ rest := by
  unfold expect
  constructor
  · intro h
    split at h
    · rename_i hp
      obtain ⟨t, rfl⟩ := List.isPrefixOf_iff_prefix.1 hp
      cases h
      rw [List.drop_left]
    · cases h
  · rintro rfl
    rw [if_pos (List.isPrefixOf_iff_prefix.2 (List.prefix_append _ _)), List.drop_left]

theorem closeSection_eq_ok {s : Section} {left : Nat} {src : Text} {u : Unit} :
    closeSection s left src = .ok u ↔ src.length = left := by
  unfold closeSection
  split
  · rename_i h; exact ⟨fun _ => h, fun _ => rfl⟩
  · rename_i h; exact ⟨fun h' => (nomatch h'), fun h' => absurd h' h⟩

/-! ## Sections -/

theorem isU32_ne_nil {bs : Text} {n : UInt32} (h : IsU32 bs n) : bs ≠ [] := isNumber_ne_nil h.1

theorem Section.id_ne_zero (s : Section) : s.id ≠ 0 := by cases s <;> decide

/-- One section number and its size: custom contents are skipped, and any other number has to be the
one that is wanted. -/
theorem sectionHeader_cons_eq_ok {want : Section} {id : UInt8} {later rest : Text} {left : Nat} :
    sectionHeader want (id :: later) = .ok (left, rest) ↔
      ∃ size n mid, later = size ++ mid ∧ IsU32 size n ∧ n.toNat ≤ mid.length ∧
        (id = 0 ∧ sectionHeader want (mid.drop n.toNat) = .ok (left, rest) ∨
          id = want.id ∧ n.toNat + left = mid.length ∧ rest = mid) := by
  rw [sectionHeader]
  constructor
  · intro h
    split at h
    · cases h
    · rename_i n mid _ hu
      obtain ⟨size, hlater, hn⟩ := u32_eq_ok.1 hu
      obtain ⟨hle, h⟩ := ite_error_eq_ok.1 h
      refine ⟨size, n, mid, hlater, hn, by omega, ?_⟩
      split at h
      · rename_i hid
        exact .inl ⟨hid, h⟩
      · obtain ⟨hid, h⟩ := ite_error_eq_ok.1 h
        cases h
        exact .inr ⟨Decidable.not_not.1 hid, by omega, rfl⟩
  · rintro ⟨size, n, mid, rfl, hn, hle, h⟩
    have hlt : mid.length < (size ++ mid).length := by
      have := List.length_pos_iff.2 (isU32_ne_nil hn)
      rw [List.length_append]; omega
    rw [u32_eq_ok (h := hlt).2 ⟨size, rfl, hn⟩]
    simp only [gt_iff_lt]
    rw [if_neg (by omega)]
    rcases h with ⟨rfl, h⟩ | ⟨rfl, hl, rfl⟩
    · rw [if_pos rfl, h]
    · rw [if_neg want.id_ne_zero, if_neg (by simp), ← hl, Nat.add_sub_cancel_left]

theorem isCustoms_of_sectionHeader {want : Section} {rest : Text} {left : Nat} : ∀ {src : Text},
    sectionHeader want src = .ok (left, rest) → ∃ customs size n, IsCustoms customs ∧ IsU32 size n ∧
      src = customs ++ want.id :: size ++ rest ∧ n.toNat + left = rest.length
  | [], h => by simp [sectionHeader] at h
  | id :: later, h => by
    obtain ⟨size, n, mid, rfl, hn, hle, ⟨rfl, h'⟩ | ⟨rfl, hl, rfl⟩⟩ := sectionHeader_cons_eq_ok.1 h
    · obtain ⟨customs, size', n', hc, hn', hd, hl⟩ := isCustoms_of_sectionHeader h'
      refine ⟨0 :: (size ++ mid.take n.toNat) ++ customs, size', n', ?_, hn', ?_, hl⟩
      · exact .cons ⟨size, n, hn, by rw [List.length_take]; omega, rfl⟩ hc
      · have hmid := List.take_append_drop n.toNat mid
        rw [hd] at hmid
        conv => lhs; rw [← hmid]
        simp only [List.cons_append, List.append_assoc]
    · exact ⟨[], size, n, .nil, hn, rfl, hl⟩
  termination_by src => src.length
  decreasing_by subst_vars; rw [List.length_drop, List.length_cons, List.length_append]; omega

/-- The header is read when custom sections, the number of the section and its size stand before
contents of at least that size. -/
theorem sectionHeader_eq_ok {want : Section} {src rest : Text} {left : Nat} :
    sectionHeader want src = .ok (left, rest) ↔ ∃ customs size n, IsCustoms customs ∧ IsU32 size n ∧
      src = customs ++ want.id :: size ++ rest ∧ n.toNat + left = rest.length := by
  refine ⟨isCustoms_of_sectionHeader, ?_⟩
  rintro ⟨customs, size, n, hc, hn, rfl, hl⟩
  induction hc with
  | nil => exact sectionHeader_cons_eq_ok.2 ⟨size, n, rest, rfl, hn, by omega, .inr ⟨rfl, hl, rfl⟩⟩
  | @cons contents sized customs hsized hc ih =>
    obtain ⟨size', n', hn', hlen, rfl⟩ := hsized
    refine sectionHeader_cons_eq_ok.2 ⟨size', n', contents ++ (customs ++ want.id :: size ++ rest), ?_,
      hn', by rw [List.length_append]; omega, .inl ⟨rfl, ?_⟩⟩
    · simp
    · rw [hlen, List.drop_left]; exact ih

/-- A section that is read to its end. -/
theorem isSection_of_header {s : Section} {src contents rest : Text} {left : Nat}
    (h : sectionHeader s src = .ok (left, contents ++ rest)) (hl : rest.length = left) :
    ∃ bs, src = bs ++ rest ∧ IsSection s contents bs := by
  obtain ⟨customs, size, n, hc, hn, rfl, hlen⟩ := sectionHeader_eq_ok.1 h
  rw [List.length_append] at hlen
  exact ⟨customs ++ s.id :: (size ++ contents), by simp,
    customs, size ++ contents, hc, ⟨size, n, hn, by omega, rfl⟩, rfl⟩

theorem IsSection.header {s : Section} {contents bs : Text} (h : IsSection s contents bs) (rest : Text) :
    sectionHeader s (bs ++ rest) = .ok (rest.length, contents ++ rest) := by
  obtain ⟨customs, -, hc, ⟨size, n, hn, hlen, rfl⟩, rfl⟩ := h
  exact sectionHeader_eq_ok.2 ⟨customs, size, n, hc, hn, by simp, by rw [List.length_append]; omega⟩

/-! ## Locals -/

theorem toNat_add_of_not_lt {a b : UInt32} (h : ¬ a + b < a) : (a + b).toNat = a.toNat + b.toNat := by
  have ha := a.toNat_lt
  have hb := b.toNat_lt
  rw [UInt32.lt_iff_toNat_lt, UInt32.toNat_add] at h
  rw [UInt32.toNat_add]
  omega

theorem localGroups_succ_eq_ok {groups : Nat} {total total' : UInt32} {src rest : Text} :
    localGroups (groups + 1) total src = .ok (total', rest) ↔
      ∃ size n mid, src = size ++ i32Type :: mid ∧ IsU32 size n ∧ ¬ total + n < total ∧
        localGroups groups (total + n) mid = .ok (total', rest) := by
  rw [localGroups]
  simp only [bind_eq_ok, ite_throw_eq_ok]
  constructor
  · rintro ⟨⟨n, mid, h₁⟩, hu, ⟨t, mid', h₂⟩, ht, hty, hsum, h⟩
    obtain ⟨size, rfl, hn⟩ := u32_eq_ok.1 hu
    obtain rfl := byte_eq_ok.1 ht
    obtain rfl := Decidable.not_not.1 hty
    exact ⟨size, n, mid', rfl, hn, hsum, h⟩
  · rintro ⟨size, n, mid, rfl, hn, hsum, h⟩
    have hpos := List.length_pos_iff.2 (isU32_ne_nil hn)
    exact ⟨⟨n, i32Type :: mid, by rw [List.length_append]; omega⟩, u32_eq_ok.2 ⟨size, rfl, hn⟩,
      ⟨i32Type, mid, by simp⟩, byte_eq_ok.2 rfl, by simp, hsum, h⟩

/-- The groups are added up without a carry out of 32 bits. -/
theorem localGroups_eq_ok : ∀ {groups : Nat} {total total' : UInt32} {src rest : Text},
    localGroups groups total src = .ok (total', rest) ↔
      ∃ text n, src = text ++ rest ∧ IsGroups groups n text ∧ total.toNat + n = total'.toNat
  | 0, total, total', src, rest => by
    rw [localGroups, Except.ok.injEq, Prod.mk.injEq]
    constructor
    · rintro ⟨rfl, rfl⟩; exact ⟨[], 0, rfl, .nil, rfl⟩
    · rintro ⟨_, n, rfl, hg, hn⟩
      cases hg
      exact ⟨UInt32.toNat_inj.1 hn, rfl⟩
  | groups + 1, total, total', src, rest => by
    rw [localGroups_succ_eq_ok]
    constructor
    · rintro ⟨size, n, mid, rfl, hn, hsum, h⟩
      obtain ⟨text, k, rfl, hg, hk⟩ := localGroups_eq_ok.1 h
      rw [toNat_add_of_not_lt hsum] at hk
      exact ⟨size ++ i32Type :: text, n.toNat + k, by simp, .cons hn hg, by omega⟩
    · rintro ⟨_, _, rfl, hg, hk⟩
      cases hg with
      | @cons size text n _ k hn hg =>
        have hlt := total'.toNat_lt
        have hadd : (total + n).toNat = total.toNat + n.toNat := by
          rw [UInt32.toNat_add]; omega
        refine ⟨size, n, text ++ rest, by simp, hn, ?_, localGroups_eq_ok.2 ⟨text, k, rfl, hg, by omega⟩⟩
        rw [UInt32.lt_iff_toNat_lt]; omega

end LetIf.Wasm
