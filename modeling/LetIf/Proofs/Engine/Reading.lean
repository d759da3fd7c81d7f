/-
Reading by the built-in engine. Whatever the binary format gives for a thing, the engine reads it as that
thing from the front of any data. `Reads` says this of one reader, and each container of the format keeps it:
vectors, measured texts, bodies and sections; code by induction on its form.
-/
import LetIf.Proofs.Engine.Numbers

namespace LetIf.Engine

open Standard

/-- The reader reads everything that is in the relation. -/
def Reads {α : Type} (item : Reader α) (rel : α → Text → Prop) : Prop :=
  ∀ {a : α} {t : Text}, rel a t → ∀ rest, ∃ h, item (t ++ rest) = some ⟨a, rest, h⟩

theorem byte_cons (b : UInt8) (rest : Text) : byte (b :: rest) = some ⟨b, rest, Read.tail_lt⟩ := rfl

/-! ## Containers -/

theorem reads_u32 : Reads u32 (IsUnsigned 32) := unsigned_append

theorem reads_valType : Reads valType IsValType := by
  rintro t _ rfl rest
  refine ⟨Read.tail_lt, ?_⟩
  cases t <;> rfl

theorem reads_bytes : Reads bytes IsMeasured := by
  rintro t _ ⟨hn⟩ rest
  rename_i size
  obtain ⟨hlt, hu⟩ := reads_u32 hn (t ++ rest)
  rw [List.append_assoc]
  refine ⟨by rw [List.length_append] at hlt; omega, ?_⟩
  unfold bytes
  rw [hu]
  simp only [Option.bind_eq_bind, Option.bind_some, List.take_left, List.drop_left]
  exact if_neg (by rw [List.length_append]; omega)

theorem reads_name : Reads name IsName := by
  rintro t _ ⟨hutf, ht⟩ rest
  obtain ⟨hlt, hb⟩ := reads_bytes ht rest
  refine ⟨hlt, ?_⟩
  unfold name
  rw [hb]
  exact if_pos hutf

section Vectors

variable {α : Type} {item : Reader α} {rel : α → Text → Prop}

theorem many_append (hitem : Reads item rel) {as : List α} {t : Text} (h : Each rel as t) (rest : Text) :
    ∃ hle, many item as.length (t ++ rest) = some (as, ⟨rest, hle⟩) := by
  induction h with
  | nil => exact ⟨Nat.le_refl _, rfl⟩
  | @cons a as t ts ha _ ih =>
    obtain ⟨hle, ih⟩ := ih
    obtain ⟨hlt, ha⟩ := hitem ha (ts ++ rest)
    rw [List.append_assoc]
    refine ⟨Nat.le_of_lt (Nat.lt_of_le_of_lt hle hlt), ?_⟩
    rw [List.length_cons, many, ha]
    simp only [Option.bind_eq_bind, Option.bind_some]
    rw [ih]
    rfl

theorem Reads.vector (hitem : Reads item rel) : Reads (vector item) (IsVector rel) := by
  rintro as _ ⟨hn, hitems⟩ rest
  rename_i count ts
  obtain ⟨hlt, hu⟩ := reads_u32 hn (ts ++ rest)
  obtain ⟨hle, hm⟩ := many_append hitem hitems rest
  rw [List.append_assoc]
  refine ⟨Nat.lt_of_le_of_lt hle hlt, ?_⟩
  unfold Engine.vector
  rw [hu]
  simp only [Option.bind_eq_bind, Option.bind_some]
  rw [hm]
  rfl

theorem Reads.contents (hitem : Reads item rel) {as : List α} {t : Text} (h : IsVector rel as t) :
    contents item t = some as := by
  have hv := hitem.vector h []
  rw [List.append_nil] at hv
  obtain ⟨_, hv⟩ := hv
  unfold Engine.contents
  rw [hv]
  rfl

end Vectors

/-! ## Code -/

def Last.opcode : Last → UInt8
  | .atEnd => 0x0b
  | .atElse => 0x05

section Opcodes

variable {src mid rest : Text} {ops : List Op} {last : Last}

theorem sequence_last (last : Last) (rest : Text) :
    ∃ h, sequence (last.opcode :: rest) = some ⟨([], last), rest, h⟩ := by
  refine ⟨Read.tail_lt, ?_⟩
  rw [sequence]
  cases last with
  | atEnd => exact if_pos rfl
  | atElse => exact (if_neg (by decide)).trans (if_pos rfl)

/-- An opcode without an immediate is read in front of what follows it. -/
theorem sequence_trap {h : rest.length < src.length} (hs : sequence src = some ⟨(ops, last), rest, h⟩) :
    ∃ h, sequence (0x00 :: src) = some ⟨(.trap :: ops, last), rest, h⟩ := by
  refine ⟨Read.lt_cons h, ?_⟩
  rw [sequence, if_neg (by decide), if_neg (by decide), if_pos rfl, hs]
  rfl

theorem sequence_select {h : rest.length < src.length} (hs : sequence src = some ⟨(ops, last), rest, h⟩) :
    ∃ h, sequence (0x1b :: src) = some ⟨(.select :: ops, last), rest, h⟩ := by
  refine ⟨Read.lt_cons h, ?_⟩
  rw [sequence, if_neg (by decide), if_neg (by decide), if_neg (by decide), if_pos rfl, hs]
  rfl

section Immediates

variable {h : rest.length < mid.length} (hs : sequence mid = some ⟨(ops, last), rest, h⟩)
include hs

theorem sequence_const32 {n : Int32} {bs : Text} (hn : IsSigned 32 n.toInt bs) :
    ∃ h, sequence (0x41 :: (bs ++ mid)) = some ⟨(.const32 n :: ops, last), rest, h⟩ := by
  obtain ⟨hlt, hr⟩ := signed_append hn mid
  refine ⟨Read.lt_cons₂ hlt h, ?_⟩
  rw [sequence, if_neg (by decide), if_neg (by decide), if_neg (by decide), if_neg (by decide), if_pos rfl, hr]
  simp only [Option.bind_eq_bind, Option.bind_some]
  rw [hs, Int32.ofInt_toInt]
  rfl

theorem sequence_const64 {n : Int64} {bs : Text} (hn : IsSigned 64 n.toInt bs) :
    ∃ h, sequence (0x42 :: (bs ++ mid)) = some ⟨(.const64 n :: ops, last), rest, h⟩ := by
  obtain ⟨hlt, hr⟩ := signed_append hn mid
  refine ⟨Read.lt_cons₂ hlt h, ?_⟩
  rw [sequence, if_neg (by decide), if_neg (by decide), if_neg (by decide), if_neg (by decide),
    if_neg (by decide), if_pos rfl, hr]
  simp only [Option.bind_eq_bind, Option.bind_some]
  rw [hs, Int64.ofInt_toInt]
  rfl

theorem sequence_localGet {i : Nat} {bs : Text} (hi : IsUnsigned 32 i bs) :
    ∃ h, sequence (0x20 :: (bs ++ mid)) = some ⟨(.localGet i :: ops, last), rest, h⟩ := by
  obtain ⟨hlt, hr⟩ := reads_u32 hi mid
  refine ⟨Read.lt_cons₂ hlt h, ?_⟩
  rw [sequence, if_neg (by decide), if_neg (by decide), if_neg (by decide), if_neg (by decide),
    if_neg (by decide), if_neg (by decide), if_pos rfl, hr]
  simp only [Option.bind_eq_bind, Option.bind_some]
  rw [hs]
  rfl

theorem sequence_localSet {i : Nat} {bs : Text} (hi : IsUnsigned 32 i bs) :
    ∃ h, sequence (0x21 :: (bs ++ mid)) = some ⟨(.localSet i :: ops, last), rest, h⟩ := by
  obtain ⟨hlt, hr⟩ := reads_u32 hi mid
  refine ⟨Read.lt_cons₂ hlt h, ?_⟩
  rw [sequence, if_neg (by decide), if_neg (by decide), if_neg (by decide), if_neg (by decide),
    if_neg (by decide), if_neg (by decide), if_neg (by decide), if_pos rfl, hr]
  simp only [Option.bind_eq_bind, Option.bind_some]
  rw [hs]
  rfl

end Immediates

theorem blockType_code (t : Option ValType) : blockType (blockCode t) = some t := by
  rcases t with _ | _ | _ | _ | _ <;> rfl

section Arms

variable {r₁ r₂ r₃ : Text} {ys ns : List Op} (t : Option ValType)

theorem sequence_branch {h₁ : r₂.length < r₁.length} {h₂ : r₃.length < r₂.length} {h₃ : rest.length < r₃.length}
    (hy : sequence r₁ = some ⟨(ys, .atElse), r₂, h₁⟩) (hn : sequence r₂ = some ⟨(ns, .atEnd), r₃, h₂⟩)
    (hs : sequence r₃ = some ⟨(ops, last), rest, h₃⟩) :
    ∃ h, sequence (0x04 :: blockCode t :: r₁) = some ⟨(.branch t ys ns :: ops, last), rest, h⟩ := by
  refine ⟨Read.lt_cons₄ Read.tail_lt h₁ h₂ h₃, ?_⟩
  rw [sequence, if_neg (by decide), if_neg (by decide), if_neg (by decide), if_neg (by decide),
    if_neg (by decide), if_neg (by decide), if_neg (by decide), if_neg (by decide), if_pos rfl, byte_cons]
  simp only [Option.bind_eq_bind, Option.bind_some]
  rw [blockType_code]
  simp only [Option.bind_some]
  rw [hy]
  simp only [Option.bind_some]
  rw [hn]
  simp only [Option.bind_some]
  rw [hs]
  rfl

/-- The arm that is left out is empty. -/
theorem sequence_branchYes {h₁ : r₂.length < r₁.length} {h₂ : rest.length < r₂.length}
    (hy : sequence r₁ = some ⟨(ys, .atEnd), r₂, h₁⟩) (hs : sequence r₂ = some ⟨(ops, last), rest, h₂⟩) :
    ∃ h, sequence (0x04 :: blockCode t :: r₁) = some ⟨(.branch t ys [] :: ops, last), rest, h⟩ := by
  refine ⟨Read.lt_cons₃ Read.tail_lt h₁ h₂, ?_⟩
  rw [sequence, if_neg (by decide), if_neg (by decide), if_neg (by decide), if_neg (by decide),
    if_neg (by decide), if_neg (by decide), if_neg (by decide), if_neg (by decide), if_pos rfl, byte_cons]
  simp only [Option.bind_eq_bind, Option.bind_some]
  rw [blockType_code]
  simp only [Option.bind_some]
  rw [hy]
  simp only [Option.bind_some]
  rw [hs]
  rfl

end Arms

end Opcodes

/-- Code is read up to what ends it. -/
theorem sequence_append {ops : List Op} {bs : Text} (h : IsCode ops bs) : ∀ (last : Last) (rest : Text),
    ∃ h, sequence (bs ++ last.opcode :: rest) = some ⟨(ops, last), rest, h⟩ := by
  induction h with
  | nil => exact sequence_last
  | trap _ ih =>
    intro last rest
    obtain ⟨_, hs⟩ := ih last rest
    exact sequence_trap hs
  | @branch t _ _ _ ys ns bs _ _ _ ihy ihn ih =>
    intro last rest
    obtain ⟨_, hs⟩ := ih last rest
    obtain ⟨_, hn⟩ := ihn .atEnd (bs ++ last.opcode :: rest)
    obtain ⟨_, hy⟩ := ihy .atElse (ns ++ 0x0b :: (bs ++ last.opcode :: rest))
    rw [List.cons_append, List.cons_append, List.append_assoc, List.cons_append, List.append_assoc, List.cons_append]
    exact sequence_branch t hy hn hs
  | @branchYes t _ _ ys bs _ _ ihy ih =>
    intro last rest
    obtain ⟨_, hs⟩ := ih last rest
    obtain ⟨_, hy⟩ := ihy .atEnd (bs ++ last.opcode :: rest)
    rw [List.cons_append, List.cons_append, List.append_assoc, List.cons_append]
    exact sequence_branchYes t hy hs
  | select _ ih =>
    intro last rest
    obtain ⟨_, hs⟩ := ih last rest
    exact sequence_select hs
  | localGet hi _ ih =>
    intro last rest
    obtain ⟨_, hs⟩ := ih last rest
    rw [List.cons_append, List.append_assoc]
    exact sequence_localGet hs hi
  | localSet hi _ ih =>
    intro last rest
    obtain ⟨_, hs⟩ := ih last rest
    rw [List.cons_append, List.append_assoc]
    exact sequence_localSet hs hi
  | const32 hn _ ih =>
    intro last rest
    obtain ⟨_, hs⟩ := ih last rest
    rw [List.cons_append, List.append_assoc]
    exact sequence_const32 hs hn
  | const64 hn _ ih =>
    intro last rest
    obtain ⟨_, hs⟩ := ih last rest
    rw [List.cons_append, List.append_assoc]
    exact sequence_const64 hs hn

/-! ## Modules -/

theorem reads_signature : Reads signature IsSignature := by
  rintro s _ ⟨hp, hr⟩ rest
  rename_i params results
  obtain ⟨hlt₂, hr⟩ := reads_valType.vector hr rest
  obtain ⟨hlt₁, hp⟩ := reads_valType.vector hp (results ++ rest)
  rw [List.cons_append, List.append_assoc]
  refine ⟨Read.lt_cons₂ hlt₁ hlt₂, ?_⟩
  unfold signature
  rw [byte_cons]
  simp only [Option.bind_eq_bind, Option.bind_some]
  rw [if_neg (by decide), hp]
  simp only [Option.bind_some]
  rw [hr]
  rfl

theorem reads_exported : Reads exported IsExport := by
  rintro e _ ⟨hn, hi⟩ rest
  rename_i name index
  obtain ⟨hlt₂, hi⟩ := reads_u32 hi rest
  obtain ⟨hlt₁, hn⟩ := reads_name hn (0x00 :: (index ++ rest))
  rw [List.append_assoc, List.cons_append]
  refine ⟨Nat.lt_trans (Read.lt_cons hlt₂) hlt₁, ?_⟩
  unfold exported
  rw [hn]
  simp only [Option.bind_eq_bind, Option.bind_some]
  rw [byte_cons]
  simp only [Option.bind_some]
  rw [if_neg (by decide), hi]
  rfl

theorem reads_localGroup : Reads localGroup IsGroup := by
  rintro ⟨n, t⟩ _ ⟨hn⟩ rest
  rename_i count
  obtain ⟨hlt₂, ht⟩ : ∃ h, valType (ValType.code t :: rest) = some ⟨t, rest, h⟩ := reads_valType rfl rest
  obtain ⟨hlt₁, hn⟩ := reads_u32 hn (ValType.code t :: rest)
  rw [List.append_assoc, List.singleton_append]
  refine ⟨Nat.lt_trans hlt₂ hlt₁, ?_⟩
  unfold localGroup
  rw [hn]
  simp only [Option.bind_eq_bind, Option.bind_some]
  rw [ht]
  rfl

theorem reads_body : Reads body IsBody := by
  rintro b _ ⟨hg, hsum, hc, ht⟩ rest
  rename_i t groups code
  obtain ⟨hlt, ht⟩ := reads_bytes ht rest
  obtain ⟨_, hg⟩ := reads_localGroup.vector hg (code ++ [0x0b])
  obtain ⟨_, hc⟩ : ∃ h, sequence (code ++ [0x0b]) = some ⟨(b.code, .atEnd), [], h⟩ := sequence_append hc .atEnd []
  have hsum : ¬ Bits.span 32 ≤ b.locals.foldr (fun g n => g.1 + n) 0 := Nat.not_le.2 hsum
  refine ⟨hlt, ?_⟩
  unfold body
  rw [ht]
  simp only [Option.bind_eq_bind, Option.bind_some]
  rw [hg]
  simp only [Option.bind_some]
  rw [if_neg hsum, hc]
  rfl

theorem sections_cons {last id : UInt8} {src t rest : Text} {p : Program} (hid : ¬ (id ≠ 0 ∧ id ≤ last))
    (hm : IsMeasured src t) (hrest : sections (if id = 0 then last else id) rest = some p) :
    sections last (id :: (t ++ rest)) = addSection p id src := by
  obtain ⟨_, hb⟩ := reads_bytes hm rest
  rw [sections, if_neg hid, hb]
  simp only
  rw [hrest]

/-- A section behind those of lower numbers. -/
theorem sections_of_lt {last id : UInt8} {src t rest : Text} {p : Program} (hlast : last < id)
    (hm : IsMeasured src t) (hrest : sections id rest = some p) :
    sections last (id :: (t ++ rest)) = addSection p id src := by
  refine sections_cons (fun h => absurd hlast (UInt8.not_lt.2 h.2)) hm ?_
  rw [if_neg]
  · exact hrest
  · rintro rfl
    exact absurd hlast (UInt8.not_lt_zero)

/-- Sections in the format are read as the program that they are. -/
theorem sections_of_isSections {last : UInt8} {p : Program} {t : Text} (h : IsSections last p t) :
    sections last t = some p := by
  induction h with
  | nil => rw [sections]
  | custom hn hm _ ih =>
    obtain ⟨_, hn⟩ := reads_name hn _
    refine (sections_cons (fun h => h.1 rfl) hm ih).trans ?_
    exact congrArg (Option.map _) hn
  | types hlast hv hm _ ih =>
    exact (sections_of_lt hlast hm ih).trans (congrArg (Option.map _) (reads_signature.contents hv))
  | functions hlast hv hm _ ih =>
    exact (sections_of_lt hlast hm ih).trans (congrArg (Option.map _) (reads_u32.contents hv))
  | exports hlast hv hm _ ih =>
    exact (sections_of_lt hlast hm ih).trans (congrArg (Option.map _) (reads_exported.contents hv))
  | code hlast hv hm _ ih =>
    exact (sections_of_lt hlast hm ih).trans (congrArg (Option.map _) (reads_body.contents hv))

theorem program_of_isModule {p : Program} {data : Text} (h : IsModule p data) : program data = some p := by
  obtain ⟨hs⟩ := h
  rename_i t
  have hheader : header.isPrefixOf (header ++ t) = true := List.isPrefixOf_iff_prefix.2 (List.prefix_append _ _)
  exact (if_pos hheader).trans (sections_of_isSections hs)

end LetIf.Engine
