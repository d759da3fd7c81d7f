/-
What is hashed for a key can be taken apart again. A part stands behind its length in four bytes, so reading
starts with a length and goes on behind as many bytes; nothing inside a part is ever looked at as a length. The
reader gives back the parts of every compilation whose lengths are kept, and accepts nothing else, so such compilations
have the same key only when the digest collides.
-/
import LetIf.Proofs.Cache.Key

namespace LetIf.Cache

/-! ## One part -/

/-- The number that four bytes spell, the most significant first. -/
def lengthOf (a b c d : UInt8) : Nat := ((a.toNat * 256 + b.toNat) * 256 + c.toNat) * 256 + d.toNat

/-- Takes a part from behind its length. -/
def unframe? : Text → Option (Text × Text)
  | a :: b :: c :: d :: rest =>
    if lengthOf a b c d ≤ rest.length then some (rest.splitAt (lengthOf a b c d)) else none
  | _ => none

theorem lengthOf_lt (a b c d : UInt8) : lengthOf a b c d < Bits.span 32 := by
  have ha := a.toNat_lt
  have hb := b.toNat_lt
  have hc := c.toNat_lt
  have hd := d.toNat_lt
  have hspan : Bits.span 32 = 4294967296 := rfl
  unfold lengthOf
  omega

theorem lengthBytes_lengthOf (a b c d : UInt8) : lengthBytes (lengthOf a b c d) = [a, b, c, d] := by
  have ha := a.toNat_lt
  have hb := b.toNat_lt
  have hc := c.toNat_lt
  have hd := d.toNat_lt
  have h₈ : Bits.span 8 = 256 := rfl
  have h₁₆ : Bits.span 16 = 65536 := rfl
  have h₂₄ : Bits.span 24 = 16777216 := rfl
  simp only [lengthBytes, List.cons.injEq, and_true, ← UInt8.toNat_inj, UInt8.toNat_ofNat', h₈, h₁₆, h₂₄]
  unfold lengthOf
  refine ⟨?_, ?_, ?_, ?_⟩ <;> omega

theorem exists_lengthOf {n : Nat} (h : n < Bits.span 32) :
    ∃ a b c d, lengthBytes n = [a, b, c, d] ∧ lengthOf a b c d = n := by
  refine ⟨_, _, _, _, rfl, ?_⟩
  have heq := lengthBytes_eq_iff.1 (lengthBytes_lengthOf (n / Bits.span 24).toUInt8 (n / Bits.span 16).toUInt8
    (n / Bits.span 8).toUInt8 n.toUInt8)
  rwa [Nat.mod_eq_of_lt (lengthOf_lt _ _ _ _), Nat.mod_eq_of_lt h] at heq

/-- A part is taken from a text exactly when the text starts with it behind its length. -/
theorem unframe?_eq_some {s t rest : Text} :
    unframe? s = some (t, rest) ↔ t.length < Bits.span 32 ∧ s = framed t ++ rest := by
  constructor
  · intro h
    unfold unframe? at h
    split at h
    · rename_i a b c d u
      split at h
      · rename_i hle
        rw [List.splitAt_eq, Option.some.injEq, Prod.mk.injEq] at h
        obtain ⟨rfl, rfl⟩ := h
        have hlen : (u.take (lengthOf a b c d)).length = lengthOf a b c d := by
          rw [List.length_take, Nat.min_eq_left hle]
        refine ⟨by rw [hlen]; exact lengthOf_lt a b c d, ?_⟩
        unfold framed
        rw [hlen, lengthBytes_lengthOf, List.append_assoc, List.take_append_drop]
        rfl
      · cases h
    · cases h
  · rintro ⟨hlt, rfl⟩
    obtain ⟨a, b, c, d, hbytes, hlen⟩ := exists_lengthOf hlt
    unfold framed
    rw [hbytes]
    simp [unframe?, hlen]

/-! ## All parts -/

/-- Takes a number of parts, one behind the other. -/
def unframes? : Nat → Text → Option (List Text × Text)
  | 0, s => some ([], s)
  | n + 1, s => do
    let (t, s) ← unframe? s
    let (ts, s) ← unframes? n s
    return (t :: ts, s)

theorem unframes?_eq_some : ∀ {n : Nat} {s rest : Text} {ts : List Text},
    unframes? n s = some (ts, rest) ↔
      ts.length = n ∧ (∀ t ∈ ts, t.length < Bits.span 32) ∧ s = ts.flatMap framed ++ rest
  | 0, s, rest, ts => by
    rw [unframes?, Option.some.injEq, Prod.mk.injEq]
    constructor
    · rintro ⟨rfl, rfl⟩
      simp
    · rintro ⟨hlen, -, rfl⟩
      cases List.eq_nil_of_length_eq_zero hlen
      simp
  | n + 1, s, rest, ts => by
    simp only [unframes?, Option.bind_eq_bind, Option.bind_eq_some_iff, Prod.exists, Option.pure_def,
      Option.some.injEq, Prod.mk.injEq, unframe?_eq_some, unframes?_eq_some]
    constructor
    · rintro ⟨t, _, ⟨ht, rfl⟩, us, _, ⟨rfl, hus, rfl⟩, rfl, rfl⟩
      refine ⟨rfl, List.forall_mem_cons.2 ⟨ht, hus⟩, ?_⟩
      rw [List.flatMap_cons, List.append_assoc]
    · rintro ⟨hlen, hall, rfl⟩
      cases ts with
      | nil => cases hlen
      | cons t us =>
        obtain ⟨ht, hus⟩ := List.forall_mem_cons.1 hall
        refine ⟨t, us.flatMap framed ++ rest, ⟨ht, ?_⟩, us, rest, ⟨Nat.succ.inj hlen, hus, rfl⟩, rfl, rfl⟩
        rw [List.flatMap_cons, List.append_assoc]

/-! ## Compilations -/

namespace Job

/-- The parts in the order in which they are hashed. -/
def parts (j : Job) : List Text := [j.format, j.strategy, j.name, j.source]

/-- No part is so long that its length is cut. -/
def Kept (j : Job) : Prop := ∀ t ∈ j.parts, t.length < Bits.span 32

instance (j : Job) : Decidable j.Kept := inferInstanceAs (Decidable (∀ t ∈ j.parts, t.length < Bits.span 32))

/-- The compilation of which a text is what is hashed. -/
def ofMaterial? (s : Text) : Option Job :=
  match unframes? 4 s with
  | some ([format, strategy, name, source], []) => some ⟨source, format, strategy, name⟩
  | _ => none

theorem material_eq (j : Job) : j.material = j.parts.flatMap framed := by
  simp [material, parts]

theorem parts_injective : Function.Injective parts := by
  rintro ⟨s, f, t, n⟩ ⟨s', f', t', n'⟩ h
  simp only [parts, List.cons.injEq, and_true] at h
  obtain ⟨rfl, rfl, rfl, rfl⟩ := h
  rfl

variable {j j' : Job}

/-- The parts are read off, whatever stands behind them. -/
theorem unframes?_material (h : j.Kept) (rest : Text) : unframes? 4 (j.material ++ rest) = some (j.parts, rest) := by
  rw [unframes?_eq_some]
  exact ⟨rfl, h, by rw [material_eq]⟩

/-- The reader accepts what is hashed for some compilation whose lengths are kept, and nothing else. -/
theorem ofMaterial?_eq_some {s : Text} : ofMaterial? s = some j ↔ j.Kept ∧ s = j.material := by
  constructor
  · intro h
    unfold ofMaterial? at h
    split at h
    · rename_i format strategy name source hread
      cases h
      obtain ⟨-, hkept, rfl⟩ := unframes?_eq_some.1 hread
      exact ⟨hkept, by rw [material_eq, List.append_nil]; rfl⟩
    · cases h
  · rintro ⟨hkept, rfl⟩
    have hread := unframes?_material hkept []
    rw [List.append_nil] at hread
    unfold ofMaterial?
    rw [hread]
    rfl

/-- Keys are unambiguous. Of compilations whose parts have lengths that are kept, what is hashed is the same
only if they are the same; it stays apart whatever is put behind it, so no part can be led on into the next. Two
that share a key are two messages with one digest. -/
theorem material_unambiguous (h : j.Kept) (h' : j'.Kept) :
    (j.material = j'.material ↔ j = j') ∧
      (∀ rest rest', j.material ++ rest = j'.material ++ rest' → j = j' ∧ rest = rest') ∧
      (j ≠ j' → j.key = j'.key →
        j.material ≠ j'.material ∧ Blake2b.digest j.material = Blake2b.digest j'.material) := by
  have hmaterial : j.material = j'.material ↔ j = j' := by
    constructor
    · intro heq
      have hread : ofMaterial? j.material = some j := ofMaterial?_eq_some.2 ⟨h, rfl⟩
      have hread' : ofMaterial? j.material = some j' := ofMaterial?_eq_some.2 ⟨h', heq⟩
      exact Option.some.inj (hread.symm.trans hread')
    · rintro rfl
      rfl
  refine ⟨hmaterial, ?_, ?_⟩
  · intro rest rest' heq
    have hread := unframes?_material h rest
    rw [heq, unframes?_material h' rest', Option.some.injEq, Prod.mk.injEq] at hread
    obtain ⟨hparts, hrest⟩ := hread
    exact ⟨parts_injective hparts.symm, hrest.symm⟩
  · intro hne hkey
    exact ⟨fun heq => hne (hmaterial.1 heq), hkey⟩

def plainJob : Job := ⟨"21", "wat", "select", "main"⟩

/-- A compilation whose strategy goes on with what is hashed for the name of the other, its length included. -/
def imitatingJob : Job := ⟨"21", "wat", "select" ++ framed "main", ""⟩

theorem material_unambiguous_imitating : plainJob.Kept ∧ imitatingJob.Kept ∧ plainJob ≠ imitatingJob ∧
    plainJob.material ≠ imitatingJob.material := by
  have hplain : plainJob.Kept := by decide
  have himitating : imitatingJob.Kept := by decide
  have hne : plainJob ≠ imitatingJob := by decide
  exact ⟨hplain, himitating, hne, fun h => hne ((material_unambiguous hplain himitating).1.1 h)⟩

end Job

end LetIf.Cache
