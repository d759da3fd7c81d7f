/-
Keys are unambiguous up to collisions of the digest: the bytes that are hashed determine all parts of
a compilation. A part is told from the next by its length, of which 32 bits are kept, so parts that
are not longer than that are read off one after another; one part may have any length, since what
the others leave of the whole is its own.
-/
import LetIf.Cache.Key
import LetIf.Format
import LetIf.Proofs.Text.Decimal
import LetIf.Strategy
import Mathlib.Tactic

namespace LetIf

namespace Cache

/-! ## Parts behind their lengths -/

section Framed

variable {t t' rest rest' : Text}

theorem lengthBytes_eq_iff {n m : Nat} :
    lengthBytes n = lengthBytes m ↔ n % Bits.span 32 = m % Bits.span 32 := by
  have h₈ : Bits.span 8 = 256 := rfl
  have h₁₆ : Bits.span 16 = 65536 := rfl
  have h₂₄ : Bits.span 24 = 16777216 := rfl
  have h₃₂ : Bits.span 32 = 4294967296 := rfl
  simp only [lengthBytes, List.cons.injEq, and_true, ← UInt8.toNat_inj, UInt8.toNat_ofNat', h₈, h₁₆, h₂₄, h₃₂]
  constructor
  · rintro ⟨h₁, h₂, h₃, h₄⟩
    omega
  · intro h
    refine ⟨?_, ?_, ?_, ?_⟩ <;> omega

theorem framed_append_eq (h : framed t ++ rest = framed t' ++ rest') :
    t.length % Bits.span 32 = t'.length % Bits.span 32 ∧ t ++ rest = t' ++ rest' := by
  unfold framed at h
  rw [List.append_assoc, List.append_assoc] at h
  obtain ⟨hlen, hrest⟩ := List.append_inj h rfl
  exact ⟨lengthBytes_eq_iff.1 hlen, hrest⟩

/-- A part whose length is kept ends where it ends, whatever follows. -/
theorem framed_append_inj (ht : t.length < Bits.span 32) (ht' : t'.length < Bits.span 32)
    (h : framed t ++ rest = framed t' ++ rest') : t = t' ∧ rest = rest' := by
  obtain ⟨hlen, h⟩ := framed_append_eq h
  rw [Nat.mod_eq_of_lt ht, Nat.mod_eq_of_lt ht'] at hlen
  exact List.append_inj h hlen

/-- Of two parts that end a text, the first may have any length. -/
theorem framed_append_framed_inj (hr : rest.length < Bits.span 32) (hr' : rest'.length < Bits.span 32)
    (h : framed t ++ framed rest = framed t' ++ framed rest') : t = t' ∧ rest = rest' := by
  obtain ⟨hmod, h⟩ := framed_append_eq h
  have hsum := congrArg List.length h
  have hspan : Bits.span 32 = 4294967296 := rfl
  rw [hspan] at hmod hr hr'
  simp only [framed, lengthBytes, List.length_append, List.length_cons, List.length_nil] at hsum
  -- the lengths differ by a multiple of `2 ^ 32`, and by less
  have hlen : t.length = t'.length := by omega
  obtain ⟨rfl, hrest⟩ := List.append_inj h hlen
  exact ⟨rfl, (List.append_inj hrest rfl).2⟩

end Framed

/-! ## Compilations -/

/-- The parts other than the name have lengths that are kept. -/
structure Job.Bounded (j : Job) : Prop where
  format : j.format.length < Bits.span 32
  strategy : j.strategy.length < Bits.span 32
  source : j.source.length < Bits.span 32

/-- What is hashed determines the compilation. -/
theorem Job.material_inj {j j' : Job} (hj : j.Bounded) (hj' : j'.Bounded) (h : j.material = j'.material) :
    j = j' := by
  unfold Job.material at h
  simp only [List.append_assoc] at h
  obtain ⟨hformat, h⟩ := framed_append_inj hj.format hj'.format h
  obtain ⟨hstrategy, h⟩ := framed_append_inj hj.strategy hj'.strategy h
  obtain ⟨hname, hsource⟩ := framed_append_framed_inj hj.source hj'.source h
  cases j
  cases j'
  subst hformat hstrategy hname hsource
  rfl

/-- The digest of a message of one block. -/
theorem digest_of_le {data : Text} (h : data.length ≤ Blake2b.blockSize) :
    Blake2b.digest data = ((Blake2b.compress (Blake2b.start.set 0 (Blake2b.start[0] ^^^ 0x01010020))
      (Blake2b.block data) data.length true).toList.take 4).flatMap Blake2b.wordBytes := by
  unfold Blake2b.digest
  rw [Blake2b.absorb]
  have htake : data.take Blake2b.blockSize = data := List.take_of_length_le h
  have hdrop : data.drop Blake2b.blockSize = [] := List.drop_of_length_le h
  split
  · rw [htake, Nat.zero_add]
  · rename_i heq
    rw [hdrop] at heq
    cases heq

end Cache

/-! ## Names -/

theorem Format.name_injective : Function.Injective Format.name := by
  intro f g h
  cases f <;> cases g <;> first | rfl | exact absurd h (by decide)

theorem Format.length_name_le (f : Format) : f.name.length ≤ 4 := by
  cases f <;> decide

/-- Strategies have different names, those that are only numbers included. -/
theorem Strategy.name_injective : Function.Injective Strategy.name := by
  have hunnamed : ∀ n : UInt8, ∀ t : Text, t.head? ≠ some (Text.byte 'S') → (unnamed n).name ≠ t := by
    rintro n t ht rfl
    exact ht rfl
  intro s s' h
  cases s with
  | select =>
    cases s' with
    | select => rfl
    | branch => exact absurd h (by decide)
    | unnamed n => exact absurd h.symm (hunnamed n _ (by decide))
  | branch =>
    cases s' with
    | select => exact absurd h (by decide)
    | branch => rfl
    | unnamed n => exact absurd h.symm (hunnamed n _ (by decide))
  | unnamed n =>
    cases s' with
    | select => exact absurd h (hunnamed n _ (by decide))
    | branch => exact absurd h (hunnamed n _ (by decide))
    | unnamed m =>
      unfold Strategy.name at h
      have hdigits : Text.ofNat n.toNat = Text.ofNat m.toNat :=
        List.append_cancel_left (List.append_cancel_right h)
      have hvalue := congrArg Text.decimalValue hdigits
      rw [Text.decimalValue_ofNat, Text.decimalValue_ofNat] at hvalue
      rw [UInt8.toNat_inj.1 hvalue]

theorem Strategy.length_name_le (s : Strategy) : s.name.length ≤ 13 := by
  cases s with
  | select => decide
  | branch => decide
  | unnamed n =>
    have hdigits : (Text.ofNat n.toNat).length ≤ 3 := Text.length_ofNat (k := 2) (by
      have := n.toNat_lt
      show n.toNat < 1000
      omega)
    have hopening : (Text.ofString "Strategy(").length = 9 := by decide
    have hclosing : (Text.ofString ")").length = 1 := by decide
    simp only [name, List.length_append, hopening, hclosing]
    omega

end LetIf
