/-
Where the reader of modules fails. Every step of it that fails does so at a place that is still in
what it was given, and hands on no more than it was given; so the offsets of errors lie within the
data, and a complaint about an opcode stands at that opcode, however deep in arms it is.
-/
import LetIf.Proofs.Wasm.Sequence

namespace LetIf.Wasm

/-- Whatever fault the computation ends in satisfies `P`. -/
def Faults {α : Type} (P : Fault → Prop) (x : Except Fault α) : Prop := ∀ f, x = .error f → P f

namespace Faults

variable {α β : Type} {P Q : Fault → Prop}

theorem ok (a : α) : Faults P (.ok a) := by
  intro f h; cases h

theorem error {f : Fault} (h : P f) : Faults P (.error f : Except Fault α) := by
  intro f' h'; cases h'; exact h

theorem mono {x : Except Fault α} (h : Faults P x) (hPQ : ∀ f, P f → Q f) : Faults Q x :=
  fun f hf => hPQ f (h f hf)

theorem bind {x : Except Fault α} {k : α → Except Fault β} (hx : Faults P x)
    (hk : ∀ a, x = .ok a → Faults P (k a)) : Faults P (x >>= k) := by
  cases x with
  | error f => exact error (hx f rfl)
  | ok a => exact hk a rfl

theorem ite {p : Prop} [Decidable p] {x y : Except Fault α} (hx : p → Faults P x)
    (hy : ¬ p → Faults P y) : Faults P (if p then x else y) := by
  split
  · rename_i h; exact hx h
  · rename_i h; exact hy h

end Faults

/-! ## Inside a text -/

/-- The problems that name no byte of a section or of code. -/
def Problem.isPlain : Problem → Bool
  | .wrongSection .. | .unknownOpcode _ => false
  | _ => true

/-- A fault inside a text, which is not about a section: no more is left at it than there is, and a
complaint about an opcode stands at that opcode. -/
structure Fault.In (f : Fault) (src : Text) : Prop where
  left_le : f.left ≤ src.length
  names : f.problem.isPlain = true ∨
    ∃ op, f.problem = .unknownOpcode op ∧ src[src.length - f.left]? = some op

section Inside

variable {α : Type} {src data : Text}

theorem Fault.In.of_suffix {f : Fault} (h : f.In src) (hs : src <:+ data) : f.In data := by
  obtain ⟨before, rfl⟩ := hs
  have hle := h.left_le
  refine ⟨by rw [List.length_append]; omega, h.names.imp_right fun ⟨op, hop, hat⟩ => ⟨op, hop, ?_⟩⟩
  have hlen : (before ++ src).length - f.left = before.length + (src.length - f.left) := by
    rw [List.length_append]; omega
  rw [hlen, List.getElem?_append_right (Nat.le_add_right ..), Nat.add_sub_cancel_left]
  exact hat

theorem Faults.inSuffix {x : Except Fault α} (h : Faults (·.In src) x) (hs : src <:+ data) :
    Faults (·.In data) x :=
  h.mono fun _ hf => hf.of_suffix hs

theorem Faults.plain {p : Problem} {left : Nat} (h : left ≤ src.length) (hp : p.isPlain = true) :
    Faults (·.In src) (.error ⟨p, left⟩ : Except Fault α) :=
  .error ⟨h, .inl hp⟩

theorem byte_in (src : Text) : Faults (·.In src) (byte src) := by
  cases src with
  | nil => exact .plain (Nat.le_refl 0) rfl
  | cons b rest => exact .ok _

theorem u32_in (src : Text) : Faults (·.In src) (u32 src) := by
  unfold u32
  split
  · exact .ok _
  · exact .plain (Nat.le_refl _) rfl

theorem s32_in (src : Text) : Faults (·.In src) (s32 src) := by
  unfold s32
  split
  · exact .ok _
  · exact .plain (Nat.le_refl _) rfl

theorem expect_in {want : Text} {p : Problem} (hp : p.isPlain = true) (src : Text) :
    Faults (·.In src) (expect want p src) :=
  .ite (fun _ => .ok _) fun _ => .plain (Nat.le_refl _) hp

theorem closeSection_in (s : Section) (left : Nat) (src : Text) :
    Faults (·.In src) (closeSection s left src) :=
  .ite (fun _ => .ok _) fun _ => .plain (Nat.le_refl _) rfl

theorem byte_suffix {r : Read UInt8 src} (h : byte src = .ok r) : r.rest <:+ src :=
  ⟨[r.result], (byte_eq_ok (h := r.shorter)).1 h |>.symm⟩

theorem u32_suffix {r : Read UInt32 src} (h : u32 src = .ok r) : r.rest <:+ src := by
  obtain ⟨bs, hsrc, -⟩ := (u32_eq_ok (h := r.shorter)).1 h
  exact ⟨bs, hsrc.symm⟩

theorem s32_suffix {r : Read Int32 src} (h : s32 src = .ok r) : r.rest <:+ src := by
  obtain ⟨bs, hsrc, -⟩ := (s32_eq_ok (h := r.shorter)).1 h
  exact ⟨bs, hsrc.symm⟩

theorem expect_suffix {want rest : Text} {p : Problem} (h : expect want p src = .ok rest) :
    rest <:+ src :=
  ⟨want, (expect_eq_ok.1 h).symm⟩

theorem localGroups_suffix {groups : Nat} {total total' : UInt32} {rest : Text}
    (h : localGroups groups total src = .ok (total', rest)) : rest <:+ src := by
  obtain ⟨text, n, hsrc, -⟩ := localGroups_eq_ok.1 h
  exact ⟨text, hsrc.symm⟩

theorem sequence_suffix {limit : Nat} {r : Read (List Instr × Terminator) src}
    (h : sequence limit src = .ok r) : r.rest <:+ src := by
  obtain ⟨⟨is, last⟩, rest, hlt⟩ := r
  obtain ⟨bs, hsrc, -⟩ := isCode_of_sequence h
  exact ⟨bs ++ [last.opcode], (List.append_assoc ..).trans hsrc.symm⟩

end Inside

theorem localGroups_in : ∀ (groups : Nat) (total : UInt32) (src : Text),
    Faults (·.In src) (localGroups groups total src)
  | 0, _, _ => .ok _
  | groups + 1, total, src => by
    rw [localGroups]
    refine .bind (u32_in src) ?_
    rintro ⟨k, r₁, _⟩ h₁
    have h₁ : r₁ <:+ src := u32_suffix h₁
    refine .bind ((byte_in r₁).inSuffix h₁) ?_
    rintro ⟨_, r₂, _⟩ h₂
    have h₂ : r₂ <:+ src := (byte_suffix h₂).trans h₁
    refine .ite (fun _ => .plain h₂.length_le rfl) fun _ => ?_
    refine .ite (fun _ => .plain h₂.length_le rfl) fun _ => ?_
    exact (localGroups_in groups (total + k) r₂).inSuffix h₂

theorem sequence_in (limit : Nat) : ∀ src : Text, Faults (·.In src) (sequence limit src)
  | [] => by rw [sequence]; exact .plain (Nat.le_refl 0) rfl
  | op :: src => by
    have hsrc : src <:+ op :: src := List.suffix_cons op src
    rw [sequence]
    refine .ite (fun _ => .plain (Nat.le_refl _) rfl) fun _ => ?_
    refine .ite (fun _ => .ok _) fun _ => ?_
    refine .ite (fun _ => .ok _) fun _ => ?_
    refine .ite (fun _ => ?_) fun _ => ?_
    · exact .bind ((sequence_in limit src).inSuffix hsrc) fun _ _ => .ok _
    refine .ite (fun _ => ?_) fun _ => ?_
    · refine .bind ((s32_in src).inSuffix hsrc) ?_
      rintro ⟨_, r₁, _⟩ h₁
      exact .bind ((sequence_in limit r₁).inSuffix ((s32_suffix h₁).trans hsrc)) fun _ _ => .ok _
    refine .ite (fun _ => ?_) fun _ => ?_
    · refine .bind ((u32_in src).inSuffix hsrc) ?_
      rintro ⟨_, r₁, _⟩ h₁
      exact .bind ((sequence_in limit r₁).inSuffix ((u32_suffix h₁).trans hsrc)) fun _ _ => .ok _
    refine .ite (fun _ => ?_) fun _ => ?_
    · refine .bind ((u32_in src).inSuffix hsrc) ?_
      rintro ⟨_, r₁, _⟩ h₁
      exact .bind ((sequence_in limit r₁).inSuffix ((u32_suffix h₁).trans hsrc)) fun _ _ => .ok _
    refine .ite (fun _ => ?_) fun _ => .error ⟨Nat.le_refl _, .inr ⟨op, rfl, by simp⟩⟩
    refine .bind ((byte_in src).inSuffix hsrc) ?_
    rintro ⟨_, r₁, _⟩ h₁
    have h₁ : r₁ <:+ op :: src := (byte_suffix h₁).trans hsrc
    refine .ite (fun _ => .plain h₁.length_le rfl) fun _ => ?_
    refine .bind ((sequence_in limit r₁).inSuffix h₁) ?_
    rintro ⟨⟨_, _⟩, r₂, _⟩ h₂
    have h₂ : r₂ <:+ op :: src := (sequence_suffix h₂).trans h₁
    refine .ite (fun _ => .plain h₂.length_le rfl) fun _ => ?_
    refine .bind ((sequence_in limit r₂).inSuffix h₂) ?_
    rintro ⟨⟨_, _⟩, r₃, _⟩ h₃
    have h₃ : r₃ <:+ op :: src := (sequence_suffix h₃).trans h₂
    refine .ite (fun _ => .plain h₃.length_le rfl) fun _ => ?_
    exact .bind ((sequence_in limit r₃).inSuffix h₃) fun _ _ => .ok _
  termination_by src => src.length
  decreasing_by all_goals simp only [List.length_cons] at *; omega

/-! ## Bounds -/

/-- A step with at most `n` bytes before it: no more are left at its faults or in its rest. -/
structure Bounded {α : Type} (n : Nat) (rest : α → Text) (x : Except Fault α) : Prop where
  faults : Faults (·.left ≤ n) x
  rest_le : ∀ a, x = .ok a → (rest a).length ≤ n

section Bounds

variable {α β : Type} {n : Nat} {src : Text}

theorem Faults.leaving {p : Problem} {left : Nat} (h : left ≤ n) :
    Faults (·.left ≤ n) (.error ⟨p, left⟩ : Except Fault α) := .error h

theorem Bounded.bind {rest : α → Text} {x : Except Fault α} {k : α → Except Fault β}
    (hx : Bounded n rest x) (hk : ∀ a, (rest a).length ≤ n → Faults (·.left ≤ n) (k a)) :
    Faults (·.left ≤ n) (x >>= k) :=
  .bind hx.faults fun a ha => hk a (hx.rest_le a ha)

/-- The rest of a reader is shorter in any case. -/
theorem Faults.bounded {x : Except Fault (Read α src)} (hx : Faults (·.left ≤ src.length) x)
    (h : src.length ≤ n) : Bounded n Read.rest x :=
  ⟨hx.mono fun _ hf => Nat.le_trans hf h, fun r _ => Nat.le_trans (Nat.le_of_lt r.shorter) h⟩

theorem u32_faults (src : Text) : Faults (·.left ≤ src.length) (u32 src) :=
  (u32_in src).mono fun _ h => h.left_le

theorem expect_bounded {want : Text} {p : Problem} (h : src.length ≤ n) :
    Bounded n id (expect want p src) := by
  refine ⟨.ite (fun _ => .ok _) fun _ => .leaving h, fun rest hr => ?_⟩
  rw [expect_eq_ok.1 hr, List.length_append] at h
  exact Nat.le_trans (Nat.le_add_left _ _) h

theorem closeSection_bounded {s : Section} {left : Nat} (h : src.length ≤ n) :
    Bounded n (fun _ => src) (closeSection s left src) :=
  ⟨.ite (fun _ => .ok _) fun _ => .leaving h, fun _ _ => h⟩

theorem sectionHeader_faults (want : Section) :
    ∀ src : Text, Faults (·.left ≤ src.length) (sectionHeader want src)
  | [] => by rw [sectionHeader]; exact .leaving (Nat.le_refl 0)
  | id :: later => by
    rw [sectionHeader]
    cases hu : u32 later with
    | error f => exact .error (Nat.le_succ_of_le (u32_faults later f hu))
    | ok r =>
      obtain ⟨size, rest, hlt⟩ := r
      refine .ite (fun _ => .leaving (by rw [List.length_cons]; omega)) fun _ => ?_
      refine .ite (fun _ => ?_) fun _ => ?_
      · refine (sectionHeader_faults want (rest.drop size.toNat)).mono fun f hf => ?_
        rw [List.length_drop] at hf
        rw [List.length_cons]
        omega
      · exact .ite (fun _ => .leaving (by rw [List.length_cons]; omega)) fun _ => .ok _
  termination_by src => src.length
  decreasing_by rw [List.length_drop, List.length_cons]; omega

theorem sectionHeader_bounded {want : Section} (h : src.length ≤ n) :
    Bounded n Prod.snd (sectionHeader want src) := by
  refine ⟨(sectionHeader_faults want src).mono fun _ hf => Nat.le_trans hf h, fun ⟨left, rest⟩ hr => ?_⟩
  obtain ⟨customs, size, k, -, -, rfl, -⟩ := sectionHeader_eq_ok.1 hr
  rw [List.length_append] at h
  exact Nat.le_trans (Nat.le_add_left _ _) h

theorem localGroups_faults (groups : Nat) (total : UInt32) (src : Text) (h : src.length ≤ n) :
    Faults (·.left ≤ n) (localGroups groups total src) :=
  (localGroups_in groups total src).mono fun _ hf => Nat.le_trans hf.left_le h

theorem localGroups_bounded {groups : Nat} {total : UInt32} (h : src.length ≤ n) :
    Bounded n Prod.snd (localGroups groups total src) := by
  refine ⟨localGroups_faults groups total src h, fun ⟨total', rest⟩ hr => ?_⟩
  obtain ⟨text, k, rfl, -, -⟩ := localGroups_eq_ok.1 hr
  rw [List.length_append] at h
  exact Nat.le_trans (Nat.le_add_left _ _) h

theorem sequence_faults (limit : Nat) (src : Text) :
    Faults (·.left ≤ src.length) (sequence limit src) :=
  (sequence_in limit src).mono fun _ h => h.left_le

end Bounds

/-- Every fault of a module shows within the data. -/
theorem module_faults (data : Text) : Faults (·.left ≤ data.length) (module data) := by
  unfold module
  refine (expect_bounded (Nat.le_refl _)).bind fun src h => ?_
  refine (expect_bounded h).bind fun src h => ?_
  refine (sectionHeader_bounded h).bind fun ⟨_, src⟩ h => ?_
  refine (expect_bounded h).bind fun src h => ?_
  refine (closeSection_bounded h).bind fun _ h => ?_
  refine (sectionHeader_bounded h).bind fun ⟨_, src⟩ h => ?_
  refine (expect_bounded h).bind fun src h => ?_
  refine (closeSection_bounded h).bind fun _ h => ?_
  refine (sectionHeader_bounded h).bind fun ⟨_, src⟩ h => ?_
  refine (expect_bounded h).bind fun src h => ?_
  refine ((u32_faults src).bounded h).bind fun ⟨size, src, _⟩ h => ?_
  refine .ite (fun _ => .leaving h) fun _ => .ite (fun _ => .leaving h) fun _ => ?_
  have h : (src.drop size.toNat).length ≤ data.length := by
    rw [List.length_drop]; exact Nat.le_trans (Nat.sub_le _ _) h
  refine (expect_bounded h).bind fun src h => ?_
  refine (closeSection_bounded h).bind fun _ h => ?_
  refine (sectionHeader_bounded h).bind fun ⟨left, src⟩ h => ?_
  refine (expect_bounded h).bind fun src h => ?_
  refine ((u32_faults src).bounded h).bind fun ⟨_, src, _⟩ h => ?_
  refine .ite (fun _ => .leaving h) fun _ => ?_
  refine ((u32_faults src).bounded h).bind fun ⟨_, src, _⟩ h => ?_
  refine (localGroups_bounded h).bind fun ⟨_, src⟩ h => ?_
  refine ((sequence_faults left src).bounded h).bind fun ⟨⟨_, _⟩, src, _⟩ h => ?_
  refine .ite (fun _ => .leaving h) fun _ => ?_
  refine (closeSection_bounded h).bind fun _ h => ?_
  exact .ite (fun _ => .leaving h) fun _ => .ok _

end LetIf.Wasm
