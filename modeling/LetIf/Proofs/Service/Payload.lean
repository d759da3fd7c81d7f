/-
Reading a body does not depend on the buffer that is used, nor on how the body is cut into chunks:
what is read is the text that arrives, if it fits, and what does not fit is recognised. The invariant
of the loop is that the front of the buffer holds what has arrived so far, up to the limit. A reader is
called with the space that is left, and for one byte more behind a full buffer: chunk by chunk the same is
collected, since a chunk that is cut by the end of the buffer leaves that byte.
-/
import LetIf.Service.Payload

namespace LetIf.Service

/-- The text that arrives with a body: the bytes of its chunks, up to the last. -/
def arrived : List Chunk → Text
  | [] => []
  | c :: rest => if c.last then c.bytes else c.bytes ++ arrived rest

/-- What arrives starts with the first chunk. -/
theorem exists_arrived_eq_append (c : Chunk) (rest : List Chunk) :
    ∃ later, arrived (c :: rest) = c.bytes ++ later := by
  unfold arrived
  split
  · exact ⟨[], (List.append_nil _).symm⟩
  · exact ⟨arrived rest, rfl⟩

/-- Writing leaves what stands before, and puts the text behind it. -/
theorem Buffer.take_write (b : Buffer) (start : Nat) (t : Text) (h : start + t.length ≤ limit) :
    (b.write start t).bytes.take (start + t.length) = b.bytes.take start ++ t := by
  have hlen : (b.bytes.take start ++ t).length = start + t.length := by
    have := b.length_bytes
    rw [List.length_append, List.length_take]
    omega
  unfold write
  rw [List.take_take, Nat.min_eq_left h, ← hlen, List.take_left]

theorem Buffer.write_nil (b : Buffer) (start : Nat) : b.write start [] = b := by
  obtain ⟨bytes, hlen⟩ := b
  simp only [write, mk.injEq, List.append_nil, List.length_nil, Nat.add_zero, List.take_append_drop]
  exact List.take_of_length_le (Nat.le_of_eq hlen)

theorem Buffer.length_take (b : Buffer) {n : Nat} (h : n ≤ limit) : (b.bytes.take n).length = n := by
  rw [List.length_take, b.length_bytes, Nat.min_eq_left h]

namespace Payload

variable {body : List Chunk}

/-- Behind the first bytes of a buffer what arrives is collected up to the limit, and it is known
whether this is all. -/
theorem collect_eq : ∀ (body : List Chunk) (b : Buffer) (filled : Nat), filled ≤ limit →
    (collect b filled body).complete = decide (filled + (arrived body).length ≤ limit) ∧
      (collect b filled body).bytes = (b.bytes.take filled ++ arrived body).take limit
  | [], b, filled, hf => by
    have hlen := b.length_take hf
    constructor
    · simp [collect, arrived, hf]
    · rw [arrived, List.append_nil, List.take_of_length_le (by omega)]
      rfl
  | c :: rest, b, filled, hf => by
    obtain ⟨later, hlater⟩ := exists_arrived_eq_append c rest
    have hlen := b.length_take hf
    unfold collect
    by_cases hc : limit < filled + c.bytes.length
    · -- what is left of the buffer holds only the front of the chunk
      have hroom : (c.bytes.take (limit - filled)).length = limit - filled := by
        rw [List.length_take]
        omega
      have hwrite := b.take_write filled (c.bytes.take (limit - filled)) (by omega)
      rw [hroom, Nat.add_sub_cancel' hf] at hwrite
      rw [if_pos hc, hlater]
      constructor
      · symm
        simp only [decide_eq_false_iff_not, List.length_append]
        omega
      · show List.take limit _ = _
        have hfront : (b.bytes.take filled).take limit = b.bytes.take filled :=
          List.take_of_length_le (by omega)
        have hchunk : (c.bytes ++ later).take (limit - filled) = c.bytes.take (limit - filled) :=
          List.take_append_of_le_length (by omega)
        rw [hwrite, List.take_append, hlen, hfront, hchunk]
    · have htake : c.bytes.take (limit - filled) = c.bytes := List.take_of_length_le (by omega)
      have hwrite := b.take_write filled c.bytes (by omega)
      rw [htake, if_neg hc]
      cases hlast : c.last with
      | true =>
        have harrived : arrived (c :: rest) = c.bytes := by rw [arrived, if_pos hlast]
        rw [harrived, if_pos rfl]
        constructor
        · symm
          simp only [decide_eq_true_eq]
          omega
        · rw [List.take_of_length_le (by rw [List.length_append]; omega)]
          exact hwrite
      | false =>
        have harrived : arrived (c :: rest) = c.bytes ++ arrived rest := by rw [arrived, hlast]; rfl
        obtain ⟨hcomplete, hbytes⟩ :=
          collect_eq rest (b.write filled c.bytes) (filled + c.bytes.length) (by omega)
        rw [harrived, if_neg (by decide)]
        constructor
        · rw [hcomplete, List.length_append, Nat.add_assoc]
        · rw [hbytes, hwrite, List.append_assoc]

theorem read_eq (b : Buffer) (body : List Chunk) :
    (read b body).complete = decide ((arrived body).length ≤ limit) ∧
      (read b body).bytes = (arrived body).take limit := by
  have h := collect_eq body b 0 (Nat.zero_le _)
  rwa [Nat.zero_add, List.take_zero, List.nil_append] at h

/-- A body that fits is read whole. -/
theorem read_of_le (b : Buffer) (h : (arrived body).length ≤ limit) :
    (read b body).complete = true ∧ (read b body).bytes = arrived body := by
  obtain ⟨hcomplete, hbytes⟩ := read_eq b body
  rw [hcomplete, hbytes, List.take_of_length_le h]
  exact ⟨decide_eq_true h, rfl⟩

/-- What does not fit is recognised. -/
theorem read_of_lt (b : Buffer) (h : limit < (arrived body).length) : (read b body).complete = false := by
  rw [(read_eq b body).1]
  exact decide_eq_false (Nat.not_le.2 h)

end Payload

/-! ## Calls for bytes -/

/-- A call for bytes, with space for some: what does not fit is left for the next call, and behind the last
chunk every call gives the end. -/
def receive (space : Nat) : List Chunk → Chunk × List Chunk
  | [] => (⟨[], true⟩, [])
  | c :: rest =>
    if c.bytes.length ≤ space then (c, rest)
    else (⟨c.bytes.take space, false⟩, ⟨c.bytes.drop space, c.last⟩ :: rest)

section Calls

variable {space : Nat} {c : Chunk}

theorem receive_of_le (h : c.bytes.length ≤ space) (rest : List Chunk) :
    receive space (c :: rest) = (c, rest) := by
  rw [receive, if_pos h]

theorem receive_of_lt (h : space < c.bytes.length) (rest : List Chunk) :
    receive space (c :: rest) = (⟨c.bytes.take space, false⟩, ⟨c.bytes.drop space, c.last⟩ :: rest) := by
  rw [receive, if_neg (Nat.not_le.2 h)]

/-- A call that does not give the end leaves less space, or fewer chunks. -/
theorem length_receive {body : List Chunk} (hs : 0 < space) (h : ¬ (receive space body).1.last = true) :
    space - (receive space body).1.bytes.length + (receive space body).2.length < space + body.length := by
  cases body with
  | nil => exact absurd rfl h
  | cons c rest =>
    rw [List.length_cons]
    by_cases hc : c.bytes.length ≤ space
    · rw [receive_of_le hc]
      dsimp only
      omega
    · rw [receive_of_lt (Nat.not_le.1 hc), List.length_take, List.length_cons]
      omega

end Calls

/-- Whether calls with space for one byte give one before the end. -/
def probe (body : List Chunk) : Bool :=
  if (receive 1 body).1.bytes ≠ [] then true
  else if (receive 1 body).1.last = true then false
  else probe (receive 1 body).2
termination_by body.length
decreasing_by
  rename_i hbytes hlast
  have hlt := length_receive Nat.one_pos hlast
  rw [Decidable.not_not.1 hbytes, List.length_nil] at hlt
  omega

theorem probe_nil : probe [] = false := by
  rw [probe]
  rfl

theorem probe_cons (c : Chunk) (rest : List Chunk) :
    probe (c :: rest) = if c.bytes ≠ [] then true else if c.last = true then false else probe rest := by
  rw [probe]
  by_cases hc : c.bytes.length ≤ 1
  · rw [receive_of_le hc]
  · have hne : c.bytes ≠ [] := by
      rintro heq
      rw [heq, List.length_nil] at hc
      omega
    have htake : c.bytes.take 1 ≠ [] := by simpa using hne
    rw [receive_of_lt (Nat.not_le.1 hc), if_pos htake, if_pos hne]

namespace Payload

/-- Calls with what is left of a buffer for space, until it is full or the end is given. Whether a full
buffer holds all of the body is found out by one more byte. -/
def fill (b : Buffer) (filled : Nat) (body : List Chunk) : Payload :=
  if filled < limit then
    let c := (receive (limit - filled) body).1
    if c.last = true then ⟨b.write filled c.bytes, filled + c.bytes.length, true⟩
    else fill (b.write filled c.bytes) (filled + c.bytes.length) (receive (limit - filled) body).2
  else ⟨b, filled, !probe body⟩
termination_by limit - filled + body.length
decreasing_by
  rename_i hfilled hlast
  have hlt := length_receive (Nat.sub_pos_of_lt hfilled) hlast
  omega

/-- Behind a full buffer nothing is collected. -/
theorem collect_limit (b : Buffer) : ∀ body : List Chunk, collect b limit body = ⟨b, limit, !probe body⟩
  | [] => by
    rw [collect, probe_nil]
    rfl
  | c :: rest => by
    unfold collect
    rw [probe_cons, Nat.sub_self, List.take_zero, b.write_nil]
    by_cases hc : c.bytes = []
    · rw [hc, List.length_nil, Nat.add_zero, if_neg (Nat.lt_irrefl _), if_neg (not_not_intro rfl), collect_limit]
      split <;> rfl
    · have hlen := List.length_pos_iff.2 hc
      rw [if_pos (by omega), if_pos hc]
      rfl

/-- Chunk by chunk the same is collected as by calls. -/
theorem collect_eq_fill (b : Buffer) (filled : Nat) (body : List Chunk) (hf : filled ≤ limit) :
    collect b filled body = fill b filled body := by
  fun_induction fill b filled body with
  | case1 b filled body hlt c hlast =>
    cases body with
    | nil =>
      simp only [c, collect, receive, b.write_nil, List.length_nil, Nat.add_zero]
    | cons d rest =>
      by_cases hd : d.bytes.length ≤ limit - filled
      · simp only [c, receive_of_le hd] at hlast ⊢
        rw [collect, List.take_of_length_le hd, if_neg (by omega), if_pos hlast]
      · simp only [c, receive_of_lt (Nat.not_le.1 hd)] at hlast
        cases hlast
  | case2 b filled body hlt c hlast ih =>
    cases body with
    | nil => exact absurd rfl hlast
    | cons d rest =>
      by_cases hd : d.bytes.length ≤ limit - filled
      · simp only [c, receive_of_le hd] at hlast ih ⊢
        rw [collect, List.take_of_length_le hd, if_neg (by omega), if_neg hlast]
        exact ih (by omega)
      · -- the buffer is full, and the next byte is the one behind it
        have hdrop : d.bytes.drop (limit - filled) ≠ [] := by
          rw [← List.length_pos_iff, List.length_drop]
          omega
        have hlen : filled + (d.bytes.take (limit - filled)).length = limit := by
          rw [List.length_take]
          omega
        simp only [c, receive_of_lt (Nat.not_le.1 hd), hlen] at ih ⊢
        rw [← ih (Nat.le_refl _), collect_limit, probe_cons, if_pos hdrop, collect, if_pos (by omega)]
        rfl
  | case3 b filled body hge =>
    have heq : filled = limit := by omega
    rw [heq, collect_limit]

end Payload

/-! ## Deliveries -/

/-- A body is delivered in pieces of any size, empty ones included. Its end is told with the last of its
bytes, or behind them with no more bytes. -/
inductive Delivers : Text → List Chunk → Prop
  | last (t : Text) : Delivers t [⟨t, true⟩]
  | more (t : Text) {rest : Text} {body : List Chunk} (h : Delivers rest body) :
    Delivers (t ++ rest) (⟨t, false⟩ :: body)

theorem Delivers.arrived_eq {t : Text} {body : List Chunk} (h : Delivers t body) : arrived body = t := by
  induction h with
  | last t => simp [arrived]
  | more t _ ih => simp [arrived, ih]

/-- Reading by calls does not depend on the chunks in which a body is delivered, nor on what the buffer held.
A body up to the limit is read as it is, and one byte more is enough to recognise that it does not fit; nothing
is passed off as the whole that is not. -/
theorem Payload.read_delivered {t : Text} {body : List Chunk} (h : Delivers t body) (b : Buffer) :
    read b body = fill b 0 body ∧
      (t.length ≤ limit → (read b body).complete = true ∧ (read b body).bytes = t) ∧
      (limit < t.length → (read b body).complete = false ∧ (read b body).bytes = t.take limit) := by
  refine ⟨collect_eq_fill b 0 body (Nat.zero_le _), ?_⟩
  rw [← h.arrived_eq]
  constructor
  · exact read_of_le b
  · intro hlt
    exact ⟨read_of_lt b hlt, (read_eq b body).2⟩

/-- All but one of the bytes that fit. -/
def blanks : Text := List.replicate (limit - 1) 32

/-- The last byte that fits comes with the end; then it comes without it, and one more behind an empty piece. -/
theorem Payload.read_delivered_limit :
    Delivers (blanks ++ [49]) [⟨blanks, false⟩, ⟨[], false⟩, ⟨[49], true⟩] ∧
      (read .fresh [⟨blanks, false⟩, ⟨[], false⟩, ⟨[49], true⟩]).complete = true ∧
      (read .fresh [⟨blanks, false⟩, ⟨[], false⟩, ⟨[49], true⟩]).bytes = blanks ++ [49] ∧
      Delivers (blanks ++ [49, 50]) [⟨blanks, false⟩, ⟨[49], false⟩, ⟨[], false⟩, ⟨[50], false⟩, ⟨[], true⟩] ∧
      (read .fresh [⟨blanks, false⟩, ⟨[49], false⟩, ⟨[], false⟩, ⟨[50], false⟩, ⟨[], true⟩]).complete = false := by
  have hblanks : blanks.length = limit - 1 := List.length_replicate
  have hlimit : limit = 65536 := rfl
  have hfitting : Delivers (blanks ++ [49]) _ := .more blanks (.more [] (.last [49]))
  have hoversized : Delivers (blanks ++ [49, 50]) _ :=
    .more blanks (.more [49] (.more [] (.more [50] (.last []))))
  have hle : (blanks ++ [49]).length ≤ limit := by
    rw [List.length_append, hblanks, List.length_singleton]
    omega
  have hlt : limit < (blanks ++ [49, 50]).length := by
    rw [List.length_append, hblanks, List.length_cons, List.length_singleton]
    omega
  obtain ⟨hcomplete, hbytes⟩ := (read_delivered hfitting .fresh).2.1 hle
  obtain ⟨hincomplete, -⟩ := (read_delivered hoversized .fresh).2.2 hlt
  exact ⟨hfitting, hcomplete, hbytes, hoversized, hincomplete⟩

end LetIf.Service
