/-
Trimming. Reading a text into pieces loses nothing, and any run of the pieces of a text is read back
from its bytes alone. So a text has one core between the blanks at its two ends, and trimming gives
the core as it stands.
-/
import LetIf.Proofs.Text.Utf8
import LetIf.Text.Utf8
import Mathlib.Data.List.DropRight

namespace LetIf.Text

/-! ## Runs of pieces -/

theorem pieces_nil : pieces [] = [] := by
  rw [pieces]
  rfl

theorem pieces_of_none {b : UInt8} {rest : Text} (h : char? (b :: rest) = none) :
    pieces (b :: rest) = .stray b :: pieces rest := by
  rw [pieces]
  split
  · rename_i h'
    rw [h] at h'
    cases h'
  · rfl

theorem pieces_ascii {b : UInt8} (h : b < 128) (rest : Text) :
    pieces (b :: rest) = .char (Char.ofNat b.toNat) :: pieces rest :=
  pieces_of_char? (if_pos (UInt8.lt_iff_toNat_lt.1 h))

/-- Reading loses nothing. -/
theorem flatMap_bytes_pieces (t : Text) : (pieces t).flatMap Piece.bytes = t := by
  induction t using pieces.induct with
  | case1 t c rest hc ih =>
    rw [pieces_of_char? hc, List.flatMap_cons, ih]
    exact (eq_encode_of_char? hc).symm
  | case2 hn => rw [pieces_nil]; rfl
  | case3 b rest hn ih =>
    rw [pieces_of_none hn, List.flatMap_cons, ih]
    rfl

theorem bytes_ascii {b : UInt8} (h : b < 128) : Piece.bytes (.char (Char.ofNat b.toNat)) = [b] := by
  have hb := flatMap_bytes_pieces [b]
  rwa [pieces_ascii h, pieces_nil, List.flatMap_cons, List.flatMap_nil, List.append_nil] at hb

/-- A character at the start of a text does not depend on what follows it. -/
theorem char?_append {t rest : Text} {c : Char} (h : char? t = some (c, rest)) (more : Text) :
    char? (t ++ more) = some (c, rest ++ more) := by
  rw [eq_encode_of_char? h, List.append_assoc, char?_encode]

/-- Pieces into which some text is read: no stray bytes among them make up a character. -/
def AreRead (ps : List Piece) : Prop := pieces (ps.flatMap Piece.bytes) = ps

theorem areRead_pieces (t : Text) : AreRead (pieces t) := congrArg pieces (flatMap_bytes_pieces t)

namespace AreRead

variable {p : Piece} {ps qs : List Piece}

theorem cons (h : AreRead (p :: ps)) :
    AreRead ps ∧ ∀ b, p = .stray b → char? (b :: ps.flatMap Piece.bytes) = none := by
  unfold AreRead at h
  rw [List.flatMap_cons] at h
  cases p with
  | char c =>
    rw [Piece.bytes, pieces_of_char? (char?_encode c _)] at h
    exact ⟨(List.cons.inj h).2, fun b hb => by cases hb⟩
  | stray b =>
    cases hc : char? (b :: ps.flatMap Piece.bytes) with
    | some cr =>
      rw [Piece.bytes, List.singleton_append, pieces_of_char? hc] at h
      cases (List.cons.inj h).1
    | none =>
      rw [Piece.bytes, List.singleton_append, pieces_of_none hc] at h
      refine ⟨(List.cons.inj h).2, fun b' hb => ?_⟩
      cases hb
      exact hc

theorem right : ∀ {ps : List Piece}, AreRead (ps ++ qs) → AreRead qs
  | [], h => h
  | _ :: _, h => right h.cons.1

theorem left : ∀ {ps : List Piece}, AreRead (ps ++ qs) → AreRead ps
  | [], _ => pieces_nil
  | .char c :: ps, h => by
    rw [AreRead, List.flatMap_cons, Piece.bytes, pieces_of_char? (char?_encode c _), left h.cons.1]
  | .stray b :: ps, h => by
    -- a character that starts here would start here with more behind it too
    have hn : char? (b :: ps.flatMap Piece.bytes) = none := by
      have hall : char? (b :: (ps ++ qs).flatMap Piece.bytes) = none := h.cons.2 b rfl
      rw [List.flatMap_append, ← List.cons_append] at hall
      cases hc : char? (b :: ps.flatMap Piece.bytes) with
      | none => rfl
      | some cr => rw [char?_append hc] at hall; cases hall
    rw [AreRead, List.flatMap_cons, Piece.bytes, List.singleton_append, pieces_of_none hn, left h.cons.1]

end AreRead

/-! ## Cores -/

/-- Pieces cut into blanks, a core without blanks at its ends, and blanks again. -/
structure Trim (ps lead core trail : List Piece) : Prop where
  eq : ps = lead ++ (core ++ trail)
  lead_blank : ∀ p ∈ lead, p.isBlank = true
  trail_blank : ∀ p ∈ trail, p.isBlank = true
  first : ∀ p ∈ core.head?, p.isBlank = false
  last : ∀ p ∈ core.getLast?, p.isBlank = false

/-- The blanks in front of pieces, and what follows them. -/
theorem exists_lead (ps : List Piece) : ∃ lead rest, ps = lead ++ rest ∧
    (∀ p ∈ lead, p.isBlank = true) ∧ ∀ p ∈ rest.head?, p.isBlank = false := by
  refine ⟨ps.takeWhile Piece.isBlank, ps.dropWhile Piece.isBlank, List.takeWhile_append_dropWhile.symm,
    fun p hp => List.mem_takeWhile_imp hp, fun p hp => ?_⟩
  have hnot := List.head?_dropWhile_not Piece.isBlank ps
  rw [Option.mem_def.1 hp] at hnot
  exact hnot

theorem exists_trim (ps : List Piece) : ∃ lead core trail, Trim ps lead core trail := by
  obtain ⟨lead, inner, rfl, hlead, hinner⟩ := exists_lead ps
  obtain ⟨trail, core, hrev, htrail, hcore⟩ := exists_lead inner.reverse
  have hsplit : inner = core.reverse ++ trail.reverse := by
    rw [← List.reverse_append, ← hrev, List.reverse_reverse]
  refine ⟨lead, core.reverse, trail.reverse, congrArg _ hsplit, hlead, fun p hp => ?_, fun p hp => ?_,
    fun p hp => ?_⟩
  · exact htrail p (List.mem_reverse.1 hp)
  · refine hinner p ?_
    rw [hsplit, List.head?_append, Option.mem_def.1 hp]
    rfl
  · rw [List.getLast?_reverse] at hp
    exact hcore p hp

theorem dropWhile_lead {lead rest : List Piece} (hlead : ∀ p ∈ lead, p.isBlank = true)
    (hrest : ∀ p ∈ rest.head?, p.isBlank = false) : (lead ++ rest).dropWhile Piece.isBlank = rest := by
  rw [List.dropWhile_append_of_pos hlead]
  cases rest with
  | nil => rfl
  | cons p rest => exact List.dropWhile_cons_of_neg (by rw [hrest p rfl]; exact Bool.false_ne_true)

/-- Trimming gives the core. -/
theorem Trim.trimBlank_eq {t : Text} {lead core trail : List Piece} (h : Trim (pieces t) lead core trail) :
    trimBlank t = core.flatMap Piece.bytes := by
  show ((((pieces t).dropWhile Piece.isBlank).reverse.dropWhile Piece.isBlank).reverse).flatMap _ = _
  rw [h.eq]
  cases core with
  | nil =>
    have hall : ∀ p ∈ lead ++ trail, p.isBlank = true := fun p hp =>
      (List.mem_append.1 hp).elim (h.lead_blank p) (h.trail_blank p)
    rw [List.nil_append, List.dropWhile_eq_nil_iff.2 hall]
    rfl
  | cons p ps =>
    have htrail : ∀ q ∈ trail.reverse, q.isBlank = true := fun q hq => h.trail_blank q (List.mem_reverse.1 hq)
    have hlast : ∀ q ∈ (p :: ps).reverse.head?, q.isBlank = false := by
      rw [List.head?_reverse]
      exact h.last
    have hfirst : ∀ q ∈ (p :: ps ++ trail).head?, q.isBlank = false := h.first
    rw [dropWhile_lead h.lead_blank hfirst, List.reverse_append, dropWhile_lead htrail hlast,
      List.reverse_reverse]

theorem length_trimBlank_le (t : Text) : (trimBlank t).length ≤ t.length := by
  obtain ⟨lead, core, trail, h⟩ := exists_trim (pieces t)
  rw [h.trimBlank_eq]
  conv => rhs; rw [← flatMap_bytes_pieces t, h.eq, List.flatMap_append, List.flatMap_append,
    List.length_append, List.length_append]
  omega

theorem trimBlank_nil : trimBlank [] = [] := by
  unfold trimBlank
  rw [pieces_nil]
  rfl

/-! ## A word in front -/

/-- A word: a text in ASCII without blanks. -/
def IsSolid (t : Text) : Prop := ∀ b ∈ t, b < 128 ∧ isBlank (Char.ofNat b.toNat) = false

instance (t : Text) : Decidable (IsSolid t) := inferInstanceAs (Decidable (∀ b ∈ t, _ ∧ _))

/-- The pieces of a text in ASCII. -/
def asciiPieces (t : Text) : List Piece := t.map fun b => .char (Char.ofNat b.toNat)

theorem pieces_ascii_append {t : Text} (ht : ∀ b ∈ t, b < 128) (rest : Text) :
    pieces (t ++ rest) = asciiPieces t ++ pieces rest := by
  induction t with
  | nil => rfl
  | cons b t ih =>
    rw [List.cons_append, pieces_ascii (ht b List.mem_cons_self),
      ih fun b' hb' => ht b' (List.mem_cons_of_mem b hb')]
    rfl

theorem bytes_asciiPieces {t : Text} (ht : ∀ b ∈ t, b < 128) : (asciiPieces t).flatMap Piece.bytes = t := by
  induction t with
  | nil => rfl
  | cons b t ih =>
    rw [asciiPieces, List.map_cons, List.flatMap_cons, bytes_ascii (ht b List.mem_cons_self)]
    exact congrArg (b :: ·) (ih fun b' hb' => ht b' (List.mem_cons_of_mem b hb'))

/-- A run of pieces is read back, and its core is the one it has among the others. -/
theorem Trim.trimBlank_run {e : Text} {lead core trail : List Piece} (h : Trim (pieces e) lead core trail) :
    trimBlank ((lead ++ core).flatMap Piece.bytes) = trimBlank e := by
  have hall : AreRead ((lead ++ core) ++ trail) := by
    rw [List.append_assoc, ← h.eq]
    exact areRead_pieces e
  have hrun : Trim (pieces ((lead ++ core).flatMap Piece.bytes)) lead core [] := {
    eq := by rw [hall.left, List.append_nil]
    lead_blank := h.lead_blank
    trail_blank := fun p hp => absurd hp List.not_mem_nil
    first := h.first
    last := h.last }
  rw [hrun.trimBlank_eq, h.trimBlank_eq]

namespace IsSolid

variable {word : Text} {sep : UInt8} {e : Text} {lead core trail : List Piece} (hw : IsSolid word)
  (hne : word ≠ [])
include hw

theorem ascii : ∀ b ∈ word, b < 128 := fun b hb => (hw b hb).1

theorem not_blank {p : Piece} (hp : p ∈ asciiPieces word) : p.isBlank = false := by
  obtain ⟨b, hb, rfl⟩ := List.mem_map.1 hp
  exact (hw b hb).2

theorem pieces_append (hsep : sep < 128) (e : Text) :
    pieces (word ++ sep :: e) = asciiPieces word ++ .char (Char.ofNat sep.toNat) :: pieces e := by
  rw [pieces_ascii_append hw.ascii, pieces_ascii hsep]

include hne

theorem first (more : List Piece) : ∀ p ∈ (asciiPieces word ++ more).head?, p.isBlank = false := by
  intro p hp
  have hne' : asciiPieces word ≠ [] := fun h => hne (List.map_eq_nil_iff.1 h)
  rw [List.head?_append_of_ne_nil _ hne'] at hp
  exact hw.not_blank (List.mem_of_mem_head? hp)

variable (hsep : sep < 128)
include hsep

/-- A word before a blank text is the core. -/
theorem trim_blank (hblank : isBlank (Char.ofNat sep.toNat) = true) (h : Trim (pieces e) lead [] trail) :
    Trim (pieces (word ++ sep :: e)) [] (asciiPieces word) (.char (Char.ofNat sep.toNat) :: pieces e) where
  eq := hw.pieces_append hsep e
  lead_blank := fun p hp => absurd hp List.not_mem_nil
  trail_blank := by
    rw [h.eq]
    rintro p (_ | ⟨_, hp⟩)
    · exact hblank
    · exact (List.mem_append.1 hp).elim (h.lead_blank p) (h.trail_blank p)
  first := by
    have h := hw.first hne []
    rwa [List.append_nil] at h
  last := fun p hp => hw.not_blank (List.mem_of_getLast? hp)

/-- A word before a text that is not blank starts the core, and the core of the text ends it. -/
theorem trim_append (hcore : core ≠ []) (h : Trim (pieces e) lead core trail) :
    Trim (pieces (word ++ sep :: e)) []
      (asciiPieces word ++ .char (Char.ofNat sep.toNat) :: (lead ++ core)) trail where
  eq := by rw [hw.pieces_append hsep, h.eq]; simp
  lead_blank := fun p hp => absurd hp List.not_mem_nil
  trail_blank := h.trail_blank
  first := hw.first hne _
  last := by
    rw [← List.cons_append, ← List.append_assoc, List.getLast?_append_of_ne_nil _ hcore]
    exact h.last

/-- A word, a blank and some text, trimmed together: the word alone if the text is blank, and otherwise
the word, the blank and a text that trims to the same as the one given. -/
theorem trimBlank_append (hblank : isBlank (Char.ofNat sep.toNat) = true) (e : Text) :
    (trimBlank (word ++ sep :: e) = word ∧ trimBlank e = []) ∨
      ∃ rest, trimBlank (word ++ sep :: e) = word ++ sep :: rest ∧ trimBlank rest = trimBlank e := by
  obtain ⟨lead, core, trail, h⟩ := exists_trim (pieces e)
  by_cases hcore : core = []
  · subst hcore
    rw [(hw.trim_blank hne hsep hblank h).trimBlank_eq, h.trimBlank_eq, bytes_asciiPieces hw.ascii]
    exact .inl ⟨rfl, rfl⟩
  · refine .inr ⟨(lead ++ core).flatMap Piece.bytes, ?_, h.trimBlank_run⟩
    rw [(hw.trim_append hne hsep hcore h).trimBlank_eq, List.flatMap_append, bytes_asciiPieces hw.ascii,
      List.flatMap_cons, bytes_ascii hsep]
    rfl

end IsSolid

end LetIf.Text
