/-
The layout of written modules. Every atom that is written consists of bytes that can stand in an
identifier, so none is taken for a comment. `Lays text ts` says that a text spells a sequence of
trees wherever it stands; lines, indentation and parentheses keep to it.
-/
import LetIf.Proofs.Wat.Lexing
import LetIf.Proofs.Wat.Tree

namespace LetIf.Wat

open Text

/-! ## Atoms -/

/-- The bytes of an identifier. -/
def isIdByte (b : UInt8) : Bool := isLetter b || isDigit b || idSigns.contains b

theorem isIdByte_of_isDigit {b : UInt8} (h : isDigit b = true) : isIdByte b = true := by
  rw [isIdByte, h, Bool.or_true, Bool.true_or]

/-- Neither a byte that ends an atom nor a semicolon is in an identifier. -/
theorem endsAtom_of_isIdByte {b : UInt8} (h : isIdByte b = true) :
    endsAtom b = false ∧ (b == byte ';') = false := by
  constructor
  · refine Bool.eq_false_iff.2 fun hb => ?_
    simp only [endsAtom, isSpace, Bool.or_eq_true, beq_iff_eq, or_assoc] at hb
    rcases hb with rfl | rfl | rfl | rfl | rfl | rfl | rfl <;> exact absurd h (by decide)
  · refine beq_eq_false_iff_ne.2 ?_
    rintro rfl
    exact absurd h (by decide)

/-- Identifiers are atoms, and so are the words and numbers that are written. -/
theorem isAtom_of_all {t : Text} (hne : t ≠ []) (h : t.all isIdByte = true) : isAtom t = true := by
  have hb := List.all_eq_true.1 h
  have hends : t.all (!endsAtom ·) = true :=
    List.all_eq_true.2 fun b hm => by rw [(endsAtom_of_isIdByte (hb b hm)).1]; rfl
  have hcomment : startsComment t = false := by
    match t with
    | [] | [_] => rfl
    | a :: b :: t =>
      show (a == byte ';' && b == byte ';') = false
      rw [(endsAtom_of_isIdByte (hb a List.mem_cons_self)).2, Bool.false_and]
  rw [isAtom, hends, hcomment, List.isEmpty_eq_false_iff.2 hne]
  rfl

theorem all_isIdByte_ofNat (n : Nat) : (Text.ofNat n).all isIdByte = true := by
  have hdigits := List.all_eq_true.1 (all_isDigit_ofNat n)
  exact List.all_eq_true.2 fun b hb => isIdByte_of_isDigit (hdigits b hb)

theorem isAtom_ofNat (n : Nat) : isAtom (Text.ofNat n) = true :=
  isAtom_of_all (ofNat_ne_nil n) (all_isIdByte_ofNat n)

theorem isAtom_ofInt : ∀ z : Int, isAtom (ofInt z) = true
  | .ofNat n => isAtom_ofNat n
  | .negSucc n => by
    refine isAtom_of_all (List.cons_ne_nil _ _) ?_
    show (byte '-' :: Text.ofNat (n + 1)).all isIdByte = true
    rw [List.all_cons, all_isIdByte_ofNat, Bool.and_true]
    decide

/-! ## Layout -/

/-- The text spells these trees, and no atom goes on into it. -/
structure Lays (text : Text) (ts : List Tree) : Prop where
  spells : Spells text (Tree.formsAll ts)
  stops : stopsAtom text = true

/-- A line of its own. -/
def line (depth : Nat) (t : Text) : Text := indent depth ++ t ++ [10]

theorem Lays.nil : Lays [] [] := ⟨by rw [Tree.formsAll]; exact spells_nil, rfl⟩

theorem Lays.append {a b : Text} {ts us : List Tree} (ha : Lays a ts) (hb : Lays b us) :
    Lays (a ++ b) (ts ++ us) := by
  refine ⟨?_, stopsAtom_append ha.stops hb.stops⟩
  rw [Tree.formsAll_append]
  exact ha.spells.append hb.spells hb.stops

theorem Lays.blank {t : Text} {ts : List Tree} (h : Lays t ts) {b : UInt8} (hb : isSpace b = true) :
    Lays (b :: t) ts :=
  ⟨h.spells.blank hb, by rw [stopsAtom, endsAtom, hb]; rfl⟩

theorem lays_atom {t : Text} (ht : isAtom t = true) : Lays (32 :: t) [.atom t] := by
  refine ⟨Spells.blank (by decide) ?_, rfl⟩
  simp only [Tree.formsAll, Tree.forms, List.append_nil]
  exact spells_atom ht

theorem lays_string (t : Text) : Lays (quotedBytes t) [.string t] := by
  refine ⟨?_, rfl⟩
  simp only [Tree.formsAll, Tree.forms, List.append_nil]
  exact spells_string t

theorem Lays.inBrackets {body : Text} {ts : List Tree} (h : Lays body ts) (head : Text)
    (hh : isAtom head = true) : Lays (bracketed head body) [.list (.atom head :: ts)] := by
  refine ⟨?_, rfl⟩
  have := h.spells.inBrackets hh h.stops
  simpa only [Tree.formsAll, Tree.forms, List.append_nil, List.cons_append, List.nil_append] using this

theorem lays_indent : ∀ depth, Lays (indent depth) []
  | 0 => .nil
  | depth + 1 => by
    have hstep : indent (depth + 1) = 32 :: 32 :: indent depth := rfl
    rw [hstep]
    exact ((lays_indent depth).blank (by decide)).blank (by decide)

theorem Lays.onLine {t : Text} {ts : List Tree} (h : Lays t ts) (depth : Nat) : Lays (line depth t) ts := by
  have hend : Lays [10] [] := Lays.nil.blank (by decide)
  have := ((lays_indent depth).append h).append hend
  rwa [List.nil_append, List.append_nil] at this

end LetIf.Wat
