/-
Printing and reading back. By induction on an expression, its text is cut into tokens that derive
it, wherever no word goes on behind it: a conditional or a binding inside another stands between
parentheses, and one at the end of another ends where that one does. So the text of an expression
reads back as the expression, and printing what was read changes nothing any more.
-/
import LetIf.Expr.Print
import LetIf.Proofs.Expr.Equal
import LetIf.Proofs.Source.Derivation
import LetIf.Proofs.Text.Decimal

namespace LetIf

namespace Expr

variable {A B : Type}

/-- The integer literals, from the left. -/
def integers : Expr A → List Int32
  | .lit _ (some (.int n)) => [n]
  | .lit .. | .var .. | .hole => []
  | .cond _ c y n => c.integers ++ y.integers ++ n.integers
  | .bind _ _ b k => b.integers ++ k.integers

theorem forall_integers_cond {p : Int32 → Prop} {a : A} {c y n : Expr A} :
    (∀ i ∈ (Expr.cond a c y n).integers, p i) ↔
      (∀ i ∈ c.integers, p i) ∧ (∀ i ∈ y.integers, p i) ∧ ∀ i ∈ n.integers, p i := by
  simp only [integers, List.forall_mem_append, and_assoc]

theorem forall_integers_bind {p : Int32 → Prop} {a : A} {x : Ident} {b k : Expr A} :
    (∀ i ∈ (Expr.bind a x b k).integers, p i) ↔
      (∀ i ∈ b.integers, p i) ∧ ∀ i ∈ k.integers, p i := by
  simp only [integers, List.forall_mem_append]

theorem integers_map (f : A → B) : ∀ e : Expr A, (e.map f).integers = e.integers
  | .lit _ v => by cases v with
    | none => rfl
    | some v => cases v <;> rfl
  | .var _ _ | .hole => rfl
  | .cond _ c y n => by
    simp only [map, integers, integers_map f c, integers_map f y, integers_map f n]
  | .bind _ _ b k => by simp only [map, integers, integers_map f b, integers_map f k]

/-- The text of an expression does not depend on its annotations. -/
theorem printNested_map (f : A → B) (nested : Bool) (e : Expr A) :
    (e.map f).printNested nested = e.printNested nested := by
  induction e generalizing nested with
  | lit _ v => cases v <;> rfl
  | var _ _ => rfl
  | cond _ c y n ihc ihy ihn => simp only [map, printNested, ihc, ihy, ihn]
  | bind _ _ b k ihb ihk => simp only [map, printNested, ihb, ihk]
  | hole => rfl

theorem print_of_erase {x : Expr A} {y : Expr B} (h : x.erase = y.erase) : x.print = y.print := by
  unfold print
  rw [← printNested_map (fun _ => ()) false x, ← printNested_map (fun _ => ()) false y]
  exact congrArg (printNested false) h

end Expr

namespace Source

open Text

/-! ## Texts of tokens -/

/-- The text is cut into these tokens wherever no word goes on behind it. -/
def Spells (text : Text) (ls : List Lexeme) : Prop :=
  ∀ (rest : Text) (later : List Lexeme), startsInWord rest = false → Lexes rest later →
    Lexes (text ++ rest) (ls ++ later)

theorem Spells.lexes {text : Text} {ls : List Lexeme} (h : Spells text ls) : Lexes text ls := by
  have := h [] [] rfl .nil
  rwa [List.append_nil, List.append_nil] at this

theorem spells_word {w : Text} (hw : isWord w = true) : Spells w [⟨.word, w⟩] :=
  fun _ _ hend h => .word hw hend h

theorem spells_integer {digits : Text} (hd : isNumeral digits = true) :
    Spells digits [⟨.integer, digits⟩] :=
  fun _ _ hend h => .integer hd hend h

theorem spells_sign {s : Lexeme} (hs : s ∈ signs) : Spells s.text [s] :=
  fun _ _ _ h => .sign hs h

/-- A blank keeps two texts apart. -/
theorem Spells.spaced {a b : Text} {ls ms : List Lexeme} (ha : Spells a ls) (hb : Spells b ms) :
    Spells (a ++ 32 :: b) (ls ++ ms) := by
  intro rest later hend h
  rw [List.append_assoc, List.append_assoc]
  exact ha _ _ rfl (.blank (by decide) (hb rest later hend h))

/-- Parentheses keep a text apart from anything. -/
theorem Spells.parens {a : Text} {ls : List Lexeme} (ha : Spells a ls) :
    Spells ("(" ++ a ++ ")") (⟨.opening, "("⟩ :: ls ++ [⟨.closing, ")"⟩]) := by
  intro rest later hend h
  have hopening : (⟨.opening, "("⟩ : Lexeme) ∈ signs := by decide
  have hclosing : (⟨.closing, ")"⟩ : Lexeme) ∈ signs := by decide
  have hinner := Lexes.sign hopening (ha _ _ rfl (Lexes.sign hclosing h))
  simpa only [List.append_assoc, List.cons_append, List.nil_append] using hinner

/-! ## Texts of expressions -/

/-- The text consists of tokens that derive the tree. -/
def Writes (text : Text) (t : Expr Unit) : Prop := ∃ ls, Spells text ls ∧ Derives ls t

theorem Writes.parens {text : Text} {t : Expr Unit} (h : Writes text t) (nested : Bool) :
    Writes (Expr.parens nested text) t := by
  obtain ⟨ls, hs, hd⟩ := h
  cases nested with
  | false => exact ⟨ls, hs, hd⟩
  | true => exact ⟨_, hs.parens, .parens rfl hd rfl⟩

theorem writes_true : Writes "True" (.lit () (some (.bool true))) :=
  ⟨_, spells_word (by decide), .trueWord⟩

theorem writes_false : Writes "False" (.lit () (some (.bool false))) :=
  ⟨_, spells_word (by decide), .falseWord⟩

theorem writes_ident (x : Ident) : Writes x.text (.var () x) := ⟨_, spells_word x.word, .ident x⟩

theorem writes_int {n : Int32} (h : 0 ≤ n.toInt) :
    Writes (Value.int n).text (.lit () (some (.int n))) := by
  obtain ⟨m, hm⟩ := Int.eq_ofNat_of_zero_le h
  have hlt := n.toInt_lt
  have hten : Nat.pow 10 (9 + 1) = 10000000000 := rfl
  have htext : (Value.int n).text = Text.ofNat m := by rw [Value.text, hm]; rfl
  have hnumeral : isNumeral (Text.ofNat m) = true := by
    rw [isNumeral, all_isDigit_ofNat, Bool.and_true, Bool.not_eq_true', List.isEmpty_eq_false_iff]
    exact ofNat_ne_nil m
  rw [htext]
  refine ⟨_, spells_integer hnumeral, .integer (length_ofNat (by omega)) ?_ ?_⟩
  · rw [decimalValue_ofNat]; omega
  · rw [decimalValue_ofNat, hm]

theorem writes_cond {c y n : Text} {tc ty tn : Expr Unit} (hc : Writes c tc) (hy : Writes y ty)
    (hn : Writes n tn) :
    Writes ("if " ++ c ++ " then " ++ y ++ " else " ++ n) (.cond () tc ty tn) := by
  obtain ⟨cs, hcs, hc⟩ := hc
  obtain ⟨ys, hys, hy⟩ := hy
  obtain ⟨ns, hns, hn⟩ := hn
  have hif : Spells "if" [⟨.word, "if"⟩] := spells_word (by decide)
  have hthen : Spells "then" [⟨.word, "then"⟩] := spells_word (by decide)
  have helse : Spells "else" [⟨.word, "else"⟩] := spells_word (by decide)
  have hall := hif.spaced (hcs.spaced (hthen.spaced (hys.spaced (helse.spaced hns))))
  refine ⟨_, ?_, .cond hc hy hn⟩
  rw [show Text.ofString "if " = Text.ofString "if" ++ [32] by decide,
    show Text.ofString " then " = 32 :: Text.ofString "then" ++ [32] by decide,
    show Text.ofString " else " = 32 :: Text.ofString "else" ++ [32] by decide]
  simpa only [List.append_assoc, List.cons_append, List.nil_append] using hall

theorem writes_bind {b k : Text} {tb tk : Expr Unit} (x : Ident) (hb : Writes b tb)
    (hk : Writes k tk) :
    Writes ("let " ++ x.text ++ " = " ++ b ++ " in " ++ k) (.bind () x tb tk) := by
  obtain ⟨bs, hbs, hb⟩ := hb
  obtain ⟨ks, hks, hk⟩ := hk
  have hlet : Spells "let" [⟨.word, "let"⟩] := spells_word (by decide)
  have hequals : Spells "=" [⟨.equals, "="⟩] := spells_sign (s := ⟨.equals, "="⟩) (by decide)
  have hin : Spells "in" [⟨.word, "in"⟩] := spells_word (by decide)
  have hall := hlet.spaced ((spells_word x.word).spaced (hequals.spaced (hbs.spaced
    (hin.spaced hks))))
  refine ⟨_, ?_, .bind (q := ⟨.equals, "="⟩) x rfl hb hk⟩
  rw [show Text.ofString "let " = Text.ofString "let" ++ [32] by decide,
    show Text.ofString " = " = 32 :: Text.ofString "=" ++ [32] by decide,
    show Text.ofString " in " = 32 :: Text.ofString "in" ++ [32] by decide]
  simpa only [List.append_assoc, List.cons_append, List.nil_append] using hall

/-- A finished expression whose integers are not negative has a text, and its tokens derive it. -/
theorem exists_writes {A : Type} {x : Expr A} (hv : x.isValued = true)
    (hi : ∀ n ∈ x.integers, 0 ≤ n.toInt) (nested : Bool) :
    ∃ text, x.printNested nested = .ok text ∧ Writes text x.erase := by
  induction x generalizing nested with
  | lit _ v =>
    obtain ⟨v, rfl⟩ := Option.isSome_iff_exists.1 hv
    refine ⟨v.text, rfl, ?_⟩
    cases v with
    | bool b => cases b with
      | true => exact writes_true
      | false => exact writes_false
    | int n => exact writes_int (hi n (List.mem_singleton.2 rfl))
  | var _ x => exact ⟨x.text, rfl, writes_ident x⟩
  | cond _ c y n ihc ihy ihn =>
    obtain ⟨hvc, hvy, hvn⟩ := Expr.isValued_cond.1 hv
    obtain ⟨hic, hiy, hin⟩ := Expr.forall_integers_cond.1 hi
    obtain ⟨tc, hc, hwc⟩ := ihc hvc hic true
    obtain ⟨ty, hy, hwy⟩ := ihy hvy hiy true
    obtain ⟨tn, hn, hwn⟩ := ihn hvn hin false
    refine ⟨_, ?_, (writes_cond hwc hwy hwn).parens nested⟩
    simp only [Expr.printNested, hc, hy, hn]
    rfl
  | bind _ x b k ihb ihk =>
    obtain ⟨hvb, hvk⟩ := Expr.isValued_bind.1 hv
    obtain ⟨hib, hik⟩ := Expr.forall_integers_bind.1 hi
    obtain ⟨tb, hb, hwb⟩ := ihb hvb hib true
    obtain ⟨tk, hk, hwk⟩ := ihk hvk hik false
    refine ⟨_, ?_, (writes_bind x hwb hwk).parens nested⟩
    simp only [Expr.printNested, hb, hk]
    rfl
  | hole => cases hv

/-! ## Reading back -/

theorem exists_parse_print {A : Type} {x : Expr A} (hv : x.isValued = true)
    (hi : ∀ n ∈ x.integers, 0 ≤ n.toInt) :
    ∃ text y, x.print = .ok text ∧ parse text = .ok y ∧ y.erase = x.erase := by
  obtain ⟨text, hprint, ls, hs, hd⟩ := exists_writes hv hi false
  obtain ⟨y, hy, herase⟩ := parse_iff.2 ⟨ls, hs.lexes, hd⟩
  exact ⟨text, y, hprint, hy, herase⟩

/-- What a sequence of tokens derives can be printed. -/
theorem Derives.printable {ls : List Lexeme} {t : Expr Unit} (h : Derives ls t) :
    t.isValued = true ∧ ∀ n ∈ t.integers, 0 ≤ n.toInt := by
  induction h with
  | integer _ _ hn =>
    refine ⟨rfl, fun m hm => ?_⟩
    rw [List.mem_singleton.1 hm, hn]
    exact Int.natCast_nonneg _
  | trueWord | falseWord | ident _ => exact ⟨rfl, fun _ hm => absurd hm List.not_mem_nil⟩
  | parens _ _ _ ih => exact ih
  | cond _ _ _ ihc ihy ihn =>
    exact ⟨Expr.isValued_cond.2 ⟨ihc.1, ihy.1, ihn.1⟩,
      Expr.forall_integers_cond.2 ⟨ihc.2, ihy.2, ihn.2⟩⟩
  | bind _ _ _ _ ihb ihk =>
    exact ⟨Expr.isValued_bind.2 ⟨ihb.1, ihk.1⟩, Expr.forall_integers_bind.2 ⟨ihb.2, ihk.2⟩⟩

theorem printable_of_parse {src : Text} {t : Expr Position} (h : parse src = .ok t) :
    t.isValued = true ∧ ∀ n ∈ t.integers, 0 ≤ n.toInt := by
  obtain ⟨ls, -, hd⟩ := parse_iff.1 ⟨t, h, rfl⟩
  have hp := hd.printable
  unfold Expr.erase at hp
  rwa [Expr.isValued_map, Expr.integers_map] at hp

/-- Reading a text back that was printed gives the expression, up to annotations; and for an
expression that was read, printing what was read back gives the same text again. -/
theorem parse_print :
    (∀ {A : Type} (x : Expr A), x.isValued = true → (∀ n ∈ x.integers, 0 ≤ n.toInt) →
      ∃ text y, x.print = .ok text ∧ parse text = .ok y ∧ y.equal x = .ok true) ∧
      ∀ (src : Text) (t : Expr Position), parse src = .ok t →
        ∃ text y, t.print = .ok text ∧ parse text = .ok y ∧ y.equal t = .ok true ∧
          y.print = .ok text := by
  have hequal : ∀ {A : Type} {x : Expr A} {y : Expr Position}, x.isValued = true →
      y.erase = x.erase → y.equal x = .ok true := by
    intro A x y hv h
    rw [Expr.equal_of_isValued (Expr.isValued_of_erase h hv) hv, decide_eq_true h]
  constructor
  · intro A x hv hi
    obtain ⟨text, y, hprint, hy, herase⟩ := exists_parse_print hv hi
    exact ⟨text, y, hprint, hy, hequal hv herase⟩
  · intro src t ht
    obtain ⟨hv, hi⟩ := printable_of_parse ht
    obtain ⟨text, y, hprint, hy, herase⟩ := exists_parse_print hv hi
    exact ⟨text, y, hprint, hy, hequal hv herase, (Expr.print_of_erase herase).trans hprint⟩

/-- A binding inside a conditional and one at its end, with a conditional inside. -/
def crowded : Expr Unit :=
  .cond () (.bind () nameX (.lit () (some (.int 7))) (.var () nameX)) (.var () nameX)
    (.bind () nameX (.cond () (.var () nameX) (.var () nameX) (.var () nameX)) (.var () nameX))

def crowdedText : Text := "if (let x = 7 in x) then x else let x = (if x then x else x) in x"

theorem parse_print_crowded :
    crowded.isValued = true ∧ crowded.integers = [7] ∧
      ∃ y, crowded.print = .ok crowdedText ∧ parse crowdedText = .ok y ∧
        y.equal crowded = .ok true := by
  have hseven : Text.ofInt (7 : Int32).toInt = "7" := by
    rw [show Text.ofInt (7 : Int32).toInt = Text.ofNat 7 from rfl, ofNat, decimalDigits, digitsOnto]
    rfl
  have htext : crowded.print = .ok crowdedText := by
    unfold crowded
    simp only [Expr.print, Expr.printNested, Value.text, hseven]
    rfl
  obtain ⟨text, y, hprint, hy, hequal⟩ :=
    parse_print.1 crowded rfl (List.forall_mem_singleton.2 (by decide))
  cases htext.symm.trans hprint
  exact ⟨rfl, rfl, y, hprint, hy, hequal⟩

end Source

end LetIf
