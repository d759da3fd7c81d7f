/-
What a source is cut into. `Lexes` says without a machine which texts a sequence of tokens stands
for: blanks anywhere between tokens, words and integers taken as far as they go, and no letter or
underscore right after an integer. The tokens of a source end at its end exactly when it is such
a text.
-/
import LetIf.Source.Token

namespace LetIf.Source

open Text

/-- A token without its place. -/
structure Lexeme where
  kind : Token.Kind
  text : Text
  deriving DecidableEq

def Token.lexeme (t : Token) : Lexeme := ⟨t.kind, t.text⟩

def signs : List Lexeme := [⟨.equals, "="⟩, ⟨.opening, "("⟩, ⟨.closing, ")"⟩]

/-- A non-empty sequence of digits. -/
def isNumeral (t : Text) : Bool := !t.isEmpty && t.all isDigit

/-- The source is cut into these tokens. -/
inductive Lexes : Text → List Lexeme → Prop
  | nil : Lexes [] []
  | blank {b : UInt8} {rest : Text} {ls : List Lexeme} (hb : b ∈ [32, 9, 13, 10])
      (h : Lexes rest ls) : Lexes (b :: rest) ls
  | sign {s : Lexeme} {rest : Text} {ls : List Lexeme} (hs : s ∈ signs)
      (h : Lexes rest ls) : Lexes (s.text ++ rest) (s :: ls)
  | integer {digits rest : Text} {ls : List Lexeme} (hd : isNumeral digits = true)
      (hend : startsInWord rest = false) (h : Lexes rest ls) :
      Lexes (digits ++ rest) (⟨.integer, digits⟩ :: ls)
  | word {w rest : Text} {ls : List Lexeme} (hw : isWord w = true)
      (hend : startsInWord rest = false) (h : Lexes rest ls) :
      Lexes (w ++ rest) (⟨.word, w⟩ :: ls)

/-! ## Bytes that start a token -/

theorem isSpace_iff {b : UInt8} : isSpace b = true ↔ b ∈ [32, 9, 13, 10] := by
  simp only [isSpace, Bool.or_eq_true, beq_iff_eq, List.mem_cons, List.not_mem_nil, or_false,
    or_assoc]

theorem sign?_eq_some {b : UInt8} {k : Token.Kind} :
    sign? b = some k ↔ (⟨k, [b]⟩ : Lexeme) ∈ signs := by
  have hequals : Text.ofString "=" = [byte '='] := by decide
  have hopening : Text.ofString "(" = [byte '('] := by decide
  have hclosing : Text.ofString ")" = [byte ')'] := by decide
  simp only [signs, hequals, hopening, hclosing, List.mem_cons, List.not_mem_nil, or_false,
    Lexeme.mk.injEq, List.cons.injEq, and_true]
  unfold sign?
  by_cases h₁ : b = byte '='
  · subst h₁; cases k <;> decide
  by_cases h₂ : b = byte '('
  · subst h₂; cases k <;> decide
  by_cases h₃ : b = byte ')'
  · subst h₃; cases k <;> decide
  simp [h₁, h₂, h₃]

/-- A sign is one byte, and that byte starts nothing else. -/
theorem sign_of_mem {s : Lexeme} (h : s ∈ signs) :
    ∃ b, s.text = [b] ∧ sign? b = some s.kind ∧ isSpace b = false ∧ isWordByte b = false := by
  simp only [signs, List.mem_cons, List.not_mem_nil, or_false] at h
  rcases h with rfl | rfl | rfl
  · exact ⟨byte '=', by decide⟩
  · exact ⟨byte '(', by decide⟩
  · exact ⟨byte ')', by decide⟩

/-- The bytes that a word is cut out by are those that identifiers have. -/
theorem ident_classes (b : UInt8) : Ident.isLetter b = isLetter b ∧ Ident.isDigit b = isDigit b ∧
    Ident.isFurther b = isWordByte b := by
  have hletter : Ident.isLetter b = isLetter b := rfl
  have hdigit : Ident.isDigit b = isDigit b := rfl
  refine ⟨hletter, hdigit, ?_⟩
  rw [Ident.isFurther, isWordByte, hletter, hdigit]
  rfl

theorem isWord_cons (b : UInt8) (rest : Text) : isWord (b :: rest) = (isLetter b && rest.all isWordByte) := by
  have hfurther : Ident.isFurther = isWordByte := funext fun c => (ident_classes c).2.2
  rw [isWord, (ident_classes b).1, hfurther]

theorem isWordByte_of_isDigit {b : UInt8} (h : isDigit b = true) : isWordByte b = true := by
  simp only [isWordByte, h, Bool.or_true, Bool.true_or]

theorem isWordByte_of_isLetter {b : UInt8} (h : isLetter b = true) : isWordByte b = true := by
  simp only [isWordByte, h, Bool.true_or]

theorem isDigit_of_isLetter {b : UInt8} (h : isLetter b = true) : isDigit b = false := by
  simp only [isLetter, isDigit, Bool.or_eq_true, Bool.and_eq_true, decide_eq_true_eq,
    Bool.and_eq_false_iff, decide_eq_false_iff_not, UInt8.le_iff_toNat_le, UInt8.reduceToNat] at *
  omega

theorem isSpace_of_isWordByte {b : UInt8} (h : isWordByte b = true) : isSpace b = false := by
  refine Bool.eq_false_iff.2 fun hs => ?_
  have hb := isSpace_iff.1 hs
  simp only [List.mem_cons, List.not_mem_nil, or_false] at hb
  rcases hb with rfl | rfl | rfl | rfl <;> exact absurd h (by decide)

theorem sign?_of_isWordByte {b : UInt8} (h : isWordByte b = true) : sign? b = none := by
  cases hs : sign? b with
  | none => rfl
  | some k =>
    obtain ⟨b', hb, -, -, hw⟩ := sign_of_mem (sign?_eq_some.1 hs)
    cases hb
    exact absurd h (by rw [hw]; decide)

/-! ## Cutting off one token -/

/-- A text all of whose bytes satisfy `p`, before one that does not go on like that. -/
theorem takeWhile_run {p : UInt8 → Bool} {run rest : Text} (hrun : run.all p = true)
    (hp : ∀ b, p b = true → isWordByte b = true) (hend : startsInWord rest = false) :
    (run ++ rest).takeWhile p = run ∧ (run ++ rest).dropWhile p = rest := by
  have hall : ∀ b ∈ run, p b = true := List.all_eq_true.1 hrun
  rw [List.takeWhile_append_of_pos hall, List.dropWhile_append_of_pos hall]
  cases rest with
  | nil => exact ⟨by simp, rfl⟩
  | cons b rest =>
    have hb : ¬ p b = true := fun h => Bool.false_ne_true (hend.symm.trans (hp b h))
    rw [List.takeWhile_cons_of_neg hb, List.dropWhile_cons_of_neg hb, List.append_nil]
    exact ⟨rfl, rfl⟩

theorem tokensFrom_nil (pos : Position) : tokensFrom pos [] = ⟨[], .endOfInput pos⟩ := by
  rw [tokensFrom]

theorem tokensFrom_blank {b : UInt8} (h : isSpace b = true) (pos : Position) (rest : Text) :
    tokensFrom pos (b :: rest) = tokensFrom (pos.after b) rest := by
  rw [tokensFrom, if_pos h]

theorem tokensFrom_sign {s : Lexeme} (h : s ∈ signs) (pos : Position) (rest : Text) :
    tokensFrom pos (s.text ++ rest) =
      (tokensFrom (pos.along 1) rest).cons ⟨s.kind, s.text, pos⟩ := by
  obtain ⟨b, ht, hsign, hspace, -⟩ := sign_of_mem h
  rw [ht, List.singleton_append, tokensFrom, if_neg (by rw [hspace]; decide), hsign]

theorem tokensFrom_integer {digits rest : Text} (hd : isNumeral digits = true)
    (hend : startsInWord rest = false) (pos : Position) :
    tokensFrom pos (digits ++ rest) =
      (tokensFrom (pos.along digits.length) rest).cons ⟨.integer, digits, pos⟩ := by
  cases digits with
  | nil => cases hd
  | cons b run =>
    obtain ⟨hb, hrun⟩ : isDigit b = true ∧ run.all isDigit = true := by
      simpa [isNumeral] using hd
    have hw := isWordByte_of_isDigit hb
    obtain ⟨htake, hdrop⟩ := takeWhile_run hrun (fun _ => isWordByte_of_isDigit) hend
    rw [List.cons_append, tokensFrom, if_neg (by rw [isSpace_of_isWordByte hw]; decide),
      sign?_of_isWordByte hw]
    simp only [hb, htake, hdrop, hend, if_true, Bool.false_eq_true, if_false]

theorem tokensFrom_word {w rest : Text} (hw : isWord w = true)
    (hend : startsInWord rest = false) (pos : Position) :
    tokensFrom pos (w ++ rest) =
      (tokensFrom (pos.along w.length) rest).cons ⟨.word, w, pos⟩ := by
  cases w with
  | nil => cases hw
  | cons b run =>
    obtain ⟨hb, hrun⟩ := Bool.and_eq_true_iff.1 ((isWord_cons b run).symm.trans hw)
    have hb' := isWordByte_of_isLetter hb
    obtain ⟨htake, hdrop⟩ := takeWhile_run hrun (fun _ h => h) hend
    rw [List.cons_append, tokensFrom, if_neg (by rw [isSpace_of_isWordByte hb']; decide),
      sign?_of_isWordByte hb']
    simp only [hb, isDigit_of_isLetter hb, htake, hdrop, if_true, Bool.false_eq_true, if_false]

/-! ## The tokens of a source -/

/-- The texts that `Lexes` gives to a sequence of tokens are cut into it, from any place on. -/
theorem Lexes.tokensFrom {src : Text} {ls : List Lexeme} (h : Lexes src ls) (pos : Position) :
    ∃ stop, (tokensFrom pos src).ending = .endOfInput stop ∧
      (tokensFrom pos src).list.map Token.lexeme = ls := by
  induction h generalizing pos with
  | nil => exact ⟨pos, by rw [tokensFrom_nil], by rw [tokensFrom_nil]; rfl⟩
  | blank hb _ ih =>
    rw [tokensFrom_blank (isSpace_iff.2 hb)]
    exact ih _
  | sign hs _ ih =>
    rw [tokensFrom_sign hs]
    obtain ⟨stop, hending, hlist⟩ := ih (pos.along 1)
    exact ⟨stop, hending, congrArg _ hlist⟩
  | @integer digits _ _ hd hend _ ih =>
    rw [tokensFrom_integer hd hend]
    obtain ⟨stop, hending, hlist⟩ := ih (pos.along digits.length)
    exact ⟨stop, hending, congrArg _ hlist⟩
  | @word w _ _ hw hend _ ih =>
    rw [tokensFrom_word hw hend]
    obtain ⟨stop, hending, hlist⟩ := ih (pos.along w.length)
    exact ⟨stop, hending, congrArg _ hlist⟩

/-- A run stops before a byte that does not belong to it. -/
theorem not_of_dropWhile {p : UInt8 → Bool} {rest later : Text} {b : UInt8} (h : rest.dropWhile p = b :: later) :
    p b = false := by
  have hne : rest.dropWhile p ≠ [] := by rw [h]; exact List.cons_ne_nil _ _
  have hb := List.head_dropWhile_not p hne
  simp only [h, List.head_cons] at hb
  exact hb

theorem startsInWord_dropWhile (rest : Text) : startsInWord (rest.dropWhile isWordByte) = false := by
  cases h : rest.dropWhile isWordByte with
  | nil => rfl
  | cons b later => exact not_of_dropWhile h

theorem lexes_of_tokensFrom {pos stop : Position} {src : Text}
    (h : (tokensFrom pos src).ending = .endOfInput stop) :
    Lexes src ((tokensFrom pos src).list.map Token.lexeme) := by
  fun_induction tokensFrom pos src with
  | case1 => exact .nil
  | case2 pos b rest hspace ih => exact .blank (isSpace_iff.1 hspace) (ih h)
  | case3 pos b rest hspace kind hsign ih => exact .sign (sign?_eq_some.1 hsign) (ih h)
  | case4 => cases h
  | case5 pos b rest hspace hsign hb digits later next hend ih =>
    -- the run of digits is the longest there is, and `hend` says that no letter follows it
    have hd : isNumeral digits = true := by
      simp [digits, isNumeral, hb]
    have hsrc : b :: rest = digits ++ later := by
      simp only [digits, later, List.cons_append, List.takeWhile_append_dropWhile]
    rw [hsrc]
    exact .integer hd (Bool.eq_false_iff.2 hend) (ih h)
  | case6 pos b rest hspace hsign hb hletter w later ih =>
    have hw : isWord w = true := by
      simp [w, isWord_cons, hletter]
    have hsrc : b :: rest = w ++ later := by
      simp only [w, later, List.cons_append, List.takeWhile_append_dropWhile]
    rw [hsrc]
    exact .word hw (startsInWord_dropWhile rest) (ih h)
  | case7 => cases h

/-- A source has tokens to its end exactly when it is cut into them. -/
theorem lexes_iff {src : Text} {ls : List Lexeme} :
    Lexes src ls ↔
      ∃ stop, (tokens src).ending = .endOfInput stop ∧
        (tokens src).list.map Token.lexeme = ls := by
  constructor
  · intro h
    exact h.tokensFrom .start
  · rintro ⟨stop, hending, rfl⟩
    exact lexes_of_tokensFrom hending

theorem Lexes.unique {src : Text} {ls ls' : List Lexeme} (h : Lexes src ls)
    (h' : Lexes src ls') : ls = ls' := by
  obtain ⟨_, -, hlist⟩ := lexes_iff.1 h
  obtain ⟨_, -, hlist'⟩ := lexes_iff.1 h'
  exact hlist.symm.trans hlist'

end LetIf.Source
