/-
Any layout of the same tokens means the same. A sequence of tokens, each as it is spelled, is laid out with
blanks and comments between them, as long as no atom is led on; two texts that lay out the same
sequence are read as the same module, or fail with the same problem. On every text reading ends with a
valid module or with an error inside the text.
-/
import LetIf.Proofs.Wat.Moving

namespace LetIf.Wat

open Text

/-! ## Spelled tokens -/

/-- What can stand between the quotes of a string: a quote only behind a backslash, and a backslash only
before a byte. What the backslash and the bytes behind it mean, if anything, is another matter. -/
def isStringBody : Text → Bool
  | [] => true
  | c :: rest =>
    if c == byte '\\' then
      match rest with
      | [] => false
      | _ :: rest => isStringBody rest
    else c != byte '"' && isStringBody rest

/-- A token as it is spelled. -/
inductive Spelling where
  | opening
  | closing
  | string (body : Text) (h : isStringBody body = true)
  | atom (text : Text) (h : isAtom text = true)

namespace Spelling

def text : Spelling → Text
  | .opening => [byte '(']
  | .closing => [byte ')']
  | .string body _ => byte '"' :: (body ++ [byte '"'])
  | .atom text _ => text

/-- Whether a text may stand behind the token: an atom goes on with whatever does not end it, be it another
atom or a comment. -/
def mayPrecede : Spelling → Text → Bool
  | .atom _ _, t => stopsAtom t
  | _, _ => true

end Spelling

/-- The text lays out the tokens, with blanks and comments between them and around them. A separator behind
an atom starts with a blank, and between two atoms there is one. -/
inductive Layout : List Spelling → Text → Prop
  | nil : Layout [] []
  | blank {ss : List Spelling} {t : Text} {b : UInt8} (hb : isSpace b = true) (h : Layout ss t) :
    Layout ss (b :: t)
  | comment {ss : List Spelling} {t c : Text} (hc : (10 : UInt8) ∉ c) (h : Layout ss t) :
    Layout ss (byte ';' :: byte ';' :: (c ++ 10 :: t))
  | token {ss : List Spelling} {t : Text} (s : Spelling) (hs : s.mayPrecede t = true) (h : Layout ss t) :
    Layout (s :: ss) (s.text ++ t)

/-! ## Strings -/

theorem isStringBody_plain {b : UInt8} {rest : Text} (hb : b ≠ byte '\\')
    (h : isStringBody (b :: rest) = true) : b ≠ byte '"' ∧ isStringBody rest = true := by
  rw [isStringBody.eq_def] at h
  simp only at h
  rw [if_neg (by simpa using hb), Bool.and_eq_true, bne_iff_ne] at h
  exact h

theorem ne_backslash_of_hex {b : UInt8} {y : Nat} (hb : hexValue? b = some y) : b ≠ byte '\\' := by
  rintro rfl
  cases hb

/-- Two runs over the same string stay side by side, wherever it stands and whatever follows it. -/
theorem string_alike (rest rest' : Text) (start start' : Nat) (body : Text) (h : isStringBody body = true)
    (off off' : Nat) :
    Alike (fun e e' => e.problem = e'.problem)
      (fun r r' => r.result.1 = r'.result.1 ∧ r.rest = rest ∧ r'.rest = rest')
      (string start off (body ++ byte '"' :: rest)) (string start' off' (body ++ byte '"' :: rest')) := by
  -- an escape takes three bytes at once
  induction hn : body.length using Nat.strongRecOn generalizing body off off' with
  | ind n ih => ?_
  subst hn
  rcases body with _ | ⟨c, body⟩
  · rw [List.nil_append, List.nil_append, string_quote, string_quote]
    exact .ok ⟨rfl, rfl, rfl⟩
  by_cases hc : c = byte '\\'
  · subst hc
    rcases body with _ | ⟨d, _ | ⟨e, body⟩⟩
    · cases h
    · -- the quote is taken for the second digit, and is none
      have hinvalid : hexValue? d = none ∨ hexValue? (byte '"') = none := .inr rfl
      simp only [List.cons_append, List.nil_append, string_invalid hinvalid]
      exact .error rfl
    simp only [List.cons_append]
    cases hd : hexValue? d with
    | none =>
      rw [string_invalid (.inl hd), string_invalid (.inl hd)]
      exact .error rfl
    | some x =>
      cases he : hexValue? e with
      | none =>
        rw [string_invalid (.inr he), string_invalid (.inr he)]
        exact .error rfl
      | some y =>
        have hbody := (isStringBody_plain (ne_backslash_of_hex he) h).2
        rw [string_escape hd he, string_escape hd he]
        refine (ih _ (by simp only [List.length_cons]; omega) body hbody (off + 3) (off' + 3) rfl).map ?_
        rintro r r' ⟨hbytes, hrest, hrest'⟩
        exact ⟨congrArg ((x * 16 + y).toUInt8 :: ·) hbytes, hrest, hrest'⟩
  · obtain ⟨hq, hbody⟩ := isStringBody_plain hc h
    rw [List.cons_append, List.cons_append, string_plain hq hc, string_plain hq hc]
    refine (ih _ (Nat.lt_succ_self _) body hbody (off + 1) (off' + 1) rfl).map ?_
    rintro r r' ⟨hbytes, hrest, hrest'⟩
    exact ⟨congrArg (c :: ·) hbytes, hrest, hrest'⟩

/-! ## Layouts -/

/-- Tokens without their places. -/
def Tokens.shape (ts : Tokens) : Tokens := ts.move fun _ => 0

theorem Tokens.shape_cons (t : Token) (ts : Tokens) : (ts.cons t).shape = ts.shape.cons ⟨t.form, 0⟩ := rfl

/-- A spelled token gives the same token before whatever may follow it. -/
theorem Spelling.shape_eq {rest rest' : Text}
    (h : ∀ off off', (tokensFrom off rest).shape = (tokensFrom off' rest').shape) :
    ∀ (s : Spelling), s.mayPrecede rest = true → s.mayPrecede rest' = true → ∀ off off',
      (tokensFrom off (s.text ++ rest)).shape = (tokensFrom off' (s.text ++ rest')).shape
  | .opening, _, _, off, off' => by
    simp only [text, List.cons_append, List.nil_append, tokensFrom_opening, Tokens.shape_cons]
    rw [h]
  | .closing, _, _, off, off' => by
    simp only [text, List.cons_append, List.nil_append, tokensFrom_closing, Tokens.shape_cons]
    rw [h]
  | .atom t ht, hs, hs', off, off' => by
    simp only [text, tokensFrom_atom ht hs, tokensFrom_atom ht hs', Tokens.shape_cons]
    rw [h]
  | .string body hbody, _, _, off, off' => by
    simp only [text, List.cons_append, List.nil_append, List.append_assoc]
    have halike := string_alike rest rest' off off' body hbody (off + 1) (off' + 1)
    generalize hread : Wat.string off (off + 1) (body ++ byte '"' :: rest) = x at halike
    generalize hread' : Wat.string off' (off' + 1) (body ++ byte '"' :: rest') = x' at halike
    cases halike with
    | ok hr =>
      obtain ⟨hbytes, hrest, hrest'⟩ := hr
      rw [tokensFrom_quote hread, tokensFrom_quote hread', Tokens.shape_cons, Tokens.shape_cons, hrest, hrest',
        hbytes, h]
    | error he =>
      rw [tokensFrom_fault hread, tokensFrom_fault hread']
      simp only [Tokens.shape, Tokens.move, Ending.move, ParseError.move, he, List.map_nil]

/-- Behind the blanks and comments at the front of a layout stands its first token. -/
theorem Layout.exists_of_cons {s : Spelling} {ss : List Spelling} {t : Text} (h : Layout (s :: ss) t) (off : Nat) :
    ∃ off' rest, Layout ss rest ∧ s.mayPrecede rest = true ∧ tokensFrom off t = tokensFrom off' (s.text ++ rest) := by
  generalize hl : s :: ss = l at h
  induction h generalizing off with
  | nil => cases hl
  | blank hb h ih =>
    obtain ⟨off', rest, hrest, hs, htokens⟩ := ih (off + 1) hl
    exact ⟨off', rest, hrest, hs, (tokensFrom_blank hb).trans htokens⟩
  | @comment _ _ c hc h ih =>
    obtain ⟨off', rest, hrest, hs, htokens⟩ := ih (off + (c.length + 3)) hl
    exact ⟨off', rest, hrest, hs, (tokensFrom_comment hc).trans htokens⟩
  | @token _ t s hs h _ =>
    cases hl
    exact ⟨off, t, h, hs, rfl⟩

theorem Layout.exists_of_nil {t : Text} (h : Layout [] t) (off : Nat) :
    ∃ last, tokensFrom off t = ⟨[], .endOfInput last⟩ := by
  generalize hl : ([] : List Spelling) = l at h
  induction h generalizing off with
  | nil => exact ⟨off, by rw [tokensFrom]⟩
  | blank hb h ih =>
    obtain ⟨last, htokens⟩ := ih (off + 1) hl
    exact ⟨last, (tokensFrom_blank hb).trans htokens⟩
  | @comment _ _ c hc h ih =>
    obtain ⟨last, htokens⟩ := ih (off + (c.length + 3)) hl
    exact ⟨last, (tokensFrom_comment hc).trans htokens⟩
  | token s hs h _ => cases hl

theorem Layout.shape_eq : ∀ {ss : List Spelling} {a b : Text}, Layout ss a → Layout ss b → ∀ off off',
    (tokensFrom off a).shape = (tokensFrom off' b).shape
  | [], a, b, ha, hb, off, off' => by
    obtain ⟨_, ha⟩ := ha.exists_of_nil off
    obtain ⟨_, hb⟩ := hb.exists_of_nil off'
    rw [ha, hb]
    rfl
  | s :: ss, a, b, ha, hb, off, off' => by
    obtain ⟨_, resta, ha, hsa, htokensa⟩ := ha.exists_of_cons off
    obtain ⟨_, restb, hb, hsb, htokensb⟩ := hb.exists_of_cons off'
    rw [htokensa, htokensb]
    exact s.shape_eq (ha.shape_eq hb) hsa hsb _ _

/-! ## Modules -/

theorem moduleOf_shape (src : Text) :
    moduleOf (tokens src).shape = (parse src).mapError (ParseError.move fun _ => 0) :=
  moduleOf_move _ _

theorem Layout.parse_alike {ss : List Spelling} {a b : Text} (ha : Layout ss a) (hb : Layout ss b) :
    Alike (fun e e' => e.problem = e'.problem) Eq (parse a) (parse b) := by
  have h : (parse a).mapError (ParseError.move fun _ => 0) = (parse b).mapError (ParseError.move fun _ => 0) := by
    rw [← moduleOf_shape, ← moduleOf_shape, tokens, tokens, ha.shape_eq hb]
  cases hpa : parse a with
  | ok m =>
    rw [hpa] at h
    rw [mapError_eq_ok.1 h.symm]
    exact .ok rfl
  | error e =>
    rw [hpa] at h
    cases hpb : parse b with
    | ok n => rw [hpb] at h; cases h
    | error e' =>
      rw [hpb] at h
      have hmoved : e.move (fun _ => 0) = e'.move fun _ => 0 := Except.error.inj h
      have hproblem := congrArg ParseError.problem hmoved
      exact .error hproblem

/-- Layout has no meaning, and reading has no gaps. Two texts that lay out the same tokens are read as
the same module, or both fail with the same problem. Every text is read as a valid module or gives an error
of the format whose offset lies in the text or at its end. -/
theorem parse_layout_total :
    (∀ {ss : List Spelling} {a b : Text}, Layout ss a → Layout ss b →
      Alike (fun e e' => e.problem = e'.problem) Eq (parse a) (parse b)) ∧
    ∀ src, (∃ m, parse src = .ok m ∧ m.validate = .ok ()) ∨
      ∃ e, parse src = .error e ∧ e.offset ≤ src.length ∧ e.report.notice.kind = .codecError ∧
        ∃ sections, e.report.notice.sections = ⟨"Codec", "wat"⟩ :: ⟨"Offset", ofInt e.offset⟩ :: sections := by
  refine ⟨fun ha hb => ha.parse_alike hb, fun src => ?_⟩
  cases h : parse src with
  | ok m => exact .inl ⟨m, rfl, validate_of_parse h⟩
  | error e => exact .inr ⟨e, rfl, offset_le_of_parse h, rfl, _, rfl⟩

/-- A module that gives one, as tokens. Its name has a quote, two semicolons and a parenthesis. -/
def oneSpelling : List Spelling :=
  [.opening, .atom "module" (by decide), .opening, .atom "func" (by decide), .opening, .atom "export" (by decide),
    .string "\\22;;(" (by decide), .closing, .opening, .atom "result" (by decide), .atom "i32" (by decide),
    .closing, .opening, .atom "i32.const" (by decide), .atom "1" (by decide), .closing, .closing, .closing]

def tightText : Text := "(module(func(export\"\\22;;(\")(result i32)(i32.const 1)))"

def looseText : Text :=
  ";; (\n( module\t(func\r(export ;;\"\n\"\\22;;(\") ;;;\n(result\n\ni32 )(i32.const 1)) )\n;;)\n"

theorem layout_tightText : Layout oneSpelling tightText := by
  have hspace : isSpace 32 = true := rfl
  have h : Layout oneSpelling _ :=
    .token _ rfl (.token _ rfl (.token _ rfl (.token _ rfl (.token _ rfl (.token _ rfl (.token _ rfl
      (.token _ rfl (.token _ rfl (.token _ rfl (.blank hspace (.token _ rfl
      (.token _ rfl (.token _ rfl (.token _ rfl (.blank hspace (.token _ rfl
      (.token _ rfl (.token _ rfl (.token _ rfl .nil)))))))))))))))))))
  exact h

theorem layout_looseText : Layout oneSpelling looseText := by
  have hspace : isSpace 32 = true := rfl
  have htab : isSpace 9 = true := rfl
  have hreturn : isSpace 13 = true := rfl
  have hline : isSpace 10 = true := rfl
  have hopening : (10 : UInt8) ∉ ofString " (" := by decide
  have hquote : (10 : UInt8) ∉ ofString "\"" := by decide
  have hsemicolon : (10 : UInt8) ∉ ofString ";" := by decide
  have hclosing : (10 : UInt8) ∉ ofString ")" := by decide
  have h : Layout oneSpelling _ :=
    .comment hopening (.token _ rfl (.blank hspace (.token _ rfl (.blank htab (.token _ rfl (.token _ rfl
      (.blank hreturn (.token _ rfl (.token _ rfl (.blank hspace (.comment hquote (.token _ rfl
      (.token _ rfl (.blank hspace (.comment hsemicolon (.token _ rfl (.token _ rfl
      (.blank hline (.blank hline (.token _ rfl (.blank hspace (.token _ rfl
      (.token _ rfl (.token _ rfl (.blank hspace (.token _ rfl (.token _ rfl (.token _ rfl
      (.blank hspace (.token _ rfl (.blank hline (.comment hclosing .nil))))))))))))))))))))))))))))))))
  exact h

theorem parse_layout_oneSpelling :
    Layout oneSpelling tightText ∧ Layout oneSpelling looseText ∧ (parse tightText).isOk = true ∧
      Alike (fun e e' => e.problem = e'.problem) Eq (parse tightText) (parse looseText) :=
  ⟨layout_tightText, layout_looseText, by decide +kernel, parse_layout_total.1 layout_tightText layout_looseText⟩

end LetIf.Wat
