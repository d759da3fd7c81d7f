/-
Offsets are only carried along. Whatever function moves the offsets of the tokens, what is read from them
is the same module, or the same problem at the offset the function moves it to. So a module or a problem
depends on the forms of the tokens alone, and an error points at a token or at the end of the text.
-/
import LetIf.Proofs.Except
import LetIf.Proofs.Wat.Lexing
import LetIf.Proofs.Wat.Tree
import LetIf.Wat.Module

namespace LetIf.Wat

open Text

/-! ## Moving offsets -/

def ParseError.move (f : Nat → Nat) (e : ParseError) : ParseError := ⟨e.problem, f e.offset⟩

def Token.move (f : Nat → Nat) (t : Token) : Token := ⟨t.form, f t.offset⟩

def Ending.move (f : Nat → Nat) : Ending → Ending
  | .endOfInput off => .endOfInput (f off)
  | .fault start e => .fault (f start) (e.move f)

def Tokens.move (f : Nat → Nat) (ts : Tokens) : Tokens := ⟨ts.list.map (Token.move f), ts.ending.move f⟩

/-- The same result, up to `R`, or the same error with its offset moved. -/
abbrev Moves (f : Nat → Nat) {α α' : Type} (R : α → α' → Prop) :
    Except ParseError α → Except ParseError α' → Prop :=
  Alike (fun e e' => e' = e.move f) R

namespace Sexp

mutual

def move (f : Nat → Nat) : Sexp → Sexp
  | .atom o t => .atom (f o) t
  | .string o t => .string (f o) t
  | .list o items => .list (f o) (moveAll f items)

def moveAll (f : Nat → Nat) : List Sexp → List Sexp
  | [] => []
  | s :: rest => s.move f :: moveAll f rest

end

attribute [local simp] move moveAll

def Open.move (f : Nat → Nat) (o : Open) : Open := ⟨f o.offset, moveAll f o.items⟩

section Parts

variable (f : Nat → Nat) (s : Sexp)

theorem moveAll_eq_map : ∀ ss : List Sexp, moveAll f ss = ss.map (move f)
  | [] => by rw [moveAll, List.map_nil]
  | s :: ss => by rw [moveAll, moveAll_eq_map ss, List.map_cons]

@[simp] theorem offset_move : (s.move f).offset = f s.offset := by
  cases s <;> rw [move] <;> rfl

@[simp] theorem word?_move : (s.move f).word? = s.word? := by
  cases s <;> rw [move] <;> rfl

@[simp] theorem head_move : (s.move f).head = s.head := by
  cases s with
  | atom _ _ | string _ _ => rw [move]; rfl
  | list o items =>
    rw [move]
    cases items with
    | nil => rw [moveAll]; rfl
    | cons s _ => rw [moveAll]; cases s <;> rw [move] <;> rfl

@[simp] theorem arguments_move : (s.move f).arguments = moveAll f s.arguments := by
  cases s with
  | atom _ _ | string _ _ => rw [move]; rfl
  | list o items =>
    rw [move]
    cases items with
    | nil => rw [moveAll]; rfl
    | cons s _ => rw [moveAll]; rfl

end Parts

/-! ## S-expressions -/

section Reading

variable (f : Nat → Nat)

theorem read_move (ending : Ending) : ∀ (ts : List Token) (opened : List Open),
    Moves f (fun r r' => r' = (r.1.move f, r.2.map (Token.move f))) (read ending opened ts)
      (read (ending.move f) (opened.map (Open.move f)) (ts.map (Token.move f)))
  | [], opened => by
    cases ending with
    | fault _ _ => cases opened <;> exact .error rfl
    | endOfInput _ => cases opened <;> exact .error rfl
  | ⟨form, off⟩ :: rest, opened => by
    have hresume (s : Sexp) (opened : List Open) :
        Moves f (fun r r' => r' = (r.1.move f, r.2.map (Token.move f))) (resume ending s opened rest)
          (resume (ending.move f) (s.move f) (opened.map (Open.move f)) (rest.map (Token.move f))) := by
      cases opened with
      | nil => exact .ok rfl
      | cons inner outer => exact read_move ending rest (⟨inner.offset, s :: inner.items⟩ :: outer)
    cases form with
    | opening => exact read_move ending rest (⟨off, []⟩ :: opened)
    | closing =>
      cases opened with
      | nil => exact .error rfl
      | cons inner outer =>
        have h := hresume (.list inner.offset inner.items.reverse) outer
        rw [move, moveAll_eq_map, List.map_reverse, ← moveAll_eq_map] at h
        exact h
    | string bytes =>
      have h := hresume (.string off bytes) opened
      rw [move] at h
      exact h
    | atom text =>
      have h := hresume (.atom off text) opened
      rw [move] at h
      exact h

theorem ofTokens_move (ts : Tokens) : Moves f (fun s s' => s' = s.move f) (ofTokens ts) (ofTokens (ts.move f)) := by
  refine (read_move f ts.ending ts.list []).bind ?_
  rintro ⟨s, rest⟩ _ rfl
  cases rest with
  | nil =>
    obtain ⟨_, ending⟩ := ts
    cases ending with
    | endOfInput _ => exact .ok rfl
    | fault _ _ => exact .error rfl
  | cons t rest => exact .error rfl

end Reading

end Sexp

/-! ## Clauses and operands -/

section Module

variable (f : Nat → Nat)

theorem clause?_move (head : Text) (s : Sexp) : clause? head (s.move f) = (clause? head s).map (Sexp.move f) := by
  rw [clause?, clause?, Sexp.head_move, Sexp.arguments_move]
  cases s.head == head with
  | false => rfl
  | true =>
    match s.arguments with
    | [] => rfl
    | [_] => rfl
    | _ :: _ :: _ => rfl

theorem isResult_move (s : Sexp) : isResult (s.move f) = isResult s := by
  rw [isResult, isResult, clause?_move]
  cases clause? "result" s with
  | none => rfl
  | some a => simp

theorem exportName?_move (s : Sexp) : exportName? (s.move f) = exportName? s := by
  rw [exportName?, exportName?, clause?_move]
  cases clause? "export" s with
  | none => rfl
  | some a => cases a <;> rfl

/-- An operand that is one word, which `read` gives the value of. -/
def operand {α : Type} (read : Text → Option α) (bad : Text → Problem) (form : Problem) (s : Sexp) :
    Except ParseError α :=
  match s.arguments with
  | [.atom o t] | [.string o t] =>
    match read t with
    | some a => .ok a
    | none => .error ⟨bad t, o⟩
  | _ => .error ⟨form, s.offset⟩

theorem slotOperand_eq (s : Sexp) : slotOperand s = operand slot? .invalidSlot (.slotForm s.head) s := by
  unfold slotOperand operand
  match s.arguments with
  | [.atom _ t] | [.string _ t] => cases h : slot? t <;> simp only [h]
  | [] => rfl
  | .list _ _ :: _ | .atom _ _ :: _ :: _ | .string _ _ :: _ :: _ => rfl

theorem constOperand_eq (s : Sexp) : constOperand s = operand i32? .invalidConst .constForm s := by
  unfold constOperand operand
  match s.arguments with
  | [.atom _ t] | [.string _ t] => cases h : i32? t <;> simp only [h]
  | [] => rfl
  | .list _ _ :: _ | .atom _ _ :: _ :: _ | .string _ _ :: _ :: _ => rfl

theorem operand_move {α : Type} (read : Text → Option α) (bad : Text → Problem) (form : Problem) (s : Sexp) :
    Moves f Eq (operand read bad form s) (operand read bad form (s.move f)) := by
  rw [operand, operand, Sexp.arguments_move, Sexp.offset_move]
  match s.arguments with
  | [] | .list _ _ :: _ | .atom _ _ :: _ :: _ | .string _ _ :: _ :: _ => exact .error rfl
  | [.atom o t] | [.string o t] =>
    simp only [Sexp.moveAll, Sexp.move]
    cases read t with
    | none => exact .error rfl
    | some _ => exact .ok rfl

/-! ## Instructions -/

/-- The code in the two arms of a conditional. -/
def arms? (s : Sexp) : Option (List Sexp × List Sexp) :=
  match s.arguments with
  | [result, yes, no] =>
    if isResult result && yes.head == "then" && no.head == "else" then some (yes.arguments, no.arguments)
    else none
  | _ => none

theorem exists_of_head {s : Sexp} {t : Text} (h : s.head = t) (ht : t ≠ []) :
    ∃ o o₁, s = .list o (.atom o₁ t :: s.arguments) := by
  cases s with
  | atom _ _ | string _ _ => exact absurd h.symm ht
  | list o items =>
    cases items with
    | nil => exact absurd h.symm ht
    | cons s rest =>
      cases s with
      | atom o₁ _ => cases h; exact ⟨o, o₁, rfl⟩
      | string _ _ | list _ _ => exact absurd h.symm ht

theorem arms?_eq_some {s : Sexp} {yes no : List Sexp} (h : arms? s = some (yes, no)) :
    ∃ result o₁ o₂ o₃ o₄, isResult result = true ∧
      s.arguments = [result, .list o₁ (.atom o₂ "then" :: yes), .list o₃ (.atom o₄ "else" :: no)] := by
  unfold arms? at h
  split at h
  · rename_i result y n hargs
    split at h
    · rename_i hheads
      rw [Bool.and_eq_true, Bool.and_eq_true, beq_iff_eq, beq_iff_eq] at hheads
      obtain ⟨⟨hresult, hy⟩, hn⟩ := hheads
      obtain ⟨o₁, o₂, hy⟩ := exists_of_head hy (by decide)
      obtain ⟨o₃, o₄, hn⟩ := exists_of_head hn (by decide)
      cases h
      exact ⟨result, o₁, o₂, o₃, o₄, hresult, by rw [hargs, ← hy, ← hn]⟩
    · cases h
  · cases h

theorem instr_of_arms {s : Sexp} {yes no : List Sexp} (hs : s.head = ofString "if")
    (h : arms? s = some (yes, no)) :
    instr s = instrs yes >>= fun yes => instrs no >>= fun no => pure (.branch yes no) := by
  obtain ⟨result, o₁, o₂, o₃, o₄, hresult, hargs⟩ := arms?_eq_some h
  obtain ⟨o, o', hlist⟩ := exists_of_head hs (by decide)
  rw [hargs] at hlist
  unfold instr
  rw [hs, if_neg (by decide), if_neg (by decide), if_neg (by decide), if_neg (by decide), if_pos (by decide),
    hlist]
  simp only [hresult]
  rfl

theorem instr_of_no_arms {s : Sexp} (hs : s.head = ofString "if") (h : arms? s = none) :
    instr s = .error ⟨.ifForm, s.offset⟩ := by
  unfold instr
  rw [hs, if_neg (by decide), if_neg (by decide), if_neg (by decide), if_neg (by decide), if_pos (by decide)]
  split
  · rename_i o front result o₁ o₂ y yes o₃ o₄ n no
    split
    · rename_i hheads
      have harms : arms? (.list o [front, result, .list o₁ (.atom o₂ y :: yes), .list o₃ (.atom o₄ n :: no)]) =
        some (yes, no) := if_pos hheads
      rw [harms] at h
      cases h
    · rfl
  · rfl

theorem arms?_move (s : Sexp) :
    arms? (s.move f) = (arms? s).map fun a => (Sexp.moveAll f a.1, Sexp.moveAll f a.2) := by
  unfold arms?
  rw [Sexp.arguments_move]
  match s.arguments with
  | [] | [_] | [_, _] | _ :: _ :: _ :: _ :: _ => rfl
  | [result, yes, no] =>
    simp only [Sexp.moveAll, isResult_move, Sexp.head_move, Sexp.arguments_move]
    split <;> rfl

theorem sizeOf_arms {s : Sexp} {yes no : List Sexp} (hs : s.head = ofString "if")
    (h : arms? s = some (yes, no)) : sizeOf yes < sizeOf s ∧ sizeOf no < sizeOf s := by
  obtain ⟨result, o₁, o₂, o₃, o₄, -, hargs⟩ := arms?_eq_some h
  obtain ⟨o, o', hlist⟩ := exists_of_head hs (by decide)
  rw [hargs] at hlist
  rw [hlist]
  simp only [Sexp.list.sizeOf_spec, List.cons.sizeOf_spec]
  omega

mutual

theorem instr_move (s : Sexp) : Moves f Eq (instr s) (instr (s.move f)) := by
  by_cases hif : s.head = ofString "if"
  · have hif' : (s.move f).head = ofString "if" := by rw [Sexp.head_move, hif]
    have harms := arms?_move f s
    cases h : arms? s with
    | none =>
      rw [h] at harms
      rw [instr_of_no_arms hif h, instr_of_no_arms hif' harms]
      exact .error (by rw [Sexp.offset_move]; rfl)
    | some arms =>
      obtain ⟨yes, no⟩ := arms
      rw [h] at harms
      rw [instr_of_arms hif h, instr_of_arms hif' harms]
      obtain ⟨hyes, hno⟩ := sizeOf_arms hif h
      refine (instrs_move yes).bind ?_
      rintro is _ rfl
      refine (instrs_move no).bind ?_
      rintro js _ rfl
      exact .ok rfl
  · have hif' : ¬ (s.head == ofString "if") = true := by rwa [beq_iff_eq]
    unfold instr
    rw [Sexp.head_move, Sexp.arguments_move, Sexp.offset_move, if_neg hif', if_neg hif', constOperand_eq,
      constOperand_eq, slotOperand_eq, slotOperand_eq, Sexp.head_move]
    refine .ite ((operand_move f _ _ _ s).map ?_) (.ite ?_ (.ite ((operand_move f _ _ _ s).map ?_)
      (.ite ((operand_move f _ _ _ s).map ?_) (.error rfl))))
    · rintro n _ rfl
      rfl
    · cases s.arguments with
      | nil => rw [Sexp.moveAll]; exact .ok rfl
      | cons _ _ => rw [Sexp.moveAll]; exact .error rfl
    · rintro i _ rfl
      rfl
    · rintro i _ rfl
      rfl
termination_by sizeOf s

theorem instrs_move (ss : List Sexp) : Moves f Eq (instrs ss) (instrs (Sexp.moveAll f ss)) := by
  match ss with
  | [] => rw [Sexp.moveAll]; exact .ok rfl
  | s :: ss =>
    rw [Sexp.moveAll, instrs, instrs]
    refine (instr_move s).bind ?_
    rintro i _ rfl
    refine (instrs_move ss).bind ?_
    rintro is _ rfl
    exact .ok rfl
termination_by sizeOf ss

end

/-! ## Functions -/

theorem countLocals_move : ∀ (ss : List Sexp) (n : UInt32),
    Moves f Eq (countLocals n ss) (countLocals n (Sexp.moveAll f ss))
  | [], n => by rw [Sexp.moveAll]; exact .ok rfl
  | s :: ss, n => by
    rw [Sexp.moveAll, countLocals, countLocals, Sexp.word?_move, Sexp.offset_move]
    exact .ite (countLocals_move ss (n + 1)) (.error rfl)

theorem localDecls_move : ∀ (ss : List Sexp) (n : UInt32),
    Moves f (fun r r' => r' = (r.1, Sexp.moveAll f r.2)) (localDecls n ss)
      (localDecls n (Sexp.moveAll f ss))
  | [], n => by rw [Sexp.moveAll]; exact .ok (by rw [Sexp.moveAll])
  | s :: ss, n => by
    rw [Sexp.moveAll, localDecls, localDecls, Sexp.head_move, Sexp.arguments_move]
    refine .ite ?_ (.ok (by rw [Sexp.moveAll]))
    refine (countLocals_move f s.arguments n).bind ?_
    rintro k _ rfl
    exact localDecls_move ss k

theorem dropId_move (ss : List Sexp) : dropId (Sexp.moveAll f ss) = Sexp.moveAll f (dropId ss) := by
  match ss with
  | [] => rw [Sexp.moveAll]; rfl
  | .string _ _ :: ss | .list _ _ :: ss => rw [Sexp.moveAll, Sexp.move]; rfl
  | .atom o t :: ss =>
    rw [Sexp.moveAll, Sexp.move, dropId, dropId]
    split
    · rfl
    · rw [Sexp.moveAll, Sexp.move]

theorem func_move (s : Sexp) : Moves f Eq (func s) (func (s.move f)) := by
  unfold func
  rw [Sexp.head_move, Sexp.arguments_move, Sexp.offset_move, dropId_move]
  refine .ite_throw Iff.rfl rfl ?_
  cases dropId s.arguments with
  | nil => rw [Sexp.moveAll]; exact .error rfl
  | cons e rest =>
    rw [Sexp.moveAll]
    simp only [exportName?_move]
    cases exportName? e with
    | none => exact .error rfl
    | some name =>
      cases rest with
      | nil => rw [Sexp.moveAll]; exact .error rfl
      | cons r rest =>
        rw [Sexp.moveAll]
        simp only [pure_bind, isResult_move]
        refine .ite ?_ (.error rfl)
        refine (localDecls_move f rest 0).bind ?_
        rintro ⟨locals, rest⟩ _ rfl
        refine (instrs_move f rest).bind ?_
        rintro body _ rfl
        exact .ok rfl

/-! ## Modules -/

/-- The valid module that the tokens spell. -/
def moduleOf (ts : Tokens) : Except ParseError Module := do
  let top ← Sexp.ofTokens ts
  match clause? "module" top with
  | none => throw ⟨.noModule, top.offset⟩
  | some f =>
    let m ← func f
    match m.validate with
    | .error e => throw ⟨.invalid e, top.offset⟩
    | .ok () => return m

theorem parse_eq (src : Text) : parse src = moduleOf (tokens src) := rfl

/-- Offsets are only reported: reading commutes with any function on them. -/
theorem moduleOf_move (ts : Tokens) : moduleOf (ts.move f) = (moduleOf ts).mapError (ParseError.move f) := by
  refine Alike.eq_mapError_of_eq ((Sexp.ofTokens_move f ts).bind ?_)
  rintro top _ rfl
  rw [clause?_move, Sexp.offset_move]
  cases clause? "module" top with
  | none => exact .error rfl
  | some s =>
    refine (func_move f s).bind ?_
    rintro m _ rfl
    cases m.validate with
    | error e => exact .error rfl
    | ok _ => exact .ok rfl

end Module

/-! ## Bounds -/

theorem offset_le_of_string {start off : Nat} {src : Text} {e : ParseError} (hs : start ≤ off)
    (h : string start off src = .error e) : e.offset ≤ off + src.length := by
  fun_induction string start off src with
  | case1 off => cases h; exact Nat.le_add_right_of_le hs
  | case2 off c rest hq => cases h
  | case3 off c hq hb a b rest x y hy hx ih =>
    have hle := ih (by omega) (map_eq_error.1 h)
    simp only [List.length_cons]
    omega
  | case4 off c hq hb a b rest hno => cases h; simp
  | case5 off c rest hq hb hno => cases h; simp
  | case6 off c rest hq hb ih =>
    have hle := ih (by omega) (map_eq_error.1 h)
    simp only [List.length_cons]
    omega

theorem end_of_string {start off : Nat} {src : Text} {r : Read (Text × Nat) src}
    (h : string start off src = .ok r) : r.result.2 + r.rest.length = off + src.length := by
  fun_induction string start off src with
  | case1 off => cases h
  | case2 off c rest hq => cases h; simp only [List.length_cons]; omega
  | case3 off c hq hb a b rest x y hy hx ih =>
    obtain ⟨r', hr', rfl⟩ := map_eq_ok.1 h
    have hend := ih hr'
    simp only [List.length_cons]
    omega
  | case4 off c hq hb a b rest hno => cases h
  | case5 off c rest hq hb hno => cases h
  | case6 off c rest hq hb ih =>
    obtain ⟨r', hr', rfl⟩ := map_eq_ok.1 h
    have hend := ih hr'
    simp only [List.length_cons]
    omega

theorem Tokens.move_cons (f : Nat → Nat) (t : Token) (ts : Tokens) :
    (ts.cons t).move f = (ts.move f).cons (t.move f) := rfl

theorem Token.move_min {n off : Nat} (h : off ≤ n) (form : Token.Form) :
    Token.move (min · n) ⟨form, off⟩ = ⟨form, off⟩ := by
  rw [Token.move, Nat.min_eq_left h]

theorem length_takeWhile_add_dropWhile (p : UInt8 → Bool) (t : Text) :
    (t.takeWhile p).length + (t.dropWhile p).length = t.length := by
  rw [← List.length_append, List.takeWhile_append_dropWhile]

/-- No offset lies behind the end of the text, so cutting them off there changes none. -/
theorem tokensFrom_move_min {n off : Nat} {src : Text} (h : off + src.length ≤ n) :
    (tokensFrom off src).move (min · n) = tokensFrom off src := by
  fun_induction tokensFrom off src with
  | case1 off => simp only [Tokens.move, Ending.move, List.map_nil, Nat.min_eq_left (Nat.le_of_add_right_le h)]
  | case2 off c rest hspace ih =>
    rw [List.length_cons] at h
    exact ih (by omega)
  | case3 off c rest hspace hcomment skipped ih =>
    have hlength := length_takeWhile_add_dropWhile (· != 10) rest
    rw [List.length_cons] at h
    exact ih (by simp only [skipped]; omega)
  | case4 off c rest hspace hcomment hopening ih | case5 off c rest hspace hcomment hopening hclosing ih =>
    rw [List.length_cons] at h
    rw [Tokens.move_cons, ih (by omega), Token.move_min (by omega)]
  | case6 off c rest hspace hcomment hopening hclosing hquote e he =>
    have hle := offset_le_of_string (Nat.le_succ off) he
    rw [List.length_cons] at h
    simp only [Tokens.move, Ending.move, ParseError.move, List.map_nil]
    rw [Nat.min_eq_left (by omega), Nat.min_eq_left (by omega)]
  | case7 off c rest hspace hcomment hopening hclosing hquote bytes off' later shorter hs ih =>
    have hend := end_of_string hs
    rw [List.length_cons] at h
    simp only at hend
    rw [Tokens.move_cons, ih (by omega), Token.move_min (by omega)]
  | case8 off c rest hspace hcomment hopening hclosing hquote text ih =>
    have hlength := length_takeWhile_add_dropWhile (!endsAtom ·) rest
    rw [List.length_cons] at h
    rw [Tokens.move_cons, ih (by simp only [text, List.length_cons]; omega), Token.move_min (by omega)]

theorem offset_le_of_parse {src : Text} {e : ParseError} (h : parse src = .error e) :
    e.offset ≤ src.length := by
  have hmove := moduleOf_move (min · src.length) (tokens src)
  rw [tokens, tokensFrom_move_min (Nat.le_of_eq (Nat.zero_add _)), ← tokens, ← parse_eq, h] at hmove
  have hmin : e = e.move (min · src.length) := Except.error.inj hmove
  rw [hmin]
  exact Nat.min_le_right _ _

theorem validate_of_parse {src : Text} {m : Module} (h : parse src = .ok m) : m.validate = .ok () := by
  obtain ⟨top, -, h⟩ := bind_eq_ok.1 h
  cases hf : clause? "module" top with
  | none => rw [hf] at h; cases h
  | some f =>
    rw [hf] at h
    obtain ⟨n, -, h⟩ := bind_eq_ok.1 h
    cases hv : n.validate with
    | error e => simp only [hv] at h; cases h
    | ok _ => simp only [hv] at h; cases h; exact hv

end LetIf.Wat
