/-
What stands behind a module. The reader takes the one document at the start of a text, and whatever
follows makes no difference to it; only then is it looked at what does follow. Blanks do no harm, and
anything else is trailing data, with one exception: a closing bracket hides itself and everything behind
it, as the end of a list or an object that was never opened.
-/
import LetIf.Json.Module
import LetIf.Proofs.Code.Same
import LetIf.Proofs.Except
import LetIf.Proofs.Json.Documents
import Mathlib.Data.List.TakeWhile

namespace LetIf.Json

open Text

/-! ## The end of a document -/

section Steps

variable {d : Doc} {off : Nat} {stack : List Frame} {b : UInt8}

theorem ite_ne_before {p : Prop} [Decidable p] {x y : Progress} (hx : x ≠ .before d) (hy : y ≠ .before d) :
    (if p then x else y) ≠ .before d := by
  by_cases h : p
  · rwa [if_pos h]
  · rwa [if_neg h]

theorem accept_ne_before (d' : Doc) : ∀ stack : List Frame, accept d' stack ≠ .before d
  | [] | .list .. :: _ | .object .. :: _ => Progress.noConfusion

theorem close_ne_before : ∀ stack : List Frame, close b stack ≠ .before d
  | [] => Progress.noConfusion
  | .list .. :: _ | .object .. :: _ => ite_ne_before (accept_ne_before _ _) Progress.noConfusion

theorem startValue_ne_before : startValue off stack b ≠ .before d := by
  unfold startValue
  repeat' apply ite_ne_before
  all_goals exact Progress.noConfusion

theorem stepBetween_ne_before (off : Nat) {mode : Mode} : stepBetween off mode stack b ≠ .before d := by
  unfold stepBetween
  refine ite_ne_before Progress.noConfusion ?_
  split
  · exact startValue_ne_before
  · exact ite_ne_before (close_ne_before _) startValue_ne_before
  · exact ite_ne_before Progress.noConfusion (close_ne_before _)
  · exact ite_ne_before Progress.noConfusion Progress.noConfusion
  · exact ite_ne_before Progress.noConfusion Progress.noConfusion
  · exact ite_ne_before Progress.noConfusion (close_ne_before _)
  · exact ite_ne_before Progress.noConfusion (close_ne_before _)
  · exact Progress.noConfusion

theorem endString_ne_before {isKey : Bool} {parts : List Part} :
    endString off isKey parts stack ≠ .before d := by
  refine ite_ne_before ?_ (accept_ne_before _ _)
  split
  · exact Progress.noConfusion
  · exact Progress.noConfusion

theorem stepString_ne_before {isKey : Bool} {parts : List Part} {escape : Escape} :
    stepString off isKey parts escape stack b ≠ .before d := by
  cases escape with
  | none =>
    exact ite_ne_before endString_ne_before (ite_ne_before Progress.noConfusion
      (ite_ne_before Progress.noConfusion Progress.noConfusion))
  | started =>
    refine ite_ne_before Progress.noConfusion ?_
    split
    · exact Progress.noConfusion
    · exact Progress.noConfusion
  | hex start more value =>
    rw [stepString]
    split
    · exact Progress.noConfusion
    · exact ite_ne_before Progress.noConfusion Progress.noConfusion

/-- Only a number has no last byte of its own. -/
theorem exists_number_of_before {s : State} (h : step off s b = .before d) :
    ∃ literal, d = .number off literal := by
  obtain ⟨mode, stack⟩ := s
  cases mode with
  | string isKey parts escape => exact absurd h stepString_ne_before
  | number literal phase =>
    simp only [step, stepNumber] at h
    split at h
    · cases h
    · split at h
      · cases stack with
        | nil => cases h; exact ⟨_, rfl⟩
        | cons f outer =>
          rw [accept_cons] at h
          exact absurd h (stepBetween_ne_before off)
      · cases h
  | literal which left =>
    cases left with
    | nil => cases h
    | cons c left =>
      exact absurd h (ite_ne_before Progress.noConfusion
        (ite_ne_before (accept_ne_before _ _) Progress.noConfusion))
  | _ => exact absurd h (stepBetween_ne_before off)

end Steps

theorem exists_number_of_atEnd {d : Doc} {off : Nat} {s : State} (h : atEnd off s = .ok d) :
    ∃ literal, d = .number off literal := by
  unfold atEnd at h
  repeat' split at h
  all_goals first
    | (cases h; exact ⟨_, rfl⟩)
    | cases h

/-- A document that is no number is read up to its last byte, whatever stands behind it. -/
theorem exists_run_eq_ok {off : Nat} {s : State} {t : Text} {taken : Taken} (h : run off s t = .ok taken)
    (hnumber : ∀ mark literal, taken.doc ≠ .number mark literal) :
    ∃ doc, t = doc ++ taken.rest ∧
      ∀ rest, run off s (doc ++ rest) = .ok ⟨taken.doc, off + doc.length, rest⟩ := by
  induction t generalizing off s with
  | nil =>
    obtain ⟨d, hd, rfl⟩ : ∃ d, atEnd off s = .ok d ∧ (⟨d, off, []⟩ : Taken) = taken := by
      rw [run] at h
      cases hd : atEnd off s with
      | error e => rw [hd] at h; cases h
      | ok d => rw [hd] at h; cases h; exact ⟨d, rfl, rfl⟩
    obtain ⟨literal, hliteral⟩ := exists_number_of_atEnd hd
    exact absurd hliteral (hnumber off literal)
  | cons b t ih =>
    rw [run] at h
    cases hstep : step off s b with
    | more s' =>
      rw [hstep] at h
      obtain ⟨doc, rfl, hdoc⟩ := ih h
      refine ⟨b :: doc, rfl, fun rest => ?_⟩
      rw [List.cons_append, run_of_more hstep, hdoc, List.length_cons, Nat.add_assoc, Nat.add_comm 1]
    | done d =>
      rw [hstep] at h
      cases h
      refine ⟨[b], rfl, fun rest => ?_⟩
      rw [List.singleton_append, run, hstep]
      rfl
    | before d =>
      rw [hstep] at h
      cases h
      obtain ⟨literal, hliteral⟩ := exists_number_of_before hstep
      exact absurd hliteral (hnumber off literal)
    | bad | badLetter | badEscape start =>
      rw [hstep] at h
      cases h

/-! ## What follows a document -/

/-- A bracket that ends a list or an object. -/
def isClosing (b : UInt8) : Bool := b == byte ']' || b == byte '\x7d'

theorem checkTrailing_of_blank {off : Nat} {rest : Text} (h : rest.all isSpace = true) :
    checkTrailing off rest = .ok () := by
  rw [checkTrailing, List.dropWhile_eq_nil_iff.2 (List.all_eq_true.1 h)]

/-- A closing bracket is taken for the end of what is read, and any other byte is refused where it
stands. -/
theorem checkTrailing_of_not_blank {off : Nat} {blanks more : Text} {b : UInt8} (h : blanks.all isSpace = true)
    (hb : isSpace b = false) :
    checkTrailing off (blanks ++ b :: more) =
      if isClosing b then .ok () else .error ⟨.trailing, off + blanks.length⟩ := by
  have hall := List.all_eq_true.1 h
  rw [checkTrailing, List.takeWhile_append_of_pos hall, List.dropWhile_append_of_pos hall,
    List.takeWhile_cons_of_neg (by simp [hb]), List.dropWhile_cons_of_neg (by simp [hb]), List.append_nil]
  rfl

/-! ## Modules -/

/-- The module of the fields that were given, with the last two of the three passes. -/
def moduleOf (m : ModuleDraft) : Except DecodeError Module :=
  match m.name with
  | none => .error ⟨.noExport, 0⟩
  | some name => do
    let body ← instrsOf "body" 0 m.body.items
    let m : Module := ⟨name, m.locals, body⟩
    match m.validate with
    | .error e => throw ⟨.invalid e, 0⟩
    | .ok () => return m

theorem decode_eq (t : Text) :
    decode t = (do
      let taken ← (read t).mapError .ofFault
      let draft ← moduleDraft taken.doc
      checkTrailing taken.offset taken.rest
      moduleOf draft) :=
  rfl

theorem moduleDraft_number_ne_ok {mark : Nat} {literal : Text} {m : ModuleDraft} :
    moduleDraft (.number mark literal) ≠ .ok m := by
  intro h
  cases h

/-- An accepted text starts with a document that alone decides on the module; what follows decides
whether it is accepted, and nothing else. -/
theorem exists_decode_append {t : Text} {m : Module} (h : decode t = .ok m) :
    ∃ doc rest, t = doc ++ rest ∧
      ∀ rest, decode (doc ++ rest) = (checkTrailing doc.length rest).map fun _ => m := by
  obtain ⟨taken, htaken, h⟩ := bind_eq_ok.1 h
  obtain ⟨draft, hdraft, h⟩ := bind_eq_ok.1 h
  obtain ⟨-, -, hm⟩ := bind_eq_ok.1 h
  have hm : moduleOf draft = .ok m := hm
  have hnumber : ∀ mark literal, taken.doc ≠ .number mark literal := by
    intro mark literal hdoc
    rw [hdoc] at hdraft
    exact moduleDraft_number_ne_ok hdraft
  obtain ⟨doc, rfl, hdoc⟩ := exists_run_eq_ok (mapError_eq_ok.1 htaken) hnumber
  refine ⟨doc, taken.rest, rfl, fun rest => ?_⟩
  have hread : read (doc ++ rest) = .ok ⟨taken.doc, doc.length, rest⟩ := by
    rw [read, hdoc, Nat.zero_add]
  rw [decode_eq, hread]
  show (moduleDraft taken.doc >>= fun draft => checkTrailing doc.length rest >>= fun _ => moduleOf draft) = _
  rw [hdraft]
  show (checkTrailing doc.length rest >>= fun _ => moduleOf draft) = _
  rw [hm]
  cases checkTrailing doc.length rest <;> rfl

/-- What may stand behind a module. An accepted text is a document, which alone gives the same module,
and what stands behind that. Whatever is put behind the text, blanks behind the document leave it
accepted, and anything else is trailing data, reported where it starts, unless it starts with a closing
bracket: then the text is accepted, with everything that follows the bracket. -/
theorem decode_trailing {d : Text} {m : Module} (h : decode d = .ok m) :
    ∃ doc rest, d = doc ++ rest ∧ decode doc = .ok m ∧ ∀ t,
      ((rest ++ t).all isSpace = true → decode (d ++ t) = .ok m) ∧
      ∀ blanks b more, rest ++ t = blanks ++ b :: more → blanks.all isSpace = true → isSpace b = false →
        (isClosing b = true → decode (d ++ t) = .ok m) ∧
        (isClosing b = false → ∃ e, decode (d ++ t) = .error e ∧ e.problem = .trailing ∧
          e.report.notice.kind = .codecError ∧ (d ++ t).drop e.offset = b :: more) := by
  obtain ⟨doc, rest, rfl, hdoc⟩ := exists_decode_append h
  refine ⟨doc, rest, rfl, ?_, fun t => ⟨fun hblank => ?_, fun blanks b more hrest hblanks hb =>
    ⟨fun hclosing => ?_, fun hclosing => ?_⟩⟩⟩
  · rw [← List.append_nil doc, hdoc]
    rfl
  · rw [List.append_assoc, hdoc, checkTrailing_of_blank hblank]
    rfl
  · rw [List.append_assoc, hdoc, hrest, checkTrailing_of_not_blank hblanks hb, if_pos hclosing]
    rfl
  · refine ⟨⟨.trailing, doc.length + blanks.length⟩, ?_, rfl, rfl, ?_⟩
    · rw [List.append_assoc, hdoc, hrest, checkTrailing_of_not_blank hblanks hb, hclosing]
      rfl
    · rw [List.append_assoc, hrest, ← List.append_assoc, ← List.length_append, List.drop_left]

theorem decode_eq_ok_of_same {t : Text} {m : Module} (h : (decode t).toOption.any (·.same m) = true) :
    decode t = .ok m := by
  cases hread : decode t with
  | error e => rw [hread] at h; cases h
  | ok n => rw [hread] at h; rw [Module.eq_of_same h]

def oneModule : Module := ⟨"f", 0, [.const 1, .stop]⟩

/-- The module as a document, with a line end behind it. -/
def oneDocument : Text :=
  "\x7b\"export\":\"f\",\"body\":[\x7b\"op\":\"i32.const\",\"value\":1\x7d,\x7b\"op\":\"end\"\x7d]\x7d\n"

theorem decode_oneDocument : decode oneDocument = .ok oneModule := decode_eq_ok_of_same (by decide +kernel)

theorem decode_trailing_document :
    decode oneDocument = .ok oneModule ∧
      ∃ doc rest, oneDocument = doc ++ rest ∧ decode doc = .ok oneModule ∧ ∀ t,
        ((rest ++ t).all isSpace = true → decode (oneDocument ++ t) = .ok oneModule) ∧
        ∀ blanks b more, rest ++ t = blanks ++ b :: more → blanks.all isSpace = true → isSpace b = false →
          (isClosing b = true → decode (oneDocument ++ t) = .ok oneModule) ∧
          (isClosing b = false → ∃ e, decode (oneDocument ++ t) = .error e ∧ e.problem = .trailing ∧
            e.report.notice.kind = .codecError ∧ (oneDocument ++ t).drop e.offset = b :: more) :=
  ⟨decode_oneDocument, decode_trailing decode_oneDocument⟩

/-- Not all trailing data is refused: behind a bracket that closes nothing there may be anything. -/
theorem decode_trailing_bracket :
    decode oneDocument = .ok oneModule ∧ (∃ b ∈ ofString "\x7d oops", isSpace b = false) ∧
      decode (oneDocument ++ ofString "\x7d oops") = .ok oneModule :=
  ⟨decode_oneDocument, ⟨byte 'o', by decide, rfl⟩, decode_eq_ok_of_same (by decide +kernel)⟩

end LetIf.Json
