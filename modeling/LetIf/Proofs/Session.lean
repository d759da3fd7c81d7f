/-
Sessions as wholes. A line changes at most the strategy, and only when it names one; so after any lines the
strategy is the one named last, and the name of the export is the first one. Besides the commands about
modules and the strategy, what a line prints does not depend on the session; and on an engine that conforms
to the standard a source that is run gives the word of the value that it has as a line, whatever was
entered before.
-/
import LetIf.Proofs.Program.Run
import LetIf.Proofs.Text.Trimming
import LetIf.Session
import Mathlib.Data.List.TakeDrop

namespace LetIf

/-! ## Lines that are no commands -/

theorem Expr.size_pos {A : Type} (e : Expr A) : 0 < e.size := by
  cases e <;> rw [size] <;> omega

namespace Source

open Text

/-- No token starts with a colon. -/
theorem Lexes.head?_ne {src : Text} {ls : List Lexeme} (h : Lexes src ls) :
    src.head? ≠ some (byte ':') := by
  obtain ⟨hspace, hsign, hword⟩ : byte ':' ∉ ([32, 9, 13, 10] : Text) ∧ sign? (byte ':') = none ∧
    isWordByte (byte ':') = false := by decide
  cases h with
  | nil => simp
  | blank hb _ =>
    rintro ⟨⟩
    exact hspace hb
  | sign hs _ =>
    obtain ⟨b, hb, hkind, -⟩ := sign_of_mem hs
    rw [hb]
    rintro ⟨⟩
    rw [hsign] at hkind
    cases hkind
  | @integer digits rest ls hd _ _ =>
    cases digits with
    | nil => cases hd
    | cons b digits =>
      rintro ⟨⟩
      simp only [isNumeral, List.all_cons, Bool.and_eq_true] at hd
      rw [isWordByte_of_isDigit hd.2.1] at hword
      cases hword
  | @word w rest ls hw _ _ =>
    cases w with
    | nil => cases hw
    | cons b w =>
      rintro ⟨⟩
      simp only [isWord_cons, Bool.and_eq_true] at hw
      rw [isWordByte_of_isLetter hw.1] at hword
      cases hword

end Source

theorem Program.line_of_eval {src : Text} {v : Value} {m : Model Position} (h : eval src = .ok (v, m)) :
    src ≠ [] ∧ src.head? ≠ some (Text.byte ':') := by
  obtain ⟨e, -, hparse, -⟩ := exists_tree_of_eval h
  obtain ⟨ls, hl, -⟩ := Source.parse_iff.1 ⟨e, hparse, rfl⟩
  refine ⟨fun hnil => ?_, hl.head?_ne⟩
  have hsize := Source.size_le_of_parse hparse
  have hpos := e.size_pos
  rw [hnil, List.length_nil] at hsize
  omega

namespace Session

/-! ## Commands of lines -/

/-- The line gives a command by its word: between blanks there is the word, and with a space or a tab behind it the
argument, which may have blanks around it. -/
def IsCommand (line word arg : Text) : Prop :=
  Text.trimBlank line = word ∧ arg = [] ∨
    ∃ sep rest, (sep = 32 ∨ sep = 9) ∧ Text.trimBlank line = word ++ sep :: rest ∧ arg = Text.trimBlank rest

/-- The line asks for a strategy by its name, in any case. -/
def NamesStrategy (line : Text) (st : Strategy) : Prop :=
  ∃ arg, IsCommand line (Text.ofString ":strategy") arg ∧ st.Called arg

/-- The strategy of the last line that names one, or else the initial one. -/
inductive LastNamed (initial : Strategy) (lines : List Text) : Strategy → Prop
  | line {before behind : List Text} {line : Text} {st : Strategy} : lines = before ++ line :: behind →
      NamesStrategy line st → (∀ l ∈ behind, ∀ st', ¬ NamesStrategy l st') → LastNamed initial lines st
  | initial : (∀ l ∈ lines, ∀ st, ¬ NamesStrategy l st) → LastNamed initial lines initial

/-- The words of the commands whose output depends on the target. -/
def targetWords : List Text := [":strategy", ":wat", ":llvm", ":run"]

/-- The command that a line gives, with its argument. An expression gives none, nor does an empty line or
one with an unknown command. -/
def asks? (line : Text) : Option (Command × Text) :=
  let line := Text.trimBlank line
  if line.head? = some (Text.byte ':') then
    (Command.ofName? (splitCommand line).1).map fun c => (c, (splitCommand line).2)
  else none

/-- The strategy that a command chooses by its argument. -/
def Command.chosen? (arg : Text) : Command → Option Strategy
  | .strategy => Strategy.ofName? arg
  | .quit | .help | .type | .ast | .wat | .llvm | .run => none

/-- The strategy that a line chooses. -/
def chosen? (line : Text) : Option Strategy := do
  let (c, arg) ← asks? line
  c.chosen? arg

/-- The commands whose output depends on the target. -/
def Command.usesTarget : Command → Bool
  | .strategy | .wat | .llvm | .run => true
  | .quit | .help | .type | .ast => false

variable {line arg : Text} {c : Command}

/-! ## Words of commands -/

section Words

variable {word : Text} (hw : Text.IsSolid word)
include hw

/-- A space or a tab ends a word. -/
theorem splitCommand_append (rest : Text) (hrest : ∀ b ∈ rest.head?, b = 32 ∨ b = 9) :
    splitCommand (word ++ rest) = (word, Text.trimBlank (rest.drop 1)) := by
  have hword : ∀ b ∈ word, (!(b == 32 || b == 9)) = true := by
    intro b hb
    have hblank := (hw b hb).2
    have h32 : b ≠ 32 := by rintro rfl; exact absurd hblank (by decide)
    have h9 : b ≠ 9 := by rintro rfl; exact absurd hblank (by decide)
    simp [h32, h9]
  have hsplit : Text.splitAtFirst (fun b => b == 32 || b == 9) (word ++ rest) = (word, rest) := by
    unfold Text.splitAtFirst
    rw [List.span_eq_takeWhile_dropWhile, List.takeWhile_append_of_pos hword,
      List.dropWhile_append_of_pos hword]
    cases rest with
    | nil => simp
    | cons b rest => rcases hrest b rfl with rfl | rfl <;> simp
  rw [splitCommand, hsplit]

/-- A word and some text behind a space or a tab make a command. -/
theorem isCommand_append (hne : word ≠ []) {sep : UInt8} (hsep : sep = 32 ∨ sep = 9) (e : Text) :
    IsCommand (word ++ sep :: e) word (Text.trimBlank e) := by
  have hblank : sep < 128 ∧ Text.isBlank (Char.ofNat sep.toNat) = true := by
    rcases hsep with rfl | rfl <;> decide
  rcases hw.trimBlank_append hne hblank.1 hblank.2 e with ⟨hline, he⟩ | ⟨rest, hline, hrest⟩
  · exact .inl ⟨hline, he⟩
  · exact .inr ⟨sep, rest, hsep, hline, hrest.symm⟩

end Words

/-- A line is cut at its first space or tab. -/
theorem splitCommand_cases (t : Text) : splitCommand t = (t, []) ∨
    ∃ word sep rest, (sep = 32 ∨ sep = 9) ∧ t = word ++ sep :: rest ∧ splitCommand t = (word, Text.trimBlank rest) := by
  have hsplit : splitCommand t = (t.takeWhile fun b => !(b == 32 || b == 9),
      Text.trimBlank ((t.dropWhile fun b => !(b == 32 || b == 9)).drop 1)) := by
    unfold splitCommand Text.splitAtFirst
    rw [List.span_eq_takeWhile_dropWhile]
  have ht : t.takeWhile (fun b => !(b == 32 || b == 9)) ++ t.dropWhile (fun b => !(b == 32 || b == 9)) = t :=
    List.takeWhile_append_dropWhile
  have hhead := List.head?_dropWhile_not (fun b : UInt8 => !(b == 32 || b == 9)) t
  rw [hsplit]
  generalize t.takeWhile _ = word at ht
  generalize t.dropWhile _ = rest at ht hhead
  cases rest with
  | nil =>
    rw [List.append_nil] at ht
    exact .inl (by rw [ht, List.drop_nil, Text.trimBlank_nil])
  | cons sep rest =>
    refine .inr ⟨word, sep, rest, ?_, ht.symm, rfl⟩
    have hnine : ¬ sep = 32 → sep = 9 := by simpa using hhead
    exact or_iff_not_imp_left.2 hnine

/-- The words of a command. -/
def Command.words : Command → List Text
  | .quit => [":quit", ":q"]
  | .help => [":help", ":h"]
  | .type => [":type", ":t"]
  | .ast => [":ast"]
  | .strategy => [":strategy"]
  | .wat => [":wat"]
  | .llvm => [":llvm"]
  | .run => [":run"]

theorem Command.mem_words {word : Text} (h : Command.ofName? word = some c) : word ∈ c.words := by
  unfold Command.ofName? at h
  simp only [Bool.or_eq_true, beq_iff_eq] at h
  split_ifs at h <;> cases h <;> simp only [words, List.mem_cons, List.not_mem_nil, or_false] <;> assumption

theorem Command.solid_of_mem_words {word : Text} (h : word ∈ c.words) :
    Text.IsSolid word ∧ word.head? = some (Text.byte ':') := by
  have hall : ∀ word ∈ c.words, Text.IsSolid word ∧ word.head? = some (Text.byte ':') := by
    cases c <;> decide +kernel
  exact hall word h

theorem Command.mem_targetWords {word : Text} (h : word ∈ c.words) (hc : c.usesTarget = true) :
    word ∈ targetWords := by
  have hall : ∀ word ∈ c.words, word ∈ targetWords := by
    cases c with
    | strategy | wat | llvm | run => decide
    | quit | help | type | ast => cases hc
  exact hall word h

/-- What a line asks for, by its bytes. -/
theorem asks?_eq_some :
    asks? line = some (c, arg) ↔ ∃ word, Command.ofName? word = some c ∧ IsCommand line word arg := by
  constructor
  · intro h
    unfold asks? at h
    dsimp only at h
    split at h
    · obtain ⟨c', hc, heq⟩ := Option.map_eq_some_iff.1 h
      cases heq
      rcases splitCommand_cases (Text.trimBlank line) with hs | ⟨word, sep, rest, hsep, ht, hs⟩
      · rw [hs] at hc ⊢
        exact ⟨_, hc, .inl ⟨rfl, rfl⟩⟩
      · rw [hs] at hc ⊢
        exact ⟨word, hc, .inr ⟨sep, rest, hsep, ht, rfl⟩⟩
    · cases h
  · rintro ⟨word, hc, hcommand⟩
    obtain ⟨hsolid, hcolon⟩ := Command.solid_of_mem_words (Command.mem_words hc)
    unfold asks?
    dsimp only
    obtain ⟨ht, rfl⟩ | ⟨sep, rest, hsep, ht, rfl⟩ := hcommand
    · have hsplit := splitCommand_append hsolid [] (by simp)
      rw [List.append_nil, List.drop_nil, Text.trimBlank_nil] at hsplit
      rw [ht, if_pos hcolon, hsplit, hc]
      rfl
    · have hne : word ≠ [] := by
        rintro rfl
        cases hcolon
      have hsplit := splitCommand_append hsolid (sep :: rest) (by rintro b ⟨⟩; exact hsep)
      rw [ht, List.head?_append_of_ne_nil _ hne, if_pos hcolon, hsplit, hc]
      rfl

/-! ## Strategies of lines -/

/-- What a line chooses is what it names. -/
theorem namesStrategy_of_chosen? {st : Strategy} (h : chosen? line = some st) : NamesStrategy line st := by
  obtain ⟨⟨c, arg⟩, hasks, h⟩ := Option.bind_eq_some_iff.1 h
  cases c with
  | strategy =>
    obtain ⟨word, hc, hcommand⟩ := asks?_eq_some.1 hasks
    obtain rfl := List.mem_singleton.1 (Command.mem_words hc)
    exact ⟨arg, hcommand, Strategy.called_of_ofName? h⟩
  | quit | help | type | ast | wat | llvm | run => cases h

theorem not_namesStrategy_of_chosen? (h : chosen? line = none) (st : Strategy) : ¬ NamesStrategy line st := by
  rintro ⟨arg, hcommand, hcalled⟩
  have hasks : asks? line = some (.strategy, arg) := asks?_eq_some.2 ⟨_, rfl, hcommand⟩
  rw [chosen?, hasks] at h
  exact Strategy.not_called_of_ofName? h st hcalled

theorem LastNamed.concat {initial st : Strategy} {lines : List Text} (h : LastNamed initial lines st)
    (hline : ∀ st', ¬ NamesStrategy line st') : LastNamed initial (lines ++ [line]) st := by
  cases h with
  | @line before behind named _ heq hnamed hbehind =>
    subst heq
    refine .line (by rw [List.append_assoc, List.cons_append]) hnamed fun l hl => ?_
    obtain hl | hl := List.mem_append.1 hl
    · exact hbehind l hl
    · rw [List.mem_singleton.1 hl]
      exact hline
  | initial hnone =>
    refine .initial fun l hl => ?_
    obtain hl | hl := List.mem_append.1 hl
    · exact hnone l hl
    · rw [List.mem_singleton.1 hl]
      exact hline

/-- The strategy that is chosen last is the one that is named last. -/
theorem lastNamed_getLast? (initial : Strategy) (lines : List Text) :
    LastNamed initial lines (((lines.filterMap chosen?).getLast?).getD initial) := by
  induction lines using List.reverseRecOn with
  | nil => exact .initial fun l hl => absurd hl List.not_mem_nil
  | append_singleton lines line ih =>
    rw [List.filterMap_append]
    cases h : chosen? line with
    | none =>
      rw [List.filterMap_cons_none h, List.filterMap_nil, List.append_nil]
      exact ih.concat (not_namesStrategy_of_chosen? h)
    | some st =>
      rw [List.filterMap_cons_some h, List.filterMap_nil, List.getLast?_concat]
      exact .line rfl (namesStrategy_of_chosen? h) fun l hl => absurd hl List.not_mem_nil

theorem ofName?_nil : Strategy.ofName? [] = none := by
  simp only [Strategy.ofName?, Text.sameName, Text.pieces_nil, Text.ofString_eq_ofChars, Text.pieces_ofChars]
  rfl

section Engines

variable [Engine.Runtime] {s s' : Session} {out : Text}

/-! ## Lines -/

theorem eval_of_asks (h : asks? line = some (c, arg)) (s : Session) : s.eval line = s.command c arg := by
  unfold asks? at h
  unfold eval
  dsimp only at h ⊢
  generalize Text.trimBlank line = t at h
  split at h
  · rename_i hcolon
    obtain ⟨rest, rfl⟩ := List.head?_eq_some_iff.1 hcolon
    obtain ⟨c', hc, heq⟩ := Option.map_eq_some_iff.1 h
    cases heq
    simp only [beq_self_eq_true, if_true, hc]
  · cases h

/-- What is printed for a line without a command does not depend on the session, nor does it change it. -/
theorem exists_output_of_none (h : asks? line = none) :
    ∃ r : Except Failure Text, ∀ s : Session, s.eval line = r.map fun t => (t, s) := by
  unfold asks? at h
  unfold eval
  dsimp only at h ⊢
  cases ht : Text.trimBlank line with
  | nil => exact ⟨.ok [], fun s => rfl⟩
  | cons b rest =>
    rw [ht] at h
    by_cases hb : b = Text.byte ':'
    · rw [List.head?_cons, if_pos (congrArg some hb), Option.map_eq_none_iff] at h
      refine ⟨.error (.unknownCommand (splitCommand (b :: rest)).1), fun s => ?_⟩
      simp only [hb, beq_self_eq_true, if_true]
      rw [hb] at h
      rw [h]
      rfl
    · refine ⟨answer (b :: rest), fun s => ?_⟩
      simp only [beq_eq_false_iff_ne.2 hb, Bool.false_eq_true, if_false]
      cases answer (b :: rest) <;> rfl

/-- Nor does it for a command that does not use the target. -/
theorem exists_output_of_not_usesTarget (hc : c.usesTarget = false) (arg : Text) :
    ∃ r : Except Failure Text, ∀ s : Session, s.command c arg = r.map fun t => (t, s) := by
  cases c with
  | quit => exact ⟨.error .quit, fun s => rfl⟩
  | help => exact ⟨.ok help, fun s => rfl⟩
  | type =>
    refine ⟨(check arg).map fun t => t.model.kind.name, fun s => ?_⟩
    rw [command]
    cases check arg <;> rfl
  | ast =>
    refine ⟨(check arg).map fun t => Dump.expr t.tree, fun s => ?_⟩
    rw [command]
    cases check arg <;> rfl
  | strategy | wat | llvm | run => cases hc

/-- What a command that succeeds leaves of a session. -/
theorem command_state (h : s.command c arg = .ok (out, s')) :
    s' = ⟨⟨(c.chosen? arg).getD s.target.strategy, s.target.name⟩⟩ := by
  cases c with
  | quit => cases h
  | help =>
    cases h
    rfl
  | strategy =>
    unfold command at h
    cases arg with
    | nil =>
      cases h
      rw [Command.chosen?, ofName?_nil]
      rfl
    | cons b arg =>
      simp only [List.isEmpty_cons, Bool.false_eq_true, if_false] at h
      rw [Command.chosen?]
      split at h
      · rename_i strategy hname
        cases h
        rw [hname]
        rfl
      · cases h
  | type | ast | run =>
    obtain ⟨_, -, h⟩ := bind_eq_ok.1 h
    cases h
    rfl
  | wat | llvm =>
    obtain ⟨_, -, h⟩ := bind_eq_ok.1 h
    obtain ⟨_, -, h⟩ := bind_eq_ok.1 h
    cases h
    rfl

/-- A command that fails chooses nothing. -/
theorem chosen?_of_error {f : Failure} (h : s.command c arg = .error f) : c.chosen? arg = none := by
  cases c with
  | strategy =>
    rw [command] at h
    split at h
    · cases h
    split at h
    · cases h
    · assumption
  | quit | help | type | ast | wat | llvm | run => rfl

/-- What a line leaves of a session. -/
theorem next_eq (s : Session) (line : Text) :
    s.next line = ⟨⟨(chosen? line).getD s.target.strategy, s.target.name⟩⟩ := by
  unfold next
  cases h : asks? line with
  | none =>
    obtain ⟨r, hr⟩ := exists_output_of_none h
    rw [hr, chosen?, h]
    cases r <;> rfl
  | some ca =>
    obtain ⟨c, arg⟩ := ca
    have hchosen : chosen? line = c.chosen? arg := by rw [chosen?, h]; rfl
    rw [eval_of_asks h, hchosen]
    cases hc : s.command c arg with
    | ok os => exact command_state hc
    | error f =>
      rw [chosen?_of_error hc]
      rfl

/-! ## Histories -/

/-- The session after some lines. -/
def after (s : Session) (lines : List Text) : Session := lines.foldl next s

/-- The strategy after some lines is the one chosen last, if any, and the name is as at first. -/
theorem after_eq (s : Session) (lines : List Text) : s.after lines =
    ⟨⟨((lines.filterMap chosen?).getLast?).getD s.target.strategy, s.target.name⟩⟩ := by
  induction lines generalizing s with
  | nil => rfl
  | cons line lines ih =>
    rw [after, List.foldl_cons, ← after, ih, next_eq]
    cases h : chosen? line with
    | none => rw [List.filterMap_cons_none h]; rfl
    | some strategy =>
      rw [List.filterMap_cons_some h, List.getLast?_cons]
      rfl

theorem named_after (h : s.target.strategy = .select ∨ s.target.strategy = .branch) (lines : List Text) :
    (s.after lines).target.strategy = .select ∨ (s.after lines).target.strategy = .branch := by
  rw [after_eq]
  cases hlast : (lines.filterMap chosen?).getLast? with
  | none => exact h
  | some st =>
    obtain ⟨line, -, hline⟩ := List.mem_filterMap.1 (List.mem_of_getLast? hlast)
    obtain ⟨arg, -, hcalled⟩ := namesStrategy_of_chosen? hline
    exact hcalled.1

/-! ## What lines print -/

/-- What a line prints that gives no command about modules or the strategy does not depend on the
session, nor does it change it. -/
theorem exists_output (h : ∀ word ∈ targetWords, ∀ arg, ¬ IsCommand line word arg) :
    ∃ r : Except Failure Text, ∀ s : Session, s.eval line = r.map fun t => (t, s) := by
  cases hasks : asks? line with
  | none => exact exists_output_of_none hasks
  | some ca =>
    obtain ⟨c, arg⟩ := ca
    obtain ⟨word, hc, hcommand⟩ := asks?_eq_some.1 hasks
    have huses : c.usesTarget = false := by
      rw [← Bool.not_eq_true]
      exact fun hc' => h word (Command.mem_targetWords (Command.mem_words hc) hc') arg hcommand
    obtain ⟨r, hr⟩ := exists_output_of_not_usesTarget huses arg
    exact ⟨r, fun s => (eval_of_asks hasks s).trans (hr s)⟩

/-- A line that fails changes nothing. -/
theorem next_of_error {f : Failure} (h : s.eval line = .error f) : s.next line = s := by
  rw [next, h]

/-- An expression prints its value and its type. -/
theorem eval_of_eval {e : Text} {v : Value} {m : Model Position}
    (h : Program.eval (Text.trimBlank e) = .ok (v, m)) (s : Session) :
    s.eval e = .ok (v.text ++ " : " ++ m.kind.name, s) := by
  obtain ⟨hne, hcolon⟩ := Program.line_of_eval h
  unfold eval
  dsimp only
  cases ht : Text.trimBlank e with
  | nil => exact absurd ht hne
  | cons b rest =>
    rw [ht] at h hcolon
    have hb : b ≠ Text.byte ':' := fun hb => hcolon (congrArg some hb)
    simp only [beq_eq_false_iff_ne.2 hb, Bool.false_eq_true, if_false, answer, h]
    rfl

/-- A source that is run prints its word. -/
theorem eval_run {e : Text} {w : Int32} (h : Program.run s.target (Text.trimBlank e) = .ok w) :
    s.eval (":run " ++ e) = .ok (Text.ofInt w.toInt, s) := by
  have hword : Text.IsSolid ":run" := by decide +kernel
  have hcommand : IsCommand (Text.ofString ":run" ++ 32 :: e) (Text.ofString ":run") (Text.trimBlank e) :=
    isCommand_append hword (by decide) (.inl rfl) e
  have hspace : Text.ofString ":run " = Text.ofString ":run" ++ [32] := by decide
  have hline : ":run " ++ e = Text.ofString ":run" ++ 32 :: e := by
    rw [hspace, List.append_assoc, List.singleton_append]
  rw [hline, eval_of_asks (asks?_eq_some.2 ⟨_, rfl, hcommand⟩), command, run, h]
  rfl

end Engines

/-- A strategy in capitals, one that is not known, and a source that is refused. -/
def mixedLines : List Text := [" :strategy BRANCH\t", ":strategy jump", "if 1 then 2 else 3"]

/-- A boolean between blanks. -/
def spacedBool : Text := "\tlet b = True in if b then b else False "

end Session

end LetIf
