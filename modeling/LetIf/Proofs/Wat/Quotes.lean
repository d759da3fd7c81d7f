/-
What may stand between quotes in an accepted text. The name of the export must, and every other word may: the
type of a result or of a local, and the operand of an instruction, are compared and read by what they spell only.
The texts with no other string than the name are the ones of the grammar whose words are atoms.
-/
import LetIf.Proofs.Code.Same
import LetIf.Proofs.Wat.Grammar

namespace LetIf.Wat

open Text

/-! ## Strings -/

/-- What a string token spells. -/
def Token.Form.string? : Token.Form → Option Text
  | .string t => some t
  | _ => none

/-- What the string tokens of a text spell, in order. -/
def strings (src : Text) : List Text := (tokens src).list.filterMap (·.form.string?)

namespace Tree

/-- What the strings in trees spell, in order. -/
def strings (ts : List Tree) : List Text := (formsAll ts).filterMap Token.Form.string?

variable (ts us : List Tree)

@[simp] theorem strings_nil : strings [] = [] := rfl

@[simp] theorem strings_atom (t : Text) : strings (.atom t :: ts) = strings ts := rfl

@[simp] theorem strings_string (t : Text) : strings (.string t :: ts) = t :: strings ts := rfl

@[simp] theorem strings_list : strings (.list us :: ts) = strings us ++ strings ts := by
  have hopening : Token.Form.opening.string? = none := rfl
  have hclosing : Token.Form.closing.string? = none := rfl
  simp only [strings, formsAll, forms, List.cons_append, List.append_assoc, List.filterMap_cons, hopening,
    List.filterMap_append, hclosing, List.nil_append]

@[simp] theorem strings_append : strings (ts ++ us) = strings ts ++ strings us := by
  simp [strings, formsAll_append]

variable {ts us}

theorem mem_strings {q : Text} : q ∈ strings ts ↔ ∃ t ∈ ts, q ∈ strings [t] := by
  induction ts with
  | nil => simp
  | cons t ts ih => rw [← List.singleton_append, strings_append, List.mem_append, ih]; simp

end Tree

theorem Spelled.strings_eq {src : Text} {t : Tree} (h : Spelled src t) : strings src = Tree.strings [t] := by
  obtain ⟨last, -, hforms⟩ := h
  have hmap : strings src = ((tokens src).list.map Token.form).filterMap Token.Form.string? := by
    rw [List.filterMap_map]
    rfl
  rw [hmap, hforms, Tree.strings, Tree.formsAll, Tree.formsAll, List.append_nil]

/-! ## Words -/

/-- What can stand between quotes besides the name: the type and the operands. -/
def IsWord (q : Text) : Prop := q = "i32" ∨ (i32? q).isSome ∨ (slot? q).isSome

theorem IsBare.isQuotable {t : Text} {w : Tree} (h : IsBare t w) : IsQuotable t w := .inl h

theorem IsBare.strings_eq {t : Text} {w : Tree} (h : IsBare t w) : Tree.strings [w] = [] := by
  rw [h, Tree.strings_atom, Tree.strings_nil]

theorem IsQuotable.isBare {t : Text} {w : Tree} (h : IsQuotable t w) (hno : Tree.strings [w] = []) :
    IsBare t w := by
  rcases h with rfl | rfl
  · rfl
  · cases hno

theorem IsQuotable.eq_of_mem {t q : Text} {w : Tree} (h : IsQuotable t w) (hq : q ∈ Tree.strings [w]) : q = t := by
  rcases h with rfl | rfl
  · cases hq
  · exact List.mem_singleton.1 hq

/-! ## Strings of the grammar -/

section Grammar

variable {Word Word' : Text → Tree → Prop} {Q : Text → Prop}

/-- The strings of a module: its name, then those of what stands behind the export. -/
theorem strings_module {ids ds cs : List Tree} {w : Tree} {name : Text} (h : IsId ids) :
    Tree.strings [.list [.atom "module", .list (.atom "func" :: (ids ++ .list [.atom "export", .string name] ::
      .list [.atom "result", w] :: (ds ++ cs)))]] =
      name :: (Tree.strings [w] ++ (Tree.strings ds ++ Tree.strings cs)) := by
  have hids : Tree.strings ids = [] := by
    cases h with
    | none => rfl
    | some _ _ => rw [Tree.strings_atom, Tree.strings_nil]
  simp [hids]

section Strings

/-! The strings among the words have a property that the words have. -/

variable (hword : ∀ t w, IsWord t → Word t w → ∀ q ∈ Tree.strings [w], Q q)

include hword

theorem IsCode.of_mem_strings {ts : List Tree} {is : List Instr} (h : IsCode Word ts is) :
    ∀ q ∈ Tree.strings ts, Q q := by
  induction h with
  | nil => simp
  | const hw hn _ ih =>
    simp only [Tree.strings_list, Tree.strings_atom, List.forall_mem_append]
    exact ⟨hword _ _ (.inr (.inl (by rw [hn]; rfl))) hw, ih⟩
  | select _ ih =>
    simp only [Tree.strings_list, Tree.strings_atom, Tree.strings_nil, List.nil_append]
    exact ih
  | localGet hw hi _ ih | localSet hw hi _ ih =>
    simp only [Tree.strings_list, Tree.strings_atom, List.forall_mem_append]
    exact ⟨hword _ _ (.inr (.inr (by rw [hi]; rfl))) hw, ih⟩
  | branch hw _ _ _ ihy ihn ih =>
    simp only [Tree.strings_list, Tree.strings_atom, Tree.strings_nil, List.forall_mem_append, List.append_nil]
    exact ⟨⟨hword _ _ (.inl rfl) hw, ihy, ihn⟩, ih⟩

theorem IsLocals.of_mem_strings {ds : List Tree} {n : Nat} (h : IsLocals Word ds n) :
    ∀ q ∈ Tree.strings ds, Q q := by
  induction h with
  | nil => simp
  | cons hw _ ih =>
    simp only [Tree.strings_list, Tree.strings_atom, List.forall_mem_append]
    refine ⟨?_, ih⟩
    intro q hq
    obtain ⟨w, hmem, hq⟩ := Tree.mem_strings.1 hq
    exact hword _ _ (.inl rfl) (hw w hmem) q hq

/-- The name is the first string of a module. -/
theorem IsModule.exists_strings {t : Tree} {m : Module} (h : IsModule Word t m) :
    ∃ others, Tree.strings [t] = m.name :: others ∧ ∀ q ∈ others, Q q := by
  obtain ⟨⟨hid, hw, hlocals, hcode⟩⟩ := h
  refine ⟨_, strings_module hid, ?_⟩
  simp only [List.forall_mem_append]
  exact ⟨hword _ _ (.inl rfl) hw, hlocals.of_mem_strings hword, hcode.of_mem_strings hword⟩

end Strings

section Mono

/-! The words may be changed to others, as far as their strings allow it. -/

variable (hword : ∀ t w, Word t w → (∀ q ∈ Tree.strings [w], Q q) → Word' t w)

include hword

theorem IsCode.mono {ts : List Tree} {is : List Instr} (h : IsCode Word ts is) (hq : ∀ q ∈ Tree.strings ts, Q q) :
    IsCode Word' ts is := by
  induction h with
  | nil => exact .nil
  | const hw hn _ ih =>
    simp only [Tree.strings_list, Tree.strings_atom, List.forall_mem_append] at hq
    exact .const (hword _ _ hw hq.1) hn (ih hq.2)
  | select _ ih =>
    simp only [Tree.strings_list, Tree.strings_atom, Tree.strings_nil, List.nil_append] at hq
    exact .select (ih hq)
  | localGet hw hi _ ih =>
    simp only [Tree.strings_list, Tree.strings_atom, List.forall_mem_append] at hq
    exact .localGet (hword _ _ hw hq.1) hi (ih hq.2)
  | localSet hw hi _ ih =>
    simp only [Tree.strings_list, Tree.strings_atom, List.forall_mem_append] at hq
    exact .localSet (hword _ _ hw hq.1) hi (ih hq.2)
  | branch hw _ _ _ ihy ihn ih =>
    simp only [Tree.strings_list, Tree.strings_atom, Tree.strings_nil, List.forall_mem_append,
      List.append_nil] at hq
    obtain ⟨⟨hqw, hqy, hqn⟩, hq⟩ := hq
    exact .branch (hword _ _ hw hqw) (ihy hqy) (ihn hqn) (ih hq)

theorem IsLocals.mono {ds : List Tree} {n : Nat} (h : IsLocals Word ds n) (hq : ∀ q ∈ Tree.strings ds, Q q) :
    IsLocals Word' ds n := by
  induction h with
  | nil => exact .nil
  | cons hw _ ih =>
    simp only [Tree.strings_list, Tree.strings_atom, List.forall_mem_append] at hq
    refine .cons ?_ (ih hq.2)
    intro w hmem
    exact hword _ _ (hw w hmem) fun q hqw => hq.1 q (Tree.mem_strings.2 ⟨w, hmem, hqw⟩)

theorem IsModule.mono {t : Tree} {m : Module} (h : IsModule Word t m)
    (hq : ∀ q ∈ (Tree.strings [t]).tail, Q q) : IsModule Word' t m := by
  obtain ⟨⟨hid, hw, hlocals, hcode⟩⟩ := h
  rw [strings_module hid] at hq
  simp only [List.tail_cons, List.forall_mem_append] at hq
  obtain ⟨hqw, hqd, hqc⟩ := hq
  exact ⟨⟨hid, hword _ _ hw hqw, hlocals.mono hword hqd, hcode.mono hword hqc⟩⟩

end Mono

end Grammar

/-- The modules of the grammar whose words are atoms are those with no other string than the name. -/
theorem isModule_isBare_iff {t : Tree} {m : Module} :
    IsModule IsBare t m ↔ IsModule IsQuotable t m ∧ Tree.strings [t] = [m.name] := by
  constructor
  · intro h
    obtain ⟨others, hstrings, hno⟩ := h.exists_strings (Q := fun _ => False) fun t w _ hw q hq => by
      rw [hw.strings_eq] at hq
      cases hq
    refine ⟨h.mono (Q := fun _ => True) (fun t w hw _ => hw.isQuotable) (fun _ _ => trivial), ?_⟩
    rw [hstrings, List.eq_nil_iff_forall_not_mem.2 hno]
  · rintro ⟨h, hstrings⟩
    refine h.mono (Q := fun _ => False) (fun t w hw hno => hw.isBare (List.eq_nil_iff_forall_not_mem.2 hno)) ?_
    rw [hstrings]
    simp

/-- What is quoted in the accepted texts, which are those of the grammar whose words may be quoted: the name, and
any of the other words. A text in which nothing else is quoted is one of the grammar whose words are atoms. -/
theorem parse_quoted (src : Text) (m : Module) :
    (parse src = .ok m ↔ ∃ t, Spelled src t ∧ IsModule IsQuotable t m ∧ m.validate = .ok ()) ∧
    (parse src = .ok m → ∃ others, strings src = m.name :: others ∧ ∀ q ∈ others, IsWord q) ∧
    (parse src = .ok m ∧ strings src = [m.name] ↔
      ∃ t, Spelled src t ∧ IsModule IsBare t m ∧ m.validate = .ok ()) := by
  refine ⟨parse_eq_ok, ?_, ?_⟩
  · intro h
    obtain ⟨t, hspelled, hm, -⟩ := parse_eq_ok.1 h
    rw [hspelled.strings_eq]
    refine hm.exists_strings ?_
    intro t w ht hw q hq
    rwa [hw.eq_of_mem hq]
  · rw [parse_eq_ok]
    constructor
    · rintro ⟨⟨t, hspelled, hm, hv⟩, hstrings⟩
      rw [hspelled.strings_eq] at hstrings
      exact ⟨t, hspelled, isModule_isBare_iff.2 ⟨hm, hstrings⟩, hv⟩
    · rintro ⟨t, hspelled, hm, hv⟩
      obtain ⟨hm, hstrings⟩ := isModule_isBare_iff.1 hm
      refine ⟨⟨t, hspelled, hm, hv⟩, ?_⟩
      rw [hspelled.strings_eq, hstrings]

theorem parse_eq_ok_of_same {src : Text} {m : Module} (h : (parse src).toOption.any (·.same m) = true) :
    parse src = .ok m := by
  cases hread : parse src with
  | error e => rw [hread] at h; cases h
  | ok n => rw [hread] at h; rw [Module.eq_of_same h]

/-- A module with a word at each place where one can stand. -/
def everyWord : Module := ⟨"f", 1, [.const 1, .localSet 0, .localGet 0, .branch [.const 2] [.localGet 0], .stop]⟩

def atomText : Text :=
  "(module (func (export \"f\") (result i32) (local i32)
    (i32.const 1) (local.set 0) (local.get 0)
    (if (result i32) (then (i32.const 2)) (else (local.get 0)))))"

def quotedText : Text :=
  "(module (func (export \"f\") (result \"i32\") (local \"i32\")
    (i32.const \"1\") (local.set \"0\") (local.get \"0\")
    (if (result \"i32\") (then (i32.const \"2\")) (else (local.get \"0\")))))"

theorem parse_atomText : parse atomText = .ok everyWord := parse_eq_ok_of_same (by decide +kernel)

theorem parse_quotedText : parse quotedText = .ok everyWord := parse_eq_ok_of_same (by decide +kernel)

theorem parse_quoted_everyWord :
    (∃ others, strings quotedText = everyWord.name :: others ∧ ∀ q ∈ others, IsWord q) ∧
      ∃ t, Spelled atomText t ∧ IsModule IsBare t everyWord ∧ everyWord.validate = .ok () :=
  ⟨(parse_quoted quotedText everyWord).2.1 parse_quotedText,
    (parse_quoted atomText everyWord).2.2.1 ⟨parse_atomText, by decide +kernel⟩⟩

/-- The name is not the only string: each of the other words can be one too. -/
theorem strings_quotedText :
    parse quotedText = .ok everyWord ∧ strings quotedText = everyWord.name ::
      ["i32", "i32", "1", "0", "0", "i32", "2", "0"] :=
  ⟨parse_quotedText, by decide +kernel⟩

end LetIf.Wat
