/-
Documents that are written read back. `Tree` is a document without its offsets, as far as modules need
one, with what makes it writable in its parts: whole numbers, and strings of characters. What is
written for a tree is read as a document that shows the same tree, in any list or object that is open
around it and whatever comes next, as long as no more than `maxDepth` lists and objects are open at
once.
-/
import LetIf.Proofs.Json.Strings

namespace LetIf.Json

open Text

inductive Tree where
  | int (z : Int)
  | string (cs : List Char)
  | list (items : List Tree)
  | object (members : List (List Char × Tree))

namespace Tree

mutual

/-- The tree as text, without blanks. -/
def text : Tree → Text
  | .int z => ofInt z
  | .string cs => quote cs
  | .list items => byte '[' :: join "," (itemTexts items) ++ [byte ']']
  | .object members => byte '\x7b' :: join "," (memberTexts members) ++ [byte '\x7d']

def itemTexts : List Tree → List Text
  | [] => []
  | t :: ts => t.text :: itemTexts ts

def memberTexts : List (List Char × Tree) → List Text
  | [] => []
  | (key, t) :: ms => (quote key ++ byte ':' :: t.text) :: memberTexts ms

end

mutual

/-- How many lists and objects are open at once. -/
def nesting : Tree → Nat
  | .int _ | .string _ => 0
  | .list items => itemsNesting items + 1
  | .object members => membersNesting members + 1

def itemsNesting : List Tree → Nat
  | [] => 0
  | t :: ts => max t.nesting (itemsNesting ts)

def membersNesting : List (List Char × Tree) → Nat
  | [] => 0
  | (_, t) :: ms => max t.nesting (membersNesting ms)

end

end Tree

mutual

/-- A document is the tree, with offsets. -/
inductive Shows : Doc → Tree → Prop
  | int (mark : Nat) (z : Int) : Shows (.number mark (ofInt z)) (.int z)
  | string (mark : Nat) (cs : List Char) : Shows (.string mark (ofChars cs)) (.string cs)
  | list (mark : Nat) {ds : List Doc} {ts : List Tree} (h : ShowsItems ds ts) : Shows (.list mark ds) (.list ts)
  | object (mark : Nat) {ms : List (Text × Doc)} {us : List (List Char × Tree)} (h : ShowsMembers ms us) :
    Shows (.object mark ms) (.object us)

inductive ShowsItems : List Doc → List Tree → Prop
  | nil : ShowsItems [] []
  | cons {d : Doc} {t : Tree} {ds : List Doc} {ts : List Tree} (h : Shows d t) (hs : ShowsItems ds ts) :
    ShowsItems (d :: ds) (t :: ts)

inductive ShowsMembers : List (Text × Doc) → List (List Char × Tree) → Prop
  | nil : ShowsMembers [] []
  | cons (key : List Char) {d : Doc} {t : Tree} {ms : List (Text × Doc)} {us : List (List Char × Tree)}
    (h : Shows d t) (hs : ShowsMembers ms us) : ShowsMembers ((ofChars key, d) :: ms) ((key, t) :: us)

end

/-! ## Complete values -/

/-- A value put into the list or object that is open. -/
def Frame.add (d : Doc) : Frame → Frame
  | .list mark items => .list mark (d :: items)
  | .object mark members key => .object mark ((key, d) :: members) key

/-- What the reader does when a value is complete: it is done, or goes on in what is open. -/
def complete (off : Nat) (d : Doc) (stack : List Frame) (rest : Text) : Except Fault Taken :=
  match stack with
  | [] => .ok ⟨d, off, rest⟩
  | f :: outer => run off ⟨.next, f.add d :: outer⟩ rest

theorem run_of_more {off : Nat} {s s' : State} {b : UInt8} (h : step off s b = .more s') (rest : Text) :
    run off s (b :: rest) = run (off + 1) s' rest := by
  rw [run, h]

theorem accept_cons (d : Doc) (f : Frame) (outer : List Frame) :
    accept d (f :: outer) = .more ⟨.next, f.add d :: outer⟩ := by
  cases f <;> rfl

theorem run_of_accept {off : Nat} {s : State} {b : UInt8} {d : Doc} {stack : List Frame}
    (h : step off s b = accept d stack) (rest : Text) :
    run off s (b :: rest) = complete (off + 1) d stack rest := by
  rw [run, h]
  cases stack with
  | nil => rfl
  | cons f outer => rw [accept_cons]; rfl

/-- The bytes that may stand behind a value inside a list or an object. -/
def isDelimiter (b : UInt8) : Bool := b == byte ',' || b == byte ']' || b == byte '\x7d'

/-! ## Numbers -/

section Numbers

variable {stack : List Frame} {literal : Text}

theorem leads_digits : ∀ {ds : Text} {literal : Text}, ds.all isDigit = true →
    Leads ⟨.number literal .digits, stack⟩ ds ⟨.number (ds.reverse ++ literal) .digits, stack⟩
  | [], _, _ => .nil _
  | b :: ds, literal, h => by
    rw [List.all_cons, Bool.and_eq_true] at h
    rw [List.reverse_cons, List.append_assoc]
    refine .cons (fun off => ?_) (leads_digits h.2)
    show stepNumber off literal .digits stack b = _
    rw [stepNumber, Phase.next?, h.1]
    rfl

/-- The digits of a positive number, from behind its first byte on. -/
theorem exists_ofNat_eq_cons {n : Nat} (hn : 0 < n) :
    ∃ d ds, ofNat n = digitByte d :: ds ∧ 0 < d ∧ d < 10 ∧ ds.all isDigit = true := by
  obtain ⟨d, ds, hds, hd⟩ := exists_digitsOnto_eq_cons (h := one_lt_ten) hn []
  have hall := all_isDigit_ofNat n
  have hlt := decimalDigits_lt n
  rw [ofNat] at hall ⊢
  rw [decimalDigits, hds] at hall hlt ⊢
  rw [List.map_cons, List.all_cons, Bool.and_eq_true] at hall
  exact ⟨d, ds.map digitByte, rfl, hd, hlt d List.mem_cons_self, hall.2⟩

theorem step_digit {d : Nat} (hd : 0 < d) (h : d < 10) (off : Nat) :
    step off ⟨.value, stack⟩ (digitByte d) = .more ⟨.number [digitByte d] .digits, stack⟩ := by
  have hbyte : ∀ d < 10, 0 < d → isSpace (digitByte d) = false ∧ (digitByte d == byte '"') = false ∧
      (digitByte d == byte '-') = false ∧ (digitByte d == byte '0') = false := by decide
  obtain ⟨hspace, hquote, hminus, hzero⟩ := hbyte d h hd
  simp only [step, stepBetween, startValue, hspace, hquote, hminus, hzero, isDigit_digitByte h,
    Bool.false_eq_true, if_false, if_true]

theorem step_minus_digit {d : Nat} (hd : 0 < d) (h : d < 10) (off : Nat) :
    step off ⟨.number [byte '-'] .minus, stack⟩ (digitByte d) =
      .more ⟨.number [digitByte d, byte '-'] .digits, stack⟩ := by
  have hbyte : ∀ d < 10, 0 < d → (digitByte d == byte '0') = false := by decide
  simp only [step, stepNumber, Phase.next?, hbyte d h hd, isDigit_digitByte h, Bool.false_eq_true, if_false,
    if_true]

/-- A whole number is read to its end, where it may be complete. -/
theorem exists_leads_int (z : Int) (stack : List Frame) : ∃ phase, (phase = .zero ∨ phase = .digits) ∧
    Leads ⟨.value, stack⟩ (ofInt z) ⟨.number (ofInt z).reverse phase, stack⟩ := by
  cases z with
  | ofNat n =>
    show ∃ phase, _ ∧ Leads _ (ofNat n) ⟨.number (ofNat n).reverse phase, stack⟩
    cases n with
    | zero =>
      have h0 : ofNat 0 = [byte '0'] := by rw [ofNat, decimalDigits, digitsOnto]; rfl
      rw [h0]
      exact ⟨.zero, .inl rfl, .cons (fun _ => rfl) (.nil _)⟩
    | succ n =>
      obtain ⟨d, ds, hds, hd, hlt, hall⟩ := exists_ofNat_eq_cons (Nat.succ_pos n)
      rw [hds, List.reverse_cons]
      exact ⟨.digits, .inr rfl, .cons (step_digit hd hlt) (leads_digits hall)⟩
  | negSucc n =>
    show ∃ phase, _ ∧ Leads _ (byte '-' :: ofNat (n + 1))
      ⟨.number (byte '-' :: ofNat (n + 1)).reverse phase, stack⟩
    obtain ⟨d, ds, hds, hd, hlt, hall⟩ := exists_ofNat_eq_cons (Nat.succ_pos n)
    rw [hds, List.reverse_cons, List.reverse_cons, List.append_assoc]
    exact ⟨.digits, .inr rfl, .cons (fun _ => rfl) (.cons (step_minus_digit hd hlt) (leads_digits hall))⟩

/-- The byte behind a number completes it and is then read as what comes next. -/
theorem run_number {phase : Phase} (hp : phase = .zero ∨ phase = .digits) {b : UInt8} (hb : isDelimiter b = true)
    (off : Nat) (f : Frame) (outer : List Frame) (rest : Text) :
    run off ⟨.number literal phase, f :: outer⟩ (b :: rest) =
      run off ⟨.next, f.add (.number off literal.reverse) :: outer⟩ (b :: rest) := by
  -- the number has no byte of its own for its end, so this one is looked at a second time
  have hnext : phase.next? b = none ∧ phase.isComplete = true := by
    simp only [isDelimiter, Bool.or_eq_true, beq_iff_eq] at hb
    obtain rfl | rfl := hp <;> obtain (rfl | rfl) | rfl := hb <;> exact ⟨rfl, rfl⟩
  have hstep : step off ⟨.number literal phase, f :: outer⟩ b =
      step off ⟨.next, f.add (.number off literal.reverse) :: outer⟩ b := by
    simp only [step, stepNumber, hnext.1, hnext.2, accept_cons, if_true]
  rw [run, run, hstep]

end Numbers

/-! ## Strings and keys -/

theorem exists_run_quote (cs : List Char) (stack : List Frame) (off : Nat) (rest : Text) :
    ∃ off' mark, run off ⟨.value, stack⟩ (quote cs ++ rest) =
      complete off' (.string mark (ofChars cs)) stack rest := by
  obtain ⟨off', parts, htext, hrun⟩ := exists_run_string cs false stack (off + 1) (byte '"' :: rest)
  have hend : step off' ⟨.string false parts .none, stack⟩ (byte '"') =
      accept (.string (off' + 1) (ofChars cs)) stack := by
    rw [← htext]
    rfl
  refine ⟨off' + 1, off' + 1, ?_⟩
  rw [quote, List.cons_append, List.cons_append, List.append_assoc, run_of_more rfl]
  exact hrun.trans (run_of_accept hend rest)

/-- A key and its colon, at the start of an object or behind a comma. -/
theorem exists_run_key {mode : Mode} (hmode : mode = .firstKey ∨ mode = .key) (key : List Char) (mark : Nat)
    (members : List (Text × Doc)) (old : Text) (outer : List Frame) (off : Nat) (rest : Text) :
    ∃ off', run off ⟨mode, .object mark members old :: outer⟩ (quote key ++ byte ':' :: rest) =
      run off' ⟨.value, .object mark members (ofChars key) :: outer⟩ rest := by
  obtain ⟨off', parts, htext, hrun⟩ :=
    exists_run_string key true (.object mark members old :: outer) (off + 1) (byte '"' :: byte ':' :: rest)
  have hstart : step off ⟨mode, .object mark members old :: outer⟩ (byte '"') =
      .more ⟨.string true [] .none, .object mark members old :: outer⟩ := by
    obtain rfl | rfl := hmode <;> rfl
  have hend : step off' ⟨.string true parts .none, .object mark members old :: outer⟩ (byte '"') =
      .more ⟨.colon, .object mark members (ofChars key) :: outer⟩ := by
    rw [← htext]
    rfl
  refine ⟨off' + 1 + 1, ?_⟩
  rw [quote, List.cons_append, List.cons_append, List.append_assoc, run_of_more hstart]
  refine hrun.trans ?_
  rw [run_of_more hend]
  exact run_of_more rfl rest

/-! ## Values in lists and objects -/

/-- Inside a list or an object, what is written for the tree is read as a document that shows it, up to
what stands behind. -/
def Reads (t : Tree) : Prop :=
  ∀ (f : Frame) (outer : List Frame), outer.length + 1 + t.nesting ≤ maxDepth →
    ∀ {b : UInt8}, isDelimiter b = true → ∀ off rest, ∃ off' d, Shows d t ∧
      run off ⟨.value, f :: outer⟩ (t.text ++ b :: rest) = run off' ⟨.next, f.add d :: outer⟩ (b :: rest)

theorem reads_int (z : Int) : Reads (.int z) := by
  intro f outer _ b hb off rest
  obtain ⟨phase, hp, hl⟩ := exists_leads_int z (f :: outer)
  obtain ⟨off', hrun⟩ := hl off (b :: rest)
  rw [run_number hp hb, List.reverse_reverse] at hrun
  exact ⟨off', _, .int off' z, by rw [Tree.text]; exact hrun⟩

theorem reads_string (cs : List Char) : Reads (.string cs) := by
  intro f outer _ b _ off rest
  obtain ⟨off', mark, hrun⟩ := exists_run_quote cs (f :: outer) off (b :: rest)
  exact ⟨off', _, .string mark cs, by rw [Tree.text]; exact hrun⟩

/-- Texts that each follow a comma. -/
def afterCommas (ts : List Text) : Text := ts.flatMap (byte ',' :: ·)

theorem join_cons (a : Text) (ts : List Text) : join "," (a :: ts) = a ++ afterCommas ts := by
  induction ts generalizing a with
  | nil => rw [join, afterCommas, List.flatMap_nil, List.append_nil]
  | cons b ts ih =>
    rw [join, ih, List.append_assoc]
    · rfl
    · exact nofun

/-- What follows a value starts with a comma or with the end. -/
theorem exists_afterCommas_eq_cons {b : UInt8} (hb : isDelimiter b = true) (ts : List Text) (rest : Text) :
    ∃ c more, afterCommas ts ++ b :: rest = c :: more ∧ isDelimiter c = true := by
  cases ts with
  | nil => exact ⟨b, rest, rfl, hb⟩
  | cons t ts => exact ⟨byte ',', _, rfl, rfl⟩

theorem step_opening {stack : List Frame} (h : stack.length < maxDepth) (off : Nat) :
    step off ⟨.value, stack⟩ (byte '[') = .more ⟨.firstItem, .list (off + 1) [] :: stack⟩ ∧
      step off ⟨.value, stack⟩ (byte '\x7b') = .more ⟨.firstKey, .object (off + 1) [] [] :: stack⟩ := by
  have hif {p q : Progress} : (if maxDepth ≤ stack.length then p else q) = q := if_neg (Nat.not_le.2 h)
  exact ⟨hif, hif⟩

/-! ## Lists -/

/-- The items behind those that have been read, and the end of the list. -/
theorem exists_run_items : ∀ {ts : List Tree}, (∀ t ∈ ts, Reads t) → ∀ (mark : Nat) (items : List Doc)
    (stack : List Frame), stack.length + 1 + Tree.itemsNesting ts ≤ maxDepth → ∀ (off : Nat) (rest : Text),
      ∃ off' ds, ShowsItems ds ts ∧
        run off ⟨.next, .list mark items :: stack⟩ (afterCommas (Tree.itemTexts ts) ++ byte ']' :: rest) =
          complete off' (.list mark (items.reverse ++ ds)) stack rest
  | [], _, mark, items, stack, _, off, rest =>
    ⟨off + 1, [], .nil, by rw [List.append_nil]; exact run_of_accept rfl rest⟩
  | t :: ts, h, mark, items, stack, hn, off, rest => by
    obtain ⟨ht, hts⟩ := List.forall_mem_cons.1 h
    rw [Tree.itemsNesting] at hn
    obtain ⟨b, more, hmore, hb⟩ := exists_afterCommas_eq_cons (b := byte ']') rfl (Tree.itemTexts ts) rest
    obtain ⟨off₁, d, hd, hrun₁⟩ := ht (.list mark items) stack (by omega) hb (off + 1) more
    obtain ⟨off₂, ds, hds, hrun₂⟩ := exists_run_items hts mark (d :: items) stack (by omega) off₁ rest
    -- items are kept with the last one first, until the list is complete
    refine ⟨off₂, d :: ds, .cons hd hds, ?_⟩
    rw [← hmore] at hrun₁
    rw [List.reverse_cons, List.append_assoc] at hrun₂
    rw [Tree.itemTexts, afterCommas, List.flatMap_cons, List.cons_append, List.cons_append,
      List.append_assoc, run_of_more rfl]
    exact hrun₁.trans hrun₂

/-- A value starts with a byte that closes no list. -/
theorem exists_text_eq_cons (t : Tree) :
    ∃ b rest, t.text = b :: rest ∧ (b == byte ']') = false ∧ isSpace b = false := by
  cases t with
  | int z =>
    have hdigit : ∀ d < 10, (digitByte d == byte ']') = false ∧ isSpace (digitByte d) = false := by decide
    cases z with
    | negSucc n => exact ⟨byte '-', ofNat (n + 1), by rw [Tree.text, ofInt], rfl, rfl⟩
    | ofNat n =>
      cases hds : decimalDigits n with
      | nil => exact absurd hds (digitsOnto_ne_nil n [])
      | cons d ds =>
        have hd := hdigit d (decimalDigits_lt n d (by rw [hds]; exact List.mem_cons_self))
        exact ⟨digitByte d, ds.map digitByte, by rw [Tree.text, ofInt, ofNat, hds]; rfl, hd⟩
  | string cs => exact ⟨byte '"', _, by rw [Tree.text]; rfl, rfl, rfl⟩
  | list ts => exact ⟨byte '[', _, by rw [Tree.text]; rfl, rfl, rfl⟩
  | object ms => exact ⟨byte '\x7b', _, by rw [Tree.text]; rfl, rfl, rfl⟩

/-- The first item of a list is read like any other value. -/
theorem run_firstItem (t : Tree) (off : Nat) (stack : List Frame) (rest : Text) :
    run off ⟨.firstItem, stack⟩ (t.text ++ rest) = run off ⟨.value, stack⟩ (t.text ++ rest) := by
  obtain ⟨b, text, ht, hclose, hspace⟩ := exists_text_eq_cons t
  have hstep : step off ⟨.firstItem, stack⟩ b = step off ⟨.value, stack⟩ b := by
    simp only [step, stepBetween, hclose, hspace, Bool.false_eq_true, if_false]
  rw [ht, List.cons_append, run, run, hstep]

/-- A list from its opening bracket to its closing one. -/
theorem exists_run_list {ts : List Tree} (h : ∀ t ∈ ts, Reads t) (stack : List Frame)
    (hn : stack.length + (Tree.list ts).nesting ≤ maxDepth) (off : Nat) (rest : Text) :
    ∃ off' d, Shows d (.list ts) ∧
      run off ⟨.value, stack⟩ ((Tree.list ts).text ++ rest) = complete off' d stack rest := by
  rw [Tree.nesting] at hn
  rw [Tree.text, List.cons_append, List.cons_append, List.append_assoc,
    run_of_more (step_opening (by omega) off).1]
  cases ts with
  | nil => exact ⟨off + 2, _, .list (off + 1) .nil, run_of_accept rfl rest⟩
  | cons t ts =>
    obtain ⟨ht, hts⟩ := List.forall_mem_cons.1 h
    rw [Tree.itemsNesting] at hn
    obtain ⟨b, more, hmore, hb⟩ := exists_afterCommas_eq_cons (b := byte ']') rfl (Tree.itemTexts ts) rest
    obtain ⟨off₁, d, hd, hrun₁⟩ := ht (.list (off + 1) []) stack (by omega) hb (off + 1) more
    obtain ⟨off₂, ds, hds, hrun₂⟩ := exists_run_items hts (off + 1) [d] stack (by omega) off₁ rest
    refine ⟨off₂, _, .list (off + 1) (.cons hd hds), ?_⟩
    rw [← hmore] at hrun₁
    rw [Tree.itemTexts, join_cons, List.append_assoc, run_firstItem]
    exact hrun₁.trans hrun₂

/-! ## Objects -/

/-- One member of an object. -/
theorem Reads.exists_run_member {t : Tree} (ht : Reads t) {mode : Mode} (hmode : mode = .firstKey ∨ mode = .key)
    (key : List Char) (mark : Nat) (members : List (Text × Doc)) (old : Text) (stack : List Frame)
    (hn : stack.length + 1 + t.nesting ≤ maxDepth) {b : UInt8} (hb : isDelimiter b = true) (off : Nat)
    (rest : Text) :
    ∃ off' d, Shows d t ∧
      run off ⟨mode, .object mark members old :: stack⟩ (quote key ++ byte ':' :: t.text ++ b :: rest) =
        run off' ⟨.next, .object mark ((ofChars key, d) :: members) (ofChars key) :: stack⟩ (b :: rest) := by
  obtain ⟨off₁, hkey⟩ := exists_run_key hmode key mark members old stack off (t.text ++ b :: rest)
  obtain ⟨off₂, d, hd, hrun⟩ := ht (.object mark members (ofChars key)) stack hn hb off₁ rest
  exact ⟨off₂, d, hd, by rw [List.append_assoc]; exact hkey.trans hrun⟩

/-- The members behind those that have been read, and the end of the object. -/
theorem exists_run_members : ∀ {us : List (List Char × Tree)}, (∀ u ∈ us, Reads u.2) → ∀ (mark : Nat)
    (members : List (Text × Doc)) (old : Text) (stack : List Frame),
    stack.length + 1 + Tree.membersNesting us ≤ maxDepth → ∀ (off : Nat) (rest : Text),
      ∃ off' ms, ShowsMembers ms us ∧
        run off ⟨.next, .object mark members old :: stack⟩
            (afterCommas (Tree.memberTexts us) ++ byte '\x7d' :: rest) =
          complete off' (.object mark (members.reverse ++ ms)) stack rest
  | [], _, mark, members, old, stack, _, off, rest =>
    ⟨off + 1, [], .nil, by rw [List.append_nil]; exact run_of_accept rfl rest⟩
  | (key, t) :: us, h, mark, members, old, stack, hn, off, rest => by
    obtain ⟨ht, hus⟩ := List.forall_mem_cons.1 h
    rw [Tree.membersNesting] at hn
    obtain ⟨b, more, hmore, hb⟩ := exists_afterCommas_eq_cons (b := byte '\x7d') rfl (Tree.memberTexts us) rest
    obtain ⟨off₁, d, hd, hrun₁⟩ :=
      Reads.exists_run_member (t := t) ht (.inr rfl) key mark members old stack (by omega) hb (off + 1) more
    obtain ⟨off₂, ms, hms, hrun₂⟩ :=
      exists_run_members hus mark ((ofChars key, d) :: members) (ofChars key) stack (by omega) off₁ rest
    refine ⟨off₂, _, .cons key hd hms, ?_⟩
    rw [← hmore] at hrun₁
    rw [List.reverse_cons, List.append_assoc] at hrun₂
    rw [Tree.memberTexts, afterCommas, List.flatMap_cons, List.cons_append, List.cons_append,
      List.append_assoc, run_of_more rfl]
    exact hrun₁.trans hrun₂

/-- An object from its opening bracket to its closing one. -/
theorem exists_run_object {us : List (List Char × Tree)} (h : ∀ u ∈ us, Reads u.2) (stack : List Frame)
    (hn : stack.length + (Tree.object us).nesting ≤ maxDepth) (off : Nat) (rest : Text) :
    ∃ off' d, Shows d (.object us) ∧
      run off ⟨.value, stack⟩ ((Tree.object us).text ++ rest) = complete off' d stack rest := by
  rw [Tree.nesting] at hn
  rw [Tree.text, List.cons_append, List.cons_append, List.append_assoc,
    run_of_more (step_opening (by omega) off).2]
  cases us with
  | nil => exact ⟨off + 2, _, .object (off + 1) .nil, run_of_accept rfl rest⟩
  | cons u us =>
    obtain ⟨key, t⟩ := u
    obtain ⟨ht, hus⟩ := List.forall_mem_cons.1 h
    rw [Tree.membersNesting] at hn
    obtain ⟨b, more, hmore, hb⟩ := exists_afterCommas_eq_cons (b := byte '\x7d') rfl (Tree.memberTexts us) rest
    obtain ⟨off₁, d, hd, hrun₁⟩ :=
      Reads.exists_run_member (t := t) ht (.inl rfl) key (off + 1) [] [] stack (by omega) hb (off + 1) more
    obtain ⟨off₂, ms, hms, hrun₂⟩ :=
      exists_run_members hus (off + 1) [(ofChars key, d)] (ofChars key) stack (by omega) off₁ rest
    refine ⟨off₂, _, .object (off + 1) (.cons key hd hms), ?_⟩
    rw [← hmore] at hrun₁
    rw [Tree.memberTexts, join_cons, List.append_assoc]
    exact hrun₁.trans hrun₂

/-! ## Trees -/

mutual

theorem reads : ∀ t : Tree, Reads t
  | .int z => reads_int z
  | .string cs => reads_string cs
  | .list ts => by
    intro f outer hn b _ off rest
    exact exists_run_list (reads_items ts) (f :: outer) hn off (b :: rest)
  | .object us => by
    intro f outer hn b _ off rest
    exact exists_run_object (reads_members us) (f :: outer) hn off (b :: rest)

theorem reads_items : ∀ (ts : List Tree), ∀ t ∈ ts, Reads t
  | [] => fun _ h => absurd h List.not_mem_nil
  | t :: ts => List.forall_mem_cons.2 ⟨reads t, reads_items ts⟩

theorem reads_members : ∀ (us : List (List Char × Tree)), ∀ u ∈ us, Reads u.2
  | [] => fun _ h => absurd h List.not_mem_nil
  | (_, t) :: us => List.forall_mem_cons.2 ⟨reads t, reads_members us⟩

end

/-- An object that is written is read as a document that shows it, and nothing is left. -/
theorem exists_read_object {us : List (List Char × Tree)} (hn : (Tree.object us).nesting ≤ maxDepth) :
    ∃ d off, Shows d (.object us) ∧ read (Tree.object us).text = .ok ⟨d, off, []⟩ := by
  obtain ⟨off, d, hd, hrun⟩ := exists_run_object (reads_members us) [] (by rwa [List.length_nil, Nat.zero_add]) 0 []
  rw [List.append_nil] at hrun
  exact ⟨d, off, hd, hrun⟩

end LetIf.Json
