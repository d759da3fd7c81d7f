/-
Lexical look-up in scopes that are shared. A history adds scopes below any that are there and binds
names in any of them, in any order; what a name means in a scope is what the last binding gave it in
the nearest of the scope and its ancestors that ever bound it. So a binding is seen in its scope and in
those descendants that reach the scope without meeting the name before, and nowhere else, however
long they have been there.

The invariant is that a parent is older than its children: the line of ancestors descends, so it ends,
and looking up in the scopes that are older than a child is looking up in all of them.
-/
import LetIf.Proofs.Expr.Basic
import Mathlib.Tactic

namespace LetIf.Scopes

variable {V : Type}

/-! ## Scopes by their numbers -/

def scope? : List (Scope V) → (id : Nat) → Option (Scope V)
  | [], _ => none
  | scope :: older, id => if id = older.length then some scope else scope? older id

theorem lt_of_scope? {id : Nat} {scope : Scope V} : ∀ {l : List (Scope V)}, scope? l id = some scope →
    id < l.length
  | [], h => by cases h
  | _ :: older, h => by
    rw [scope?] at h
    rw [List.length_cons]
    split at h
    · omega
    · exact Nat.lt_succ_of_lt (lt_of_scope? h)

theorem length_setIn (id : Nat) (x : Ident) (v : V) : ∀ l : List (Scope V),
    (setIn l id x v).length = l.length
  | [] => rfl
  | scope :: older => by
    rw [setIn]
    split
    · rfl
    · rw [List.length_cons, List.length_cons, length_setIn id x v older]

theorem scope?_setIn (s id : Nat) (x : Ident) (v : V) : ∀ l : List (Scope V), scope? (setIn l s x v) id =
    (scope? l id).map fun scope =>
      if id = s then { scope with bindings := (x, v) :: scope.bindings } else scope
  | [] => rfl
  | scope :: older => by
    rw [setIn]
    by_cases hs : s = older.length
    · rw [if_pos hs, scope?, scope?]
      by_cases hid : id = older.length
      · rw [if_pos hid, if_pos hid, Option.map_some, if_pos (hid.trans hs.symm)]
      · have hne : ¬ id = s := fun h => hid (h.trans hs)
        simp only [if_neg hid, if_neg hne, Option.map_id']
    · rw [if_neg hs, scope?, scope?, length_setIn]
      by_cases hid : id = older.length
      · have hne : ¬ id = s := fun h => hs (h.symm.trans hid)
        rw [if_pos hid, if_pos hid, Option.map_some, if_neg hne]
      · rw [if_neg hid, if_neg hid, scope?_setIn s id x v older]

/-- Every parent is older than its children. -/
def ParentsOlder (l : List (Scope V)) : Prop :=
  ∀ id scope p, scope? l id = some scope → scope.parent = some p → p < id

/-- The step of a look-up: the scope's own binding, or what the name means in its parent. -/
theorem find_eq {id : Nat} {scope : Scope V} (x : Ident) : ∀ {l : List (Scope V)}, ParentsOlder l →
    scope? l id = some scope →
      find l id x = (scope.bindings.get? x).or (scope.parent.bind fun p => find l p x)
  | [], _, h => by cases h
  | first :: older, hl, h => by
    -- what is older than the newest scope does not see it
    have hskip : ∀ p, p < older.length → find (first :: older) p x = find older p x := fun p hp => by
      rw [find, if_neg (Nat.ne_of_lt hp)]
    have hparent : ∀ p, scope.parent = some p → p < id := fun p => hl id scope p h
    have hrest : (scope.parent.bind fun p => find (first :: older) p x) =
        scope.parent.bind fun p => find older p x := by
      cases hp : scope.parent with
      | none => rfl
      | some p =>
        have hid : id < older.length + 1 := lt_of_scope? h
        have := hparent p hp
        exact hskip p (by omega)
    rw [hrest]
    rw [scope?] at h
    rw [find]
    split at h
    · rename_i hid
      cases h
      rw [if_pos hid]
      cases scope.bindings.get? x <;> rfl
    · rename_i hid
      have holder : ParentsOlder older := fun id' scope' p h' hp' => by
        have hlt := lt_of_scope? h'
        exact hl id' scope' p (by rw [scope?, if_neg (Nat.ne_of_lt hlt)]; exact h') hp'
      rw [if_neg hid]
      exact find_eq x holder h

/-! ## Histories -/

/-- What was done to a collection of `n` scopes: scopes were added, without a parent or below one that
was there, and names were bound in scopes that were there. Looking a name up changes nothing. -/
inductive History (V : Type) : Nat → Type where
  | start : History V 0
  | add {n : Nat} (h : History V n) (parent : Option (Fin n)) : History V (n + 1)
  | set {n : Nat} (h : History V n) (id : Fin n) (x : Ident) (v : V) : History V n

namespace History

variable {n : Nat}

/-- The scopes after a history. -/
def scopes : {n : Nat} → History V n → Scopes V
  | _, start => {}
  | _, add h parent => (h.scopes.add (parent.map Fin.val)).2
  | _, set h id x v => h.scopes.set id x v

/-- What a name means in a scope after a history. -/
def get? (h : History V n) (id : Option (Fin n)) (x : Ident) : Option V :=
  h.scopes.get? (id.map Fin.val) x

/-- Below which scope a scope was added. -/
def parent? : {n : Nat} → History V n → (id : Nat) → Option Nat
  | _, start, _ => none
  | n + 1, add h parent, id => if id = n then parent.map Fin.val else h.parent? id
  | _, set h _ _ _, id => h.parent? id

/-- What the last binding of a name in a scope gave it. -/
def last? : {n : Nat} → History V n → (id : Nat) → Ident → Option V
  | _, start, _, _ => none
  | _, add h _, id, x => h.last? id x
  | _, set h s y v, id, x => if id = s ∧ x = y then some v else h.last? id x

/-- A scope, its parent, the parent of that and so on. -/
inductive Line (h : History V n) : Option Nat → List Nat → Prop
  | nil : Line h none []
  | cons {id : Nat} {line : List Nat} : Line h (h.parent? id) line → Line h (some id) (id :: line)

/-- The scope is `s`, or it has no binding of the name and its parent sees that of `s`. -/
inductive Sees (h : History V n) (x : Ident) (s : Nat) : Option Nat → Prop
  | here : Sees h x s (some s)
  | above {id : Nat} : h.last? id x = none → Sees h x s (h.parent? id) → Sees h x s (some id)

/-! ## What a history leaves -/

theorem count_scopes (h : History V n) : h.scopes.count = n := by
  induction h with
  | start => rfl
  | add h parent ih => exact congrArg (· + 1) ih
  | set h s x v ih =>
    show (setIn h.scopes.newestFirst s x v).length = _
    rw [length_setIn]
    exact ih

theorem parent?_lt (h : History V n) {id p : Nat} (hp : h.parent? id = some p) : p < id := by
  induction h with
  | start => cases hp
  | add h parent ih =>
    rw [parent?] at hp
    split at hp
    · rename_i hid
      obtain ⟨q, -, rfl⟩ := Option.map_eq_some_iff.1 hp
      rw [hid]
      exact q.isLt
    · exact ih hp
  | set h s x v ih => exact ih hp

/-- A scope that is not there has no bindings. -/
theorem last?_of_le (h : History V n) {id : Nat} (hid : n ≤ id) (x : Ident) : h.last? id x = none := by
  induction h with
  | start => rfl
  | add h parent ih => exact ih (Nat.le_of_succ_le hid)
  | set h s y v ih =>
    have hs : ¬ (id = s ∧ x = y) := fun h => Nat.not_lt_of_ge hid (h.1 ▸ s.isLt)
    rw [last?, if_neg hs]
    exact ih hid

/-- Each scope has the parent below which it was added, and its names mean what they were last given. -/
theorem exists_scope? (h : History V n) {id : Nat} (hid : id < n) :
    ∃ scope, scope? h.scopes.newestFirst id = some scope ∧ scope.parent = h.parent? id ∧
      ∀ x, scope.bindings.get? x = h.last? id x := by
  induction h with
  | start => cases hid
  | @add n h parent ih =>
    have hcount : h.scopes.newestFirst.length = n := h.count_scopes
    have hnew : scope? (h.add parent).scopes.newestFirst id =
        if id = n then some ⟨parent.map Fin.val, []⟩ else scope? h.scopes.newestFirst id := by
      show scope? (_ :: _) id = _
      rw [scope?, hcount]
    by_cases hn : id = n
    · refine ⟨⟨parent.map Fin.val, []⟩, by rw [hnew, if_pos hn], by rw [parent?, if_pos hn], fun x => ?_⟩
      exact (h.last?_of_le (Nat.le_of_eq hn.symm) x).symm
    · obtain ⟨scope, hscope, hparent, hlast⟩ := ih (by omega)
      exact ⟨scope, by rw [hnew, if_neg hn, hscope], by rw [parent?, if_neg hn, hparent], hlast⟩
  | set h s y v ih =>
    obtain ⟨scope, hscope, hparent, hlast⟩ := ih hid
    have hset : scope? (h.set s y v).scopes.newestFirst id = _ := scope?_setIn s id y v _
    rw [hscope, Option.map_some] at hset
    refine ⟨_, hset, ?_, fun x => ?_⟩
    · split <;> exact hparent
    · rw [last?]
      by_cases hs : id = s
      · rw [if_pos hs, Env.get?_cons, hlast]
        simp only [hs, true_and]
      · rw [if_neg hs, if_neg fun h => hs h.1, hlast]

theorem parentsOlder (h : History V n) : ParentsOlder h.scopes.newestFirst := by
  intro id scope p hscope hp
  have hid : id < n := h.count_scopes ▸ lt_of_scope? hscope
  obtain ⟨scope', hscope', hparent, -⟩ := h.exists_scope? hid
  obtain rfl : scope' = scope := Option.some.inj (hscope'.symm.trans hscope)
  exact h.parent?_lt (hparent.symm.trans hp)

/-- The step of a look-up, by what was done. -/
theorem get?_some (h : History V n) {id : Nat} (hid : id < n) (x : Ident) :
    h.scopes.get? (some id) x = (h.last? id x).or (h.scopes.get? (h.parent? id) x) := by
  obtain ⟨scope, hscope, hparent, hlast⟩ := h.exists_scope? hid
  rw [← hparent, ← hlast]
  exact find_eq x h.parentsOlder hscope

/-! ## Lines of ancestors -/

/-- Every line of ancestors ends. -/
theorem exists_line (h : History V n) : ∀ id : Option Nat, ∃ line, h.Line id line
  | none => ⟨[], .nil⟩
  | some id => by
    induction id using Nat.strong_induction_on with
    | _ id ih =>
      cases hp : h.parent? id with
      | none => exact ⟨[id], .cons (hp ▸ .nil)⟩
      | some p =>
        obtain ⟨line, hline⟩ := ih p (h.parent?_lt hp)
        exact ⟨id :: line, .cons (hp ▸ hline)⟩

variable {h : History V n}

theorem Line.unique {id : Option Nat} {line line' : List Nat} (hl : h.Line id line) (hl' : h.Line id line') :
    line' = line := by
  induction hl generalizing line' with
  | nil => cases hl'; rfl
  | cons _ ih =>
    cases hl' with
    | cons hrest => rw [ih hrest]

/-- Ancestors are older than what is below them. -/
theorem Line.descends {id : Option Nat} {line : List Nat} (hl : h.Line id line) : line.Pairwise (· > ·) ∧
    ∀ a ∈ line, ∃ top, id = some top ∧ a ≤ top := by
  induction hl with
  | nil => exact ⟨.nil, fun a ha => by cases ha⟩
  | @cons id line _ ih =>
    obtain ⟨hpairs, htop⟩ := ih
    have hlt : ∀ a ∈ line, a < id := fun a ha => by
      obtain ⟨p, hp, hle⟩ := htop a ha
      exact Nat.lt_of_le_of_lt hle (h.parent?_lt hp)
    refine ⟨.cons hlt hpairs, fun a ha => ⟨id, rfl, ?_⟩⟩
    obtain rfl | ha := List.mem_cons.1 ha
    · exact Nat.le_refl a
    · exact Nat.le_of_lt (hlt a ha)

/-- A name means what it was last given in the nearest scope of the line that ever bound it. -/
theorem Line.get?_eq {id : Option Nat} {line : List Nat} (hl : h.Line id line) (hid : ∀ i, id = some i → i < n)
    (x : Ident) : h.scopes.get? id x = line.findSome? fun a => h.last? a x := by
  induction hl with
  | nil => rfl
  | @cons id line _ ih =>
    have hlt := hid id rfl
    have hparent : ∀ p, h.parent? id = some p → p < n := fun p hp => Nat.lt_trans (h.parent?_lt hp) hlt
    rw [h.get?_some hlt, ih hparent, List.findSome?_cons]
    cases h.last? id x <;> rfl

/-! ## What a binding changes -/

section Binding

variable {s : Fin n} {x : Ident} {v : V}

theorem Sees.get?_set {id : Option Nat} (hs : h.Sees x s id) (hid : ∀ i, id = some i → i < n) :
    (h.set s x v).scopes.get? id x = some v := by
  induction hs with
  | here => rw [get?_some _ s.isLt, last?, if_pos ⟨rfl, rfl⟩, Option.some_or]
  | @above id hnone _ ih =>
    have hlt := hid id rfl
    rw [get?_some _ hlt, last?]
    split
    · exact Option.some_or
    · rw [hnone, Option.none_or]
      exact ih fun p hp => Nat.lt_trans (h.parent?_lt hp) hlt

/-- Where the binding is not seen, every name means what it did. -/
theorem Line.get?_set {id : Option Nat} {line : List Nat} (hl : h.Line id line) (hid : ∀ i, id = some i → i < n)
    {y : Ident} (hs : ¬ (y = x ∧ h.Sees x s id)) :
    (h.set s x v).scopes.get? id y = h.scopes.get? id y := by
  induction hl with
  | nil => rfl
  | @cons id line _ ih =>
    have hlt := hid id rfl
    have hother : ¬ (id = s ∧ y = x) := by
      rintro ⟨rfl, rfl⟩
      exact hs ⟨rfl, .here⟩
    have hlast : (h.set s x v).last? id y = h.last? id y := by rw [last?, if_neg hother]
    rw [get?_some _ hlt, h.get?_some hlt, hlast]
    cases hnone : h.last? id y with
    | some w => rw [Option.some_or, Option.some_or]
    | none =>
      refine congrArg _ (ih (fun p hp => Nat.lt_trans (h.parent?_lt hp) hlt) ?_)
      rintro ⟨rfl, hsees⟩
      exact hs ⟨rfl, .above hnone hsees⟩

end Binding

/-- Scopes implement lexical look-up, however they are shared. After any history a scope has one line
of ancestors, which descends to the oldest; a name means what it was last given in the nearest scope of
the line that ever bound it, and nothing if none did. Binding a name in a scope changes what is found
for that name only, and only where the binding is seen: in the scope, and in those below it that have
no binding of the name on the way; there it is what is found. -/
theorem lexical (h : History V n) (t : Option (Fin n)) :
    (∃ line, h.Line (t.map Fin.val) line ∧ (∀ line', h.Line (t.map Fin.val) line' → line' = line) ∧
      line.Pairwise (· > ·) ∧ ∀ x, h.get? t x = line.findSome? fun a => h.last? a x) ∧
    ∀ (s : Fin n) (x y : Ident) (v : V),
      ((h.set s x v).get? t y ≠ h.get? t y → y = x ∧ h.Sees x s (t.map Fin.val)) ∧
      (h.Sees x s (t.map Fin.val) → (h.set s x v).get? t x = some v) := by
  obtain ⟨line, hline⟩ := h.exists_line (t.map Fin.val)
  have hid : ∀ i, t.map Fin.val = some i → i < n := by
    intro i hi
    obtain ⟨a, -, rfl⟩ := Option.map_eq_some_iff.1 hi
    exact a.isLt
  refine ⟨⟨line, hline, fun line' => hline.unique, hline.descends.1, hline.get?_eq hid⟩, fun s x y v => ⟨?_, ?_⟩⟩
  · intro hne
    by_contra hs
    exact hne (hline.get?_set hid hs)
  · intro hs
    exact hs.get?_set hid

/-- What is bound in a scope after children were added is seen by the child that does not bind the
name, and not by the one that does. -/
example : let h : History Nat 3 :=
      ((((History.start.add none).add (some 0)).add (some 0)).set 2 nameX 5).set 0 nameX 7
    h.get? (some 1) nameX = some 7 ∧ h.get? (some 2) nameX = some 5 ∧ h.get? none nameX = none := by
  decide

end History

end LetIf.Scopes
