/-
S-expressions without their offsets. A tree has one sequence of token forms, and reading tokens of
these forms gives an s-expression of this tree: whatever lists are open around it, it is completed
and put into the innermost one. The other way round, what is read has the tokens of its tree and no others.
-/
import LetIf.Proofs.Except
import LetIf.Wat.Sexp

namespace LetIf.Wat

/-- An s-expression without offsets. -/
inductive Tree where
  | atom (text : Text)
  | string (bytes : Text)
  | list (items : List Tree)

namespace Tree

mutual

/-- The forms of the tokens of a tree. -/
def forms : Tree → List Token.Form
  | .atom t => [.atom t]
  | .string t => [.string t]
  | .list items => .opening :: formsAll items ++ [.closing]

def formsAll : List Tree → List Token.Form
  | [] => []
  | t :: rest => t.forms ++ formsAll rest

end

theorem formsAll_append (us : List Tree) : ∀ ts : List Tree, formsAll (ts ++ us) = formsAll ts ++ formsAll us
  | [] => by simp [formsAll]
  | t :: ts => by simp [formsAll, formsAll_append us ts]

end Tree

namespace Sexp

mutual

def tree : Sexp → Tree
  | .atom _ t => .atom t
  | .string _ t => .string t
  | .list _ items => .list (trees items)

def trees : List Sexp → List Tree
  | [] => []
  | s :: rest => s.tree :: trees rest

end

attribute [local simp] tree trees

theorem trees_eq_map : ∀ ss : List Sexp, trees ss = ss.map tree
  | [] => by simp
  | s :: ss => by simp [trees_eq_map ss]

theorem tree_eq_atom {s : Sexp} {t : Text} : s.tree = .atom t ↔ ∃ o, s = .atom o t := by
  cases s <;> simp [tree]

theorem tree_eq_string {s : Sexp} {t : Text} : s.tree = .string t ↔ ∃ o, s = .string o t := by
  cases s <;> simp [tree]

theorem tree_eq_list {s : Sexp} {ts : List Tree} :
    s.tree = .list ts ↔ ∃ o items, s = .list o items ∧ trees items = ts := by
  cases s <;> simp [tree, and_assoc]

theorem trees_eq_nil {ss : List Sexp} : trees ss = [] ↔ ss = [] := by
  cases ss <;> simp [trees]

theorem trees_eq_cons {ss : List Sexp} {t : Tree} {ts : List Tree} :
    trees ss = t :: ts ↔ ∃ s rest, ss = s :: rest ∧ s.tree = t ∧ trees rest = ts := by
  cases ss <;> simp [trees, and_assoc]

theorem trees_eq_singleton {ss : List Sexp} {t : Tree} (h : trees ss = [t]) :
    ∃ s, ss = [s] ∧ s.tree = t := by
  obtain ⟨s, rest, rfl, hs, hrest⟩ := trees_eq_cons.1 h
  cases trees_eq_nil.1 hrest
  exact ⟨s, rfl, hs⟩

/-- A list with an atom at its front. -/
theorem tree_eq_clause {s : Sexp} {head : Text} {ts : List Tree}
    (h : s.tree = .list (.atom head :: ts)) :
    ∃ o o₁ rest, s = .list o (.atom o₁ head :: rest) ∧ trees rest = ts := by
  obtain ⟨o, items, rfl, hitems⟩ := tree_eq_list.1 h
  obtain ⟨s₁, rest, rfl, hs₁, hrest⟩ := trees_eq_cons.1 hitems
  obtain ⟨o₁, rfl⟩ := tree_eq_atom.1 hs₁
  exact ⟨o, o₁, rest, rfl, hrest⟩

/-! ## Reading tokens -/

/-- What a complete s-expression leads to inside open lists. -/
def resume (ending : Ending) (s : Sexp) (opened : List Open) (rest : List Token) :
    Except ParseError (Sexp × List Token) :=
  match opened with
  | [] => .ok (s, rest)
  | inner :: outer => read ending (⟨inner.offset, s :: inner.items⟩ :: outer) rest

/-- Tokens whose first form is given. -/
theorem map_form_eq_cons {ts : List Token} {f : Token.Form} {fs : List Token.Form}
    (h : ts.map Token.form = f :: fs) : ∃ off rest, ts = ⟨f, off⟩ :: rest ∧ rest.map Token.form = fs := by
  obtain ⟨⟨_, off⟩, rest, rfl, rfl, hrest⟩ := List.map_eq_cons_iff.1 h
  exact ⟨off, rest, rfl, hrest⟩

mutual

/-- Tokens of a tree are read as an s-expression of this tree, and what follows them is left. -/
theorem read_of_forms (ending : Ending) : ∀ {t : Tree} {opened : List Open} {ts : List Token}
    {later : List Token.Form}, ts.map Token.form = t.forms ++ later →
    ∃ s rest, s.tree = t ∧ rest.map Token.form = later ∧
      read ending opened ts = resume ending s opened rest
  | .atom t, opened, ts, later, h => by
    simp only [Tree.forms, List.cons_append, List.nil_append] at h
    obtain ⟨off, rest, rfl, hrest⟩ := map_form_eq_cons h
    refine ⟨.atom off t, rest, by rw [tree], hrest, ?_⟩
    rw [read]
    rfl
  | .string t, opened, ts, later, h => by
    simp only [Tree.forms, List.cons_append, List.nil_append] at h
    obtain ⟨off, rest, rfl, hrest⟩ := map_form_eq_cons h
    refine ⟨.string off t, rest, by rw [tree], hrest, ?_⟩
    rw [read]
    rfl
  | .list items, opened, ts, later, h => by
    simp only [Tree.forms, List.cons_append, List.append_assoc, List.nil_append] at h
    obtain ⟨off, ts₁, rfl, h₁⟩ := map_form_eq_cons h
    -- the items go into a list that the first token opens and the last one closes
    obtain ⟨ss, ts₂, hss, h₂, hread⟩ := read_of_formsAll ending h₁
    obtain ⟨off', rest, rfl, hrest⟩ := map_form_eq_cons h₂
    refine ⟨.list off ss, rest, by rw [tree, hss], hrest, ?_⟩
    rw [read, hread, read, List.append_nil, List.reverse_reverse]
    rfl

theorem read_of_formsAll (ending : Ending) : ∀ {us : List Tree} {inner : Open} {outer : List Open}
    {ts : List Token} {later : List Token.Form}, ts.map Token.form = Tree.formsAll us ++ later →
    ∃ ss rest, trees ss = us ∧ rest.map Token.form = later ∧
      read ending (inner :: outer) ts =
        read ending (⟨inner.offset, ss.reverse ++ inner.items⟩ :: outer) rest
  | [], inner, outer, ts, later, h => by
    simp only [Tree.formsAll, List.nil_append] at h
    exact ⟨[], ts, by rw [trees], h, rfl⟩
  | u :: us, inner, outer, ts, later, h => by
    simp only [Tree.formsAll, List.append_assoc] at h
    obtain ⟨s, ts₁, hs, h₁, hread⟩ := read_of_forms ending h
    obtain ⟨ss, rest, hss, hrest, hread'⟩ := read_of_formsAll ending h₁
    refine ⟨s :: ss, rest, by rw [trees, hs, hss], hrest, ?_⟩
    rw [hread]
    show read ending (⟨inner.offset, s :: inner.items⟩ :: outer) ts₁ = _
    rw [hread', List.reverse_cons, List.append_assoc]
    rfl

end

/-- A text that holds the tokens of a tree and nothing else is an s-expression of this tree. -/
theorem ofTokens_of_forms {t : Tree} {ts : List Token} (h : ts.map Token.form = t.forms) (last : Nat) :
    ∃ s, ofTokens ⟨ts, .endOfInput last⟩ = .ok s ∧ s.tree = t := by
  rw [← List.append_nil t.forms] at h
  obtain ⟨s, rest, hs, hrest, hread⟩ := read_of_forms (.endOfInput last) h
  rw [List.map_eq_nil_iff] at hrest
  subst hrest
  exact ⟨s, bind_eq_ok.2 ⟨(s, []), hread, rfl⟩, hs⟩

/-! ## What has been read -/

/-- The forms of the tokens that open lists have taken so far. -/
def pending : List Open → List Token.Form
  | [] => []
  | inner :: outer => pending outer ++ .opening :: Tree.formsAll (trees inner.items.reverse)

/-- A complete s-expression gives its tokens to the list it is put into. -/
theorem pending_cons (s : Sexp) (inner : Open) (outer : List Open) :
    pending (⟨inner.offset, s :: inner.items⟩ :: outer) = pending (inner :: outer) ++ s.tree.forms := by
  simp only [pending, trees_eq_map, List.reverse_cons, List.map_append, List.map_cons, List.map_nil,
    Tree.formsAll_append, Tree.formsAll, List.append_nil, List.append_assoc, List.cons_append]

/-- No token is lost: those of the open lists and those that are read make up the s-expression and what is left. -/
theorem forms_of_read {ending : Ending} : ∀ (ts : List Token) (opened : List Open) {r : Sexp × List Token},
    read ending opened ts = .ok r →
      pending opened ++ ts.map Token.form = r.1.tree.forms ++ r.2.map Token.form
  | [], opened, r, h => by
    rcases ending with _ | _ <;> rcases opened with _ | _ <;> cases h
  | ⟨form, off⟩ :: ts, opened, r, h => by
    have hresume : ∀ (s : Sexp) (opened : List Open), resume ending s opened ts = .ok r →
        pending opened ++ (s.tree.forms ++ ts.map Token.form) = r.1.tree.forms ++ r.2.map Token.form := by
      intro s opened h
      rcases opened with _ | ⟨inner, outer⟩
      · cases h
        rfl
      · have hread := forms_of_read ts (⟨inner.offset, s :: inner.items⟩ :: outer) h
        rw [pending_cons, List.append_assoc] at hread
        exact hread
    rw [List.map_cons]
    cases form with
    | opening =>
      have hread := forms_of_read ts (⟨off, []⟩ :: opened) h
      simp only [pending, List.reverse_nil, trees, Tree.formsAll, List.append_assoc, List.cons_append,
        List.nil_append] at hread
      exact hread
    | closing =>
      rcases opened with _ | ⟨inner, outer⟩
      · cases h
      · have hread := hresume (.list inner.offset inner.items.reverse) outer h
        simp only [tree, Tree.forms, List.append_assoc, List.cons_append, List.nil_append] at hread
        simp only [pending, List.append_assoc, List.cons_append]
        exact hread
    | string bytes =>
      have hread := hresume (.string off bytes) opened h
      simp only [tree, Tree.forms, List.cons_append, List.nil_append] at hread
      exact hread
    | atom text =>
      have hread := hresume (.atom off text) opened h
      simp only [tree, Tree.forms, List.cons_append, List.nil_append] at hread
      exact hread

/-- What is read as an s-expression has the tokens of its tree, and then it ends. -/
theorem forms_of_ofTokens {ts : Tokens} {s : Sexp} (h : ofTokens ts = .ok s) :
    ∃ last, ts.ending = .endOfInput last ∧ ts.list.map Token.form = s.tree.forms := by
  obtain ⟨⟨s', rest⟩, hread, h⟩ := bind_eq_ok.1 h
  have hforms := forms_of_read _ _ hread
  rcases rest with _ | ⟨t, rest⟩
  · rcases hending : ts.ending with last | ⟨start, e⟩ <;> rw [hending] at h
    · cases h
      simp only [pending, List.nil_append, List.map_nil, List.append_nil] at hforms
      exact ⟨last, rfl, hforms⟩
    · cases h
  · cases h

end Sexp

end LetIf.Wat
