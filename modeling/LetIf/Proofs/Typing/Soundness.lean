/-
Type soundness. An expression with a kind evaluates, in any environment whose literals have the
kinds the typing rules assume, to a literal of that kind; so what elaborates never meets a free
variable or a condition that is not a boolean, and neither does its elaboration. The invariant is
carried by the typing rules and not by the models in the elaborated tree, since a subexpression that
has been checked carries one model at all of its nodes.
-/
import LetIf.Proofs.Eval
import LetIf.Proofs.Typing.Rules

namespace LetIf

variable {A : Type}

/-- A literal with a value of the given kind. -/
def Literal.OfKind (l : Literal A) : Kind → Prop
  | .bool => ∃ b, l.value = some (.bool b)
  | .int => ∃ n, l.value = some (.int n)

theorem Literal.ofKind_mk (a : A) (v : Value) : (Literal.mk a (some v)).OfKind v.kind := by
  cases v with
  | bool b => exact ⟨b, rfl⟩
  | int n => exact ⟨n, rfl⟩

namespace Typing

/-! ## Environments -/

/-- Every variable that has a kind in `Γ` stands in `env` for a literal of this kind. -/
def Fits (Γ : Env Kind) (env : Env (Literal A)) : Prop := Env.Rel (fun K l => l.OfKind K) Γ env

theorem Fits.cons {Γ : Env Kind} {env : Env (Literal A)} (h : Fits Γ env) {K : Kind} {l : Literal A}
    (hl : l.OfKind K) (x : Ident) : Fits ((x, K) :: Γ) ((x, l) :: env) :=
  Env.Rel.cons h hl x

/-! ## Evaluation of typed expressions -/

/-- Progress and preservation in one: an expression of kind `K` evaluates to a literal of this
kind. -/
theorem HasKind.evaluateIn {Γ : Env Kind} {e : Expr A} {K : Kind} (h : HasKind Γ e K) :
    ∀ {env : Env (Literal A)}, Fits Γ env → ∃ l, e.evaluateIn env = .ok l ∧ l.OfKind K := by
  induction h with
  | lit a v => intro env _; exact ⟨⟨a, some v⟩, rfl, Literal.ofKind_mk a v⟩
  | var a hx =>
    intro env hf
    obtain ⟨l, hl, hk⟩ := hf _ _ hx
    exact ⟨l, Expr.evaluateIn_var_eq_ok.2 hl, hk⟩
  | @cond _ a c y n K _ _ _ ihc ihy ihn =>
    intro env hf
    obtain ⟨lc, hc, b, hb⟩ := ihc hf
    obtain ⟨l, hl, hk⟩ : ∃ l, (if b then y else n).evaluateIn env = .ok l ∧ l.OfKind K := by
      cases b with
      | true => exact ihy hf
      | false => exact ihn hf
    exact ⟨l, Expr.evaluateIn_cond_eq_ok.2 ⟨lc, b, hc, hb, hl⟩, hk⟩
  | bind a _ _ ihb ihk =>
    intro env hf
    obtain ⟨lb, hb, hk⟩ := ihb hf
    obtain ⟨l, hl, hk⟩ := ihk (hf.cons hk _)
    exact ⟨l, Expr.evaluateIn_bind_eq_ok.2 ⟨lb, hb, hl⟩, hk⟩

theorem hasKind_of_infer_nil {e : Expr A} {t : Elaborated A} (h : infer [] e = .ok t) :
    HasKind [] e t.model.kind :=
  @hasKind_of_infer A e [] t h

/-- The elaborated tree has the kind of the expression. -/
theorem hasKind_tree {e : Expr A} {t : Elaborated A} (h : infer [] e = .ok t) :
    HasKind [] t.tree t.model.kind := by
  have he : HasKind [] e.erase t.model.kind := (hasKind_of_infer_nil h).map _
  rw [← erase_of_infer h] at he
  exact he.of_map

/-- Type soundness: when an expression elaborates, its evaluation and that of the elaborated tree
end in a literal, whose value is of the kind of the root's model. -/
theorem evaluate_of_infer {e : Expr A} {t : Elaborated A} (h : infer [] e = .ok t) :
    t.tree.ann? = some t.model ∧ (∃ l, e.evaluate = .ok l ∧ l.OfKind t.model.kind) ∧
      ∃ l, t.tree.evaluate = .ok l ∧ l.OfKind t.model.kind :=
  ⟨ann?_of_infer h, (hasKind_of_infer_nil h).evaluateIn Env.Rel.nil,
    (hasKind_tree h).evaluateIn Env.Rel.nil⟩

/-- A conditional whose predicate binds a number before it comes to a boolean. -/
def numberInPredicate : Expr Unit :=
  .cond () (.bind () nameX (.lit () (some (.int 5))) (.lit () (some (.bool true))))
    (.lit () (some (.int 1))) (.lit () (some (.int 2)))

/-- Its elaboration: the number carries the model of the predicate. -/
def numberInPredicateElaborated : Elaborated Unit :=
  ⟨⟨.int, ()⟩, .cond ⟨.int, ()⟩
    (.bind ⟨.bool, ()⟩ nameX (.lit ⟨.bool, ()⟩ (some (.int 5)))
      (.lit ⟨.bool, ()⟩ (some (.bool true))))
    (.lit ⟨.int, ()⟩ (some (.int 1))) (.lit ⟨.int, ()⟩ (some (.int 2)))⟩

theorem evaluate_numberInPredicate :
    infer [] numberInPredicate = .ok numberInPredicateElaborated ∧
      (∃ l, numberInPredicate.evaluate = .ok l ∧ l.OfKind .int) ∧
      ∃ l, numberInPredicateElaborated.tree.evaluate = .ok l ∧ l.OfKind .int :=
  ⟨rfl, (@evaluate_of_infer _ _ numberInPredicateElaborated rfl).2⟩

end Typing

end LetIf
