/-
The positions in a tree that was read. Each node stands where its own first token stands: the literal or the
name itself, or the `if` or `let`, and never a parenthesis around it. Since a node's first token comes
before those of its children, and the tokens of one child before those of the next, the positions increase
in preorder; they are a part of the positions of the tokens, in the same order.
-/
import LetIf.Proofs.Source.Cutting
import LetIf.Proofs.Source.Derivation

namespace LetIf

namespace Expr

variable {A : Type}

/-- The expression and those inside it: each before its parts, and these from the left. -/
def nodes : Expr A → List (Expr A)
  | .lit a v => [.lit a v]
  | .var a x => [.var a x]
  | .cond a c y n => .cond a c y n :: (c.nodes ++ y.nodes ++ n.nodes)
  | .bind a x b k => .bind a x b k :: (b.nodes ++ k.nodes)
  | .hole => [.hole]

/-- The annotations in the order of the nodes. -/
def annotations (e : Expr A) : List A := e.nodes.filterMap ann?

theorem annotations_cond (a : A) (c y n : Expr A) :
    (Expr.cond a c y n).annotations = a :: (c.annotations ++ y.annotations ++ n.annotations) := by
  simp only [annotations, nodes, ann?, List.filterMap_cons, List.filterMap_append]

theorem annotations_bind (a : A) (x : Ident) (b k : Expr A) :
    (Expr.bind a x b k).annotations = a :: (b.annotations ++ k.annotations) := by
  simp only [annotations, nodes, ann?, List.filterMap_cons, List.filterMap_append]

end Expr

namespace Source

open Text

/-- The expression begins with this token, when no parentheses stand around it. -/
inductive Heads {A : Type} : Lexeme → Expr A → Prop
  | integer {digits : Text} {n : Int32} {a : A} (hn : n.toInt = decimalValue digits) :
      Heads ⟨.integer, digits⟩ (.lit a (some (.int n)))
  | trueWord {a : A} : Heads ⟨.word, "True"⟩ (.lit a (some (.bool true)))
  | falseWord {a : A} : Heads ⟨.word, "False"⟩ (.lit a (some (.bool false)))
  | ident {a : A} (x : Ident) : Heads ⟨.word, x.text⟩ (.var a x)
  | cond {a : A} {c y n : Expr A} : Heads ⟨.word, "if"⟩ (.cond a c y n)
  | bind {a : A} {x : Ident} {b k : Expr A} : Heads ⟨.word, "let"⟩ (.bind a x b k)

/-- The node has the position of a token that it begins with. -/
def Placed (ts : List Token) (e : Expr Position) : Prop :=
  ∃ t ∈ ts, Heads t.lexeme e ∧ e.ann? = some t.pos

/-- What is placed among some of the tokens is placed among all. -/
theorem Placed.mono {ts ts' : List Token} {es : List (Expr Position)} (hsub : ∀ t ∈ ts, t ∈ ts')
    (h : ∀ e ∈ es, Placed ts e) : ∀ e ∈ es, Placed ts' e := by
  intro e he
  obtain ⟨t, ht, hhead, hpos⟩ := h e he
  exact ⟨t, hsub t ht, hhead, hpos⟩

namespace Spans

variable {ts : List Token} {e : Expr Position}

theorem placed (h : Spans ts e) : ∀ e' ∈ e.nodes, Placed ts e' := by
  induction h with
  | @integer t n ht hlen hmax hn =>
    refine List.forall_mem_singleton.2 ⟨t, List.mem_singleton_self t, ?_, rfl⟩
    rw [Token.lexeme, ht]
    exact .integer hn
  | @trueWord t ht => exact List.forall_mem_singleton.2 ⟨t, List.mem_singleton_self t, ht ▸ .trueWord, rfl⟩
  | @falseWord t ht => exact List.forall_mem_singleton.2 ⟨t, List.mem_singleton_self t, ht ▸ .falseWord, rfl⟩
  | @ident t x ht => exact List.forall_mem_singleton.2 ⟨t, List.mem_singleton_self t, ht ▸ .ident x, rfl⟩
  | parens _ _ _ ih => exact Placed.mono (fun _ hs => by simp [hs]) ih
  | @cond t _ _ cs ys ns _ _ _ ht _ _ _ _ _ ihc ihy ihn =>
    refine List.forall_mem_cons.2 ⟨⟨t, by simp, ht ▸ .cond, rfl⟩, ?_⟩
    simp only [List.forall_mem_append]
    refine ⟨⟨Placed.mono ?_ ihc, Placed.mono ?_ ihy⟩, Placed.mono ?_ ihn⟩ <;> (intro s hs; simp [hs])
  | @bind t _ _ _ bs ks _ _ _ ht _ _ _ _ _ ihb ihk =>
    refine List.forall_mem_cons.2 ⟨⟨t, by simp, ht ▸ .bind, rfl⟩, ?_⟩
    simp only [List.forall_mem_append]
    refine ⟨Placed.mono ?_ ihb, Placed.mono ?_ ihk⟩ <;> (intro s hs; simp [hs])

/-- The nodes come in the order of their tokens. -/
theorem annotations_sublist (h : Spans ts e) : e.annotations.Sublist (ts.map Token.pos) := by
  induction h with
  | integer | trueWord | falseWord | ident => exact .refl _
  | parens _ _ _ ih =>
    rw [List.map_append, List.map_cons]
    exact (ih.cons _).trans (List.sublist_append_left _ _)
  | @cond t t₁ t₂ cs ys ns c y n _ _ _ _ _ _ ihc ihy ihn =>
    rw [Expr.annotations_cond]
    simp only [List.map_append, List.map_cons, List.cons_append]
    exact .cons_cons _ ((ihc.append (ihy.cons _)).append (ihn.cons _))
  | @bind t tx tq t₁ bs ks b k _ _ _ _ _ _ _ ihb ihk =>
    rw [Expr.annotations_bind]
    simp only [List.map_append, List.map_cons, List.cons_append]
    exact .cons_cons _ (.cons _ (.cons _ (ihb.append (ihk.cons _))))

end Spans

theorem spans_of_parse {src : Text} {e : Expr Position} (h : parse src = .ok e) : Spans (tokens src).list e := by
  obtain ⟨_, _, -, hread⟩ := exprOfTokens_eq_ok.1 h
  obtain ⟨front, hfront, hspans⟩ := spans_of_expr hread
  rw [List.append_nil] at hfront
  rwa [hfront]

/-- The positions in a tree are true: the tree is spanned by the tokens of its source, each node has the
position of the first byte of its own first token, told by the bytes before it, and the positions increase
from node to node. -/
theorem parse_positions {src : Text} {e : Expr Position} (h : parse src = .ok e) :
    Spans (tokens src).list e ∧
      (∀ e' ∈ e.nodes, ∃ t ∈ (tokens src).list, ∃ before after, Heads t.lexeme e' ∧
        src = before ++ (t.text ++ after) ∧ t.pos = .behind before ∧ e'.ann? = some t.pos) ∧
      e.annotations.Pairwise (· < ·) := by
  have hspans := spans_of_parse h
  have hcuts := cuts_tokens src
  refine ⟨hspans, fun e' he' => ?_, hcuts.pairwise_pos.sublist hspans.annotations_sublist⟩
  obtain ⟨t, ht, hhead, hann⟩ := hspans.placed e' he'
  obtain ⟨before, after, hsrc, hpos⟩ := hcuts.token_pos ht
  exact ⟨t, ht, before, after, hhead, hsrc, hpos, hann⟩

/-- A name in parentheses on the second line of a source stands behind the parenthesis. -/
theorem parse_positions_parens : ∃ e, parse "if True then\n(y)else 2" = .ok e ∧
    e.annotations = [⟨1, 1⟩, ⟨1, 4⟩, ⟨2, 2⟩, ⟨2, 9⟩] ∧ e.annotations.Pairwise (· < ·) := by
  have htokens : tokens "if True then\n(y)else 2" = ⟨[⟨.word, "if", ⟨1, 1⟩⟩, ⟨.word, "True", ⟨1, 4⟩⟩,
      ⟨.word, "then", ⟨1, 9⟩⟩, ⟨.opening, "(", ⟨2, 1⟩⟩, ⟨.word, "y", ⟨2, 2⟩⟩, ⟨.closing, ")", ⟨2, 3⟩⟩,
      ⟨.word, "else", ⟨2, 4⟩⟩, ⟨.integer, "2", ⟨2, 9⟩⟩], .endOfInput ⟨2, 10⟩⟩ := by decide +kernel
  have hparse : parse "if True then\n(y)else 2" = .ok (.cond ⟨1, 1⟩ (.lit ⟨1, 4⟩ (some (.bool true)))
      (.var ⟨2, 2⟩ nameY) (.lit ⟨2, 9⟩ (some (.int 2)))) := by
    rw [parse, htokens]
    refine exprOfTokens_eq_ok.2 ⟨_, by decide, rfl, (expr_cond_eq_ok rfl).2 ?_⟩
    exact ⟨_, _, _, _, _, _, _, _, by decide, by decide, expr_true rfl, rfl,
      (expr_opening_eq_ok rfl).2 ⟨_, by decide, expr_ident nameY rfl, rfl⟩, rfl,
      (expr_integer_eq_ok rfl).2 ⟨2, by decide, by decide, by decide, rfl, rfl⟩, rfl⟩
  exact ⟨_, hparse, rfl, (parse_positions hparse).2.2⟩

end Source

end LetIf
