/-
Expressions up to the names of their bindings. The shape of an expression has a number in the place of
a variable, that of the bindings between it and its own; annotations and the names of bindings are gone.
Expressions of one shape are lowered to the same code, get the same verdict from elaboration, and have
the same value. The passes resolve names one by one, so two expressions are followed together: what
the names around them stand for is aligned position by position, under whatever names.
-/
import LetIf.Proofs.Expr.Naturality
import LetIf.Proofs.Lowering.Derivation
import LetIf.Proofs.Typing.Offences
import Mathlib.Tactic

namespace LetIf

variable {A B : Type}

/-! ## Shapes -/

/-- What a variable refers to. -/
inductive Ref where
  /-- The binding with so many others between it and the variable. -/
  | bound (index : Nat)
  /-- No binding of the expression. -/
  | free (name : Ident)
  deriving DecidableEq

/-- What a name refers to inside bindings of the names `scope`, the innermost first. -/
def Ref.ofName (scope : List Ident) (x : Ident) : Ref := (scope.idxOf? x).elim (.free x) .bound

namespace Ref

/-- The same binding, from inside one more. -/
def outer : Ref → Ref
  | .bound i => .bound (i + 1)
  | .free x => .free x

theorem outer_injective {r r' : Ref} (h : r.outer = r'.outer) : r = r' := by
  cases r <;> cases r' <;> cases h <;> rfl

theorem outer_ne_zero (r : Ref) : r.outer ≠ .bound 0 := by
  intro h
  cases r <;> cases h

theorem ofName_cons (y : Ident) (scope : List Ident) (x : Ident) :
    ofName (y :: scope) x = if x = y then .bound 0 else (ofName scope x).outer := by
  unfold ofName
  rw [List.idxOf?_cons]
  by_cases h : x = y
  · rw [if_pos h, if_pos (beq_iff_eq.2 h.symm)]; rfl
  · rw [if_neg h, if_neg fun h' => h (beq_iff_eq.1 h').symm]
    cases scope.idxOf? x <;> rfl

end Ref

/-- What is left of an expression without annotations and without the names of its bindings. -/
inductive Shape where
  | lit (value : Option Value)
  | var (ref : Ref)
  | cond (test yes no : Shape)
  | bind (bound body : Shape)
  | hole
  deriving DecidableEq

namespace Expr

def shapeIn (scope : List Ident) : Expr A → Shape
  | .lit _ v => .lit v
  | .var _ x => .var (.ofName scope x)
  | .cond _ c y n => .cond (c.shapeIn scope) (y.shapeIn scope) (n.shapeIn scope)
  | .bind _ x b k => .bind (b.shapeIn scope) (k.shapeIn (x :: scope))
  | .hole => .hole

def shape (e : Expr A) : Shape := e.shapeIn []

/-- Expressions of one shape, constructor by constructor. -/
inductive SameShape : List Ident → List Ident → Expr A → Expr B → Prop
  | lit {xs ys : List Ident} (a : A) (b : B) (v : Option Value) : SameShape xs ys (.lit a v) (.lit b v)
  | var {xs ys : List Ident} (a : A) (b : B) {x y : Ident} :
      Ref.ofName xs x = Ref.ofName ys y → SameShape xs ys (.var a x) (.var b y)
  | cond {xs ys : List Ident} (a : A) (b : B) {c y n : Expr A} {c' y' n' : Expr B} :
      SameShape xs ys c c' → SameShape xs ys y y' → SameShape xs ys n n' →
      SameShape xs ys (.cond a c y n) (.cond b c' y' n')
  | bind {xs ys : List Ident} (a : A) (b : B) {x y : Ident} {e k : Expr A} {e' k' : Expr B} :
      SameShape xs ys e e' → SameShape (x :: xs) (y :: ys) k k' →
      SameShape xs ys (.bind a x e k) (.bind b y e' k')
  | hole {xs ys : List Ident} : SameShape xs ys .hole .hole

theorem sameShape_of_shapeIn {e : Expr A} : ∀ {e' : Expr B} {xs ys : List Ident},
    e.shapeIn xs = e'.shapeIn ys → SameShape xs ys e e' := by
  induction e with
  | lit a v =>
    intro e' xs ys h
    cases e' with
    | lit b w => cases h; exact .lit a b v
    | _ => cases h
  | var a x =>
    intro e' xs ys h
    cases e' with
    | var b y => exact .var a b (Shape.var.inj h)
    | _ => cases h
  | cond a c y n ihc ihy ihn =>
    intro e' xs ys h
    cases e' with
    | cond b c' y' n' =>
      obtain ⟨hc, hy, hn⟩ := Shape.cond.inj h
      exact .cond a b (ihc hc) (ihy hy) (ihn hn)
    | _ => cases h
  | bind a x e k ihe ihk =>
    intro e' xs ys h
    cases e' with
    | bind b y e' k' =>
      obtain ⟨he, hk⟩ := Shape.bind.inj h
      exact .bind a b (ihe he) (ihk hk)
    | _ => cases h
  | hole =>
    intro e' xs ys h
    cases e' with
    | hole => exact .hole
    | _ => cases h

end Expr

/-! ## Environments under different names -/

/-- Environments that bind the names `xs` and `ys`, position by position, to things that `R` relates. -/
inductive Env.Aligned {V W : Type} (R : V → W → Prop) : List Ident → List Ident → Env V → Env W → Prop
  | nil : Aligned R [] [] [] []
  | cons {xs ys : List Ident} {env : Env V} {env' : Env W} {v : V} {w : W} (x y : Ident) :
      R v w → Aligned R xs ys env env' → Aligned R (x :: xs) (y :: ys) ((x, v) :: env) ((y, w) :: env')

namespace Env.Aligned

variable {V W : Type} {R : V → W → Prop} {xs ys : List Ident} {env : Env V} {env' : Env W}

/-- Names that refer to the same are both free, and equal, or both bound, to related things. -/
theorem get?_of_ref (h : Aligned R xs ys env env') : ∀ {x y : Ident}, Ref.ofName xs x = Ref.ofName ys y →
    (x = y ∧ env.get? x = none ∧ env'.get? y = none) ∨
      ∃ v w, env.get? x = some v ∧ env'.get? y = some w ∧ R v w := by
  induction h with
  | nil =>
    intro x y hxy
    cases hxy
    exact .inl ⟨rfl, rfl, rfl⟩
  | @cons _ _ _ _ v w x₀ y₀ hvw _ ih =>
    intro x y hxy
    rw [Ref.ofName_cons, Ref.ofName_cons] at hxy
    rw [get?_cons, get?_cons]
    by_cases hx : x = x₀ <;> by_cases hy : y = y₀
    · rw [if_pos hx, if_pos hy]
      exact .inr ⟨v, w, rfl, rfl, hvw⟩
    · rw [if_pos hx, if_neg hy] at hxy
      exact absurd hxy.symm (Ref.outer_ne_zero _)
    · rw [if_neg hx, if_pos hy] at hxy
      exact absurd hxy (Ref.outer_ne_zero _)
    · rw [if_neg hx, if_neg hy] at hxy ⊢
      exact ih (Ref.outer_injective hxy)

end Env.Aligned

/-! ## The passes on expressions of one shape -/

theorem Expr.SameShape.code_eq {s : Strategy} {xs ys : List Ident} {x : Expr A} {y : Expr B}
    (h : SameShape xs ys x y) : ∀ {env env' : Env UInt32}, Env.Aligned Eq xs ys env env' →
      ∀ next, x.code s env next = y.code s env' next := by
  induction h with
  | lit a b v => intro env env' _ next; cases v <;> rfl
  | var a b hxy =>
    intro env env' he next
    rw [code, code]
    rcases he.get?_of_ref hxy with ⟨rfl, hx, hy⟩ | ⟨v, w, hx, hy, rfl⟩
    · rw [hx, hy]
    · rw [hx, hy]
  | cond a b _ _ _ hc hy hn =>
    intro env env' he next
    cases s <;> simp only [code, hc he, hy he, hn he]
  | bind a b _ _ hb hk =>
    intro env env' he next
    simp only [code, hb he, hk (he.cons _ _ rfl)]
  | hole => intro env env' _ next; rfl

theorem Expr.SameShape.evaluateIn_alike {xs ys : List Ident} {x : Expr A} {y : Expr B}
    (h : SameShape xs ys x y) : ∀ {env : Env (Literal A)} {env' : Env (Literal B)},
      Env.Aligned (fun l l' => l.value = l'.value) xs ys env env' →
        Alike Eq (fun l l' => l.value = l'.value) (x.evaluateIn env) (y.evaluateIn env') := by
  induction h with
  | lit a b v => intro env env' _; exact .ok rfl
  | var a b hxy =>
    intro env env' he
    rw [evaluateIn, evaluateIn]
    rcases he.get?_of_ref hxy with ⟨rfl, hx, hy⟩ | ⟨v, w, hx, hy, hvw⟩
    · rw [hx, hy]; exact .error rfl
    · rw [hx, hy]; exact .ok hvw
  | cond a b _ _ _ hc hy hn =>
    intro env env' he
    exact alike_evaluateIn_cond (fun _ _ h => h) (hc he) (hy he) (hn he)
  | bind a b _ _ hb hk =>
    intro env env' he
    rw [evaluateIn, evaluateIn]
    exact (hb he).bind fun l l' hl => hk (he.cons _ _ hl)
  | hole => intro env env' _; exact .error rfl

theorem Model.erase_congr {m : Model A} {m' : Model B} (h : m.kind = m'.kind) : m.erase = m'.erase := by
  unfold erase map
  rw [h]

/-- The verdicts agree in the kind of the root, or in the error up to annotations. -/
theorem Expr.SameShape.infer_alike {xs ys : List Ident} {x : Expr A} {y : Expr B} (h : SameShape xs ys x y) :
    ∀ {env : Env (Option (Model A))} {env' : Env (Option (Model B))},
      Env.Aligned (fun m m' => m.map Model.kind = m'.map Model.kind) xs ys env env' →
        Alike (fun g g' => g.map (fun _ => ()) = g'.map fun _ => ())
          (fun t t' => t.model.kind = t'.model.kind) (Typing.infer env x) (Typing.infer env' y) := by
  induction h with
  | lit a b v =>
    intro env env' _
    cases v with
    | some v => exact .ok rfl
    | none => exact .error rfl
  | var a b hxy =>
    intro env env' he
    rw [Typing.infer, Typing.infer]
    rcases he.get?_of_ref hxy with ⟨rfl, hx, hy⟩ | ⟨m, m', hx, hy, hm⟩
    · rw [hx, hy]; exact .error rfl
    · rw [hx, hy]
      cases m <;> cases m'
      · exact .error rfl
      · cases hm
      · cases hm
      · exact .ok (Option.some.inj hm)
  | cond a b _ _ _ hc hy hn =>
    intro env env' he
    rw [Typing.infer, Typing.infer]
    refine (hc he).bind fun c c' hcc => ?_
    refine Alike.ite_throw (by rw [hcc]) ?_ ?_
    · exact congrArg (fun m => Typing.Failure.illTyped (.predicateNotBool () m)) (Model.erase_congr hcc)
    refine (hy he).bind fun y y' hyy => ?_
    refine (hn he).bind fun n n' hnn => ?_
    refine Alike.ite_throw (by rw [hyy, hnn]) ?_ (.ok hyy)
    exact congrArg₂ (fun m m' => Typing.Failure.illTyped (.branchesDiffer () m m'))
      (Model.erase_congr hyy) (Model.erase_congr hnn)
  | bind a b _ _ hb hk =>
    intro env env' he
    rw [Typing.infer, Typing.infer]
    refine (hb he).bind fun b b' hbb => ?_
    have hm : (some b.model).map Model.kind = (some b'.model).map Model.kind := congrArg some hbb
    exact (hk (he.cons _ _ hm)).bind fun k k' hkk => .ok hkk
  | hole => intro env env' _; exact .error rfl

/-! ## Expressions of one shape -/

theorem Expr.SameShape.value_eq {x : Expr A} {y : Expr B} (h : SameShape [] [] x y) : x.value = y.value := by
  have he : Alike Eq (fun l l' => l.value = l'.value) x.evaluate y.evaluate := h.evaluateIn_alike .nil
  unfold value
  generalize x.evaluate = r at he ⊢
  generalize y.evaluate = r' at he ⊢
  cases he with
  | @ok l l' hl =>
    obtain ⟨a, v⟩ := l
    obtain ⟨b, w⟩ := l'
    have hvw : v = w := hl
    rw [hvw]
    rfl
  | error herr => rw [herr]; rfl

/-- The verdict on a finished expression is a kind or a type error. -/
theorem Expr.SameShape.verdict_eq {x : Expr A} {y : Expr B} (h : SameShape [] [] x y)
    (hv : x.isValued = true) :
    (∃ t u, Typing.infer [] x = .ok t ∧ Typing.infer [] y = .ok u ∧ t.model.kind = u.model.kind) ∨
      ∃ e e', Typing.infer [] x = .error (.illTyped e) ∧ Typing.infer [] y = .error (.illTyped e') ∧
        e.map (fun _ => ()) = e'.map fun _ => () := by
  have ha := h.infer_alike .nil
  cases hx : Typing.infer [] x with
  | ok t =>
    rw [hx] at ha
    cases hy : Typing.infer [] y with
    | ok u => rw [hy] at ha; cases ha with | ok hk => exact .inl ⟨t, u, rfl, rfl, hk⟩
    | error g => rw [hy] at ha; cases ha
  | error f =>
    have hx' : Typing.infer (Env.mapValues some []) x = .error f := hx
    obtain ⟨e, p, rfl, -⟩ := Typing.first_of_infer hv hx'
    rw [hx] at ha
    cases hy : Typing.infer [] y with
    | ok u => rw [hy] at ha; cases ha
    | error g =>
      rw [hy] at ha
      cases ha with
      | error he =>
        cases g with
        | illTyped e' => exact .inr ⟨e, e', rfl, rfl, Typing.Failure.illTyped.inj he⟩
        | defect d => cases he

/-- Lowering, elaboration and evaluation do not see how bindings are named. Closed and finished
expressions of one shape have the same module, for any target, unless the strategy is none; elaborate
to the same kind, or fail with the same error up to annotations; and have the same value. -/
theorem Expr.passes_of_shape {x : Expr A} {y : Expr B} (h : x.shape = y.shape) (hv : x.isValued = true)
    (hf : x.free = []) :
    (∀ target, x.lower target = y.lower target ∧
      ∀ d, x.lower target = .error d → ∃ code, target.strategy = .unnamed code ∧
        d = .internal (.lowerStrategy target.strategy)) ∧
    ((∃ t u, Typing.infer [] x = .ok t ∧ Typing.infer [] y = .ok u ∧ t.model.kind = u.model.kind) ∨
      ∃ e e', Typing.infer [] x = .error (.illTyped e) ∧ Typing.infer [] y = .error (.illTyped e') ∧
        e.map (fun _ => ()) = e'.map fun _ => ()) ∧
    x.value = y.value := by
  have hs : SameShape [] [] x y := sameShape_of_shapeIn h
  refine ⟨fun target => ⟨?_, fun d hd => ?_⟩, ?_, ?_⟩
  · unfold lower
    rw [hs.code_eq .nil]
  · cases Lowering.refuses_of_lower hv hd with
    | free hx _ => rw [hf] at hx; cases hx
    | strategy hc => exact ⟨_, hc, rfl⟩
  · exact hs.verdict_eq hv
  · exact hs.value_eq

/-- Two names bound one around the other, and the outer one again in its own scope, to itself. -/
def nestedNames : Expr Unit :=
  .bind () nameX (.bind () nameX (.lit () (some (.int 1))) (.var () nameX))
    (.bind () nameY (.lit () (some (.bool true)))
      (.cond () (.var () nameY) (.var () nameX) (.bind () nameX (.var () nameX) (.var () nameX))))

/-- The same with the two names for each other, and the last binding under the name of the inner one. -/
def swappedNames : Expr Nat :=
  .bind 0 nameY (.bind 1 nameX (.lit 2 (some (.int 1))) (.var 3 nameX))
    (.bind 4 nameX (.lit 5 (some (.bool true)))
      (.cond 6 (.var 7 nameX) (.var 8 nameY) (.bind 9 nameX (.var 10 nameY) (.var 11 nameX))))

theorem passes_nestedNames :
    nestedNames.shape = swappedNames.shape ∧ nestedNames.isValued = true ∧ nestedNames.free = [] ∧
      nestedNames.lower ⟨.branch, "f"⟩ = swappedNames.lower ⟨.branch, "f"⟩ ∧
      ((∃ t u, Typing.infer [] nestedNames = .ok t ∧ Typing.infer [] swappedNames = .ok u ∧
          t.model.kind = u.model.kind) ∨
        ∃ e e', Typing.infer [] nestedNames = .error (.illTyped e) ∧
          Typing.infer [] swappedNames = .error (.illTyped e') ∧ e.map (fun _ => ()) = e'.map fun _ => ()) ∧
      nestedNames.value = swappedNames.value := by
  have hs : nestedNames.shape = swappedNames.shape := by decide
  obtain ⟨hl, ht, he⟩ := Expr.passes_of_shape hs rfl (by decide)
  exact ⟨hs, rfl, by decide, (hl ⟨.branch, "f"⟩).1, ht, he⟩

end LetIf
