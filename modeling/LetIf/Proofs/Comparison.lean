/-
The comparisons of modules and of expressions. Two conditionals cannot be compared as they stand, only arm by
arm; a comparison of code that compares everything else as it stands never comes to do so, whatever stands on
the other side. It decides equality, as the comparison of finished expressions does once their annotations are
erased, and both are equivalences.
-/
import LetIf.Proofs.Code.Same
import LetIf.Proofs.Expr.Equal
import LetIf.Source.Token

namespace LetIf

/-! ## Modules -/

namespace Instr

/-- Compares two instructions as they stand. It fails if both have arms. -/
def compareFlat? : Instr → Instr → Option Bool
  | .branch .., .branch .. => none
  | .const m, .const n => some (m == n)
  | .select, .select => some true
  | .localGet i, .localGet j => some (i == j)
  | .localSet i, .localSet j => some (i == j)
  | .stop, .stop => some true
  | .unknown, .unknown => some true
  | _, _ => some false

mutual

/-- Compares two instructions by what the first one is: arm by arm if it has arms, and else as they stand, if
the second one has none. -/
def compare? : Instr → Instr → Option Bool
  | .branch yes no, .branch yes' no' => do
    if yes.length ≠ yes'.length then return false
    if !(← compareEach? yes yes') then return false
    if no.length ≠ no'.length then return false
    compareEach? no no'
  | .branch .., _ => some false
  | _, .branch .. => some false
  | i, j => i.compareFlat? j

/-- Compares two sequences of the same length place by place. -/
def compareEach? : List Instr → List Instr → Option Bool
  | i :: is, j :: js => do
    if !(← compare? i j) then return false
    compareEach? is js
  | _, _ => some true

end

theorem sameAll_of_length_ne {is js : List Instr} (h : is.length ≠ js.length) : sameAll is js = false :=
  Bool.eq_false_iff.2 fun hsame => h (congrArg List.length (eq_of_sameAll hsame))

attribute [local simp] same sameAll compareFlat? compare? compareEach?

mutual

/-- The comparison never fails. -/
theorem compare?_eq : ∀ i j : Instr, compare? i j = some (same i j)
  | .branch yes no, j => by
    cases j with
    | branch yes' no' =>
      rw [compare?, same]
      by_cases hyes : yes.length = yes'.length
      · by_cases hno : no.length = no'.length
        · rw [compareEach?_eq hyes, compareEach?_eq hno]
          cases sameAll yes yes' <;> simp [hyes, hno]
        · rw [compareEach?_eq hyes, sameAll_of_length_ne hno]
          cases sameAll yes yes' <;> simp [hyes, hno]
      · rw [sameAll_of_length_ne hyes]
        simp [hyes]
    | const _ | select | localGet _ | localSet _ | stop | unknown => simp
  | .const _, j | .select, j | .localGet _, j | .localSet _, j | .stop, j | .unknown, j => by cases j <;> simp

theorem compareEach?_eq : ∀ {is js : List Instr}, is.length = js.length →
    compareEach? is js = some (sameAll is js)
  | [], [], _ => by simp
  | i :: is, j :: js, h => by
    rw [compareEach?, compare?_eq i j, sameAll]
    cases same i j with
    | false => rfl
    | true => exact compareEach?_eq (Nat.succ.inj h)

end

end Instr

namespace Module

/-- Compares two modules, their bodies last. -/
def compare? (m n : Module) : Option Bool := do
  if m.name ≠ n.name then return false
  if m.locals ≠ n.locals then return false
  if m.body.length ≠ n.body.length then return false
  Instr.compareEach? m.body n.body

theorem compare?_eq (m n : Module) : m.compare? n = some (m.same n) := by
  unfold compare? same
  by_cases hname : m.name = n.name
  · by_cases hlocals : m.locals = n.locals
    · by_cases hbody : m.body.length = n.body.length
      · simp [hname, hlocals, hbody, Instr.compareEach?_eq hbody]
      · simp [hname, hlocals, hbody, Instr.sameAll_of_length_ne hbody]
    · simp [hname, hlocals]
  · simp [hname]

theorem same_iff {m n : Module} : m.same n = true ↔ m = n :=
  ⟨eq_of_same, fun h => h ▸ same_refl m⟩

end Module

/-! ## Expressions -/

namespace Expr

variable {A B C : Type} {x : Expr A} {y : Expr B} {z : Expr C}

theorem equal_iff (hx : x.isValued = true) (hy : y.isValued = true) :
    x.equal y = .ok true ↔ x.erase = y.erase := by
  rw [equal_of_isValued hx hy, Except.ok.injEq, decide_eq_true_iff]

theorem equal_comm (hx : x.isValued = true) (hy : y.isValued = true) : x.equal y = y.equal x := by
  rw [equal_of_isValued hx hy, equal_of_isValued hy hx]
  exact congrArg Except.ok (decide_eq_decide.2 eq_comm)

theorem equal_trans (hx : x.isValued = true) (hy : y.isValued = true) (hz : z.isValued = true)
    (hxy : x.equal y = .ok true) (hyz : y.equal z = .ok true) : x.equal z = .ok true :=
  (equal_iff hx hz).2 (((equal_iff hx hy).1 hxy).trans ((equal_iff hy hz).1 hyz))

end Expr

/-! ## Both comparisons -/

/-- Both comparisons decide equality and are equivalences. That of modules answers for any two of them, and says
that they are the same when names, numbers of slots and trees of instructions are. That of finished expressions
says so when the trees are the same without their annotations, which may be of any types; a number is never the
same as a truth value. -/
theorem comparisons_decide :
    (∀ m n : Module, m.compare? n = some (m.same n) ∧
        (m.same n = true ↔ m.name = n.name ∧ m.locals = n.locals ∧ m.body = n.body)) ∧
      Equivalence (fun m n : Module => m.same n = true) ∧
      (∀ {A B C : Type} {x : Expr A} {y : Expr B} {z : Expr C},
        x.isValued = true → y.isValued = true → z.isValued = true →
          x.equal y = .ok (decide (x.erase = y.erase)) ∧ x.equal x = .ok true ∧ x.equal y = y.equal x ∧
            (x.equal y = .ok true → y.equal z = .ok true → x.equal z = .ok true)) ∧
      ∀ {A B : Type} (a : A) (b : B) (n : Int32) (v : Bool),
        (Expr.lit a (some (.int n))).equal (Expr.lit b (some (.bool v))) = .ok false ∧
          (Expr.lit b (some (.bool v))).equal (Expr.lit a (some (.int n))) = .ok false := by
  refine ⟨fun m n => ⟨m.compare?_eq n, ?_⟩, ?_, fun hx hy hz => ?_, fun a b n v => ⟨rfl, rfl⟩⟩
  · rw [Module.same_iff]
    constructor
    · rintro rfl
      exact ⟨rfl, rfl, rfl⟩
    · rintro ⟨hname, hlocals, hbody⟩
      cases m
      cases n
      cases hname
      cases hlocals
      cases hbody
      rfl
  · simp only [Module.same_iff]
    exact ⟨fun _ => rfl, fun h => h.symm, fun h h' => h.trans h'⟩
  · exact ⟨Expr.equal_of_isValued hx hy, (Expr.equal_iff hx hx).2 rfl, Expr.equal_comm hx hy,
      Expr.equal_trans hx hy hz⟩

/-- A value that is given a name in one arm of a conditional. -/
def namedInArm {A : Type} (a : A) (v : Value) : Expr A :=
  .cond a (.var a nameY) (.bind a nameX (.lit a (some v)) (.var a nameX)) (.lit a (some (.bool false)))

/-- One and true are told apart inside a tree, though not its annotations. -/
theorem comparisons_decide_oneAndTrue :
    (namedInArm Position.start (.int 1)).isValued = true ∧ (namedInArm () (.int 1)).isValued = true ∧
      (namedInArm () (.bool true)).isValued = true ∧
      (namedInArm Position.start (.int 1)).equal (namedInArm () (.int 1)) = .ok true ∧
      (namedInArm () (.int 1)).equal (namedInArm () (.bool true)) = .ok false := by
  obtain ⟨-, -, hequal, -⟩ := comparisons_decide
  have hx : (namedInArm Position.start (.int 1)).isValued = true := rfl
  have hy : (namedInArm () (.int 1)).isValued = true := rfl
  have hz : (namedInArm () (.bool true)).isValued = true := rfl
  exact ⟨hx, hy, hz, (hequal hx hy hz).1, (hequal hy hz hz).1⟩

end LetIf
