/-
Validity of modules before they are run. The types on the stack are followed through a body. Behind
a trap the stack holds whatever is asked of it.
-/
import LetIf.Engine.Code

namespace LetIf.Engine

/-- The types on the stack, the top first. An open stack gives any type below them. -/
structure Types where
  known : List (Option ValType)
  isOpen : Bool
  deriving DecidableEq, Repr

namespace Types

def empty : Types := ⟨[], false⟩

def push (s : Types) (t : Option ValType) : Types := { s with known := t :: s.known }

/-- Takes off the top, whatever its type. -/
def pop (s : Types) : Option (Option ValType × Types) :=
  match s.known with
  | t :: below => some (t, { s with known := below })
  | [] => if s.isOpen then some (none, s) else none

/-- Takes off the top, which has to be of type `t`. -/
def expect (s : Types) (t : ValType) : Option Types := do
  let (found, s) ← s.pop
  match found with
  | some t' => if t = t' then some s else none
  | none => some s

/-- Whether exactly the types `ts` are there, the last of them on top. -/
def holds (s : Types) (ts : List ValType) : Bool :=
  match ts.reverse.foldlM expect s with
  | some s => s.known.isEmpty
  | none => false

end Types

/-- The type of a local variable in a list of groups. -/
def localType : List (Nat × ValType) → Nat → Option ValType
  | [], _ => none
  | (n, t) :: rest, i => if i < n then some t else localType rest (i - n)

mutual

/-- The types on the stack after an instruction. -/
def typesAfter (locals : List (Nat × ValType)) (s : Types) : Op → Option Types
  | .trap => some ⟨[], true⟩
  | .const32 _ => some (s.push (some .i32))
  | .const64 _ => some (s.push (some .i64))
  | .select => do
    let s ← s.expect .i32
    let (b, s) ← s.pop
    let (a, s) ← s.pop
    match a, b with
    | some a, some b => if a = b then some (s.push (some a)) else none
    | some a, none => some (s.push (some a))
    | none, b => some (s.push b)
  | .localGet i => do
    let t ← localType locals i
    some (s.push (some t))
  | .localSet i => do
    let t ← localType locals i
    s.expect t
  | .branch t yes no => do
    let s ← s.expect .i32
    let y ← typesFrom locals .empty yes
    let n ← typesFrom locals .empty no
    if y.holds t.toList && n.holds t.toList then
      match t with
      | some t => some (s.push (some t))
      | none => some s
    else none

/-- The types on the stack after a sequence of instructions. -/
def typesFrom (locals : List (Nat × ValType)) (s : Types) : List Op → Option Types
  | [] => some s
  | op :: rest => do
    let s ← typesAfter locals s op
    typesFrom locals s rest

end

/-- All local variables of a function, its parameters first. -/
def allLocals (s : Signature) (b : Body) : List (Nat × ValType) :=
  s.params.map (fun t => (1, t)) ++ b.locals

def Body.isValid (s : Signature) (b : Body) : Bool :=
  match typesFrom (allLocals s b) .empty b.code with
  | some t => t.holds s.results
  | none => false

/-- A module in which every number is in range, no two exports share a name, and every body does
what its signature says. -/
def Program.isValid (p : Program) : Bool :=
  p.functions.length == p.bodies.length &&
  (p.functions.zip p.bodies).all (fun (i, b) =>
    match p.signatures[i]? with
    | some s => b.isValid s
    | none => false) &&
  p.exports.all (fun (_, i) => i < p.functions.length) &&
  decide (p.exports.map (·.1)).Nodup

end LetIf.Engine
