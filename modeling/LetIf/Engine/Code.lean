/-
WebAssembly modules as the built-in engine reads them: any number of signatures, functions and exports,
with the instructions for constants, local variables, selection, conditionals and traps. Reading
follows the binary format and says no more than that data are no module.
-/
import LetIf.Engine.Runtime
import LetIf.Read
import LetIf.Text.Utf8

namespace LetIf.Engine

def ValType.ofByte? : UInt8 → Option ValType
  | 0x7f => some .i32
  | 0x7e => some .i64
  | 0x7d => some .f32
  | 0x7c => some .f64
  | _ => none

inductive Op where
  | trap
  | const32 (n : Int32)
  | const64 (n : Int64)
  | select
  | localGet (i : Nat)
  | localSet (i : Nat)
  /-- A conditional that leaves at most one value. -/
  | branch (result : Option ValType) (yes no : List Op)
  deriving Repr

structure Signature where
  params : List ValType
  results : List ValType
  deriving DecidableEq, Repr

/-- A function body: the local variables in groups, and the code. -/
structure Body where
  locals : List (Nat × ValType)
  code : List Op
  deriving Repr

/-- A module. Functions are given by the numbers of their signatures, exports by the numbers of
their functions. -/
structure Program where
  signatures : List Signature
  functions : List Nat
  exports : List (Text × Nat)
  bodies : List Body
  deriving Repr

/-! ## Reading -/

/-- Reads from the front of the data, if it can. -/
abbrev Reader (α : Type) := (src : Text) → Option (Read α src)

def byte : Reader UInt8
  | [] => none
  | b :: rest => some ⟨b, rest, Read.tail_lt⟩

/-- Reads an unsigned number of a width: seven bits from each byte, the lowest first, and where the
eighth is set the rest of the number, which is seven bits narrower. -/
def unsigned (width : Nat) : Reader Nat
  | [] => none
  | b :: rest =>
    if b.toNat < 128 then
      if b.toNat < Bits.span width then some ⟨b.toNat, rest, Read.tail_lt⟩ else none
    else if 7 < width then do
      let ⟨n, r, h⟩ ← unsigned (width - 7) rest
      return ⟨128 * n + (b.toNat - 128), r, Read.lt_cons h⟩
    else none

/-- Reads a signed number of a width, in which the last byte has the sign in its seventh bit. -/
def signed (width : Nat) : Reader Int
  | [] => none
  | b :: rest =>
    if b.toNat < 64 then
      if b.toNat < Bits.span (width - 1) then some ⟨b.toNat, rest, Read.tail_lt⟩ else none
    else if b.toNat < 128 then
      if 128 - b.toNat ≤ Bits.span (width - 1) then some ⟨(b.toNat : Int) - 128, rest, Read.tail_lt⟩ else none
    else if 7 < width then do
      let ⟨n, r, h⟩ ← signed (width - 7) rest
      return ⟨128 * n + ((b.toNat : Int) - 128), r, Read.lt_cons h⟩
    else none

def u32 : Reader Nat := unsigned 32

def valType : Reader ValType := fun src => do
  let r ← byte src
  let t ← ValType.ofByte? r.result
  return ⟨t, r.rest, r.shorter⟩

/-- Reads `n` things one after the other. -/
def many {α : Type} (item : Reader α) :
    (n : Nat) → (src : Text) → Option (List α × { rest : Text // rest.length ≤ src.length })
  | 0, src => some ([], ⟨src, Nat.le_refl _⟩)
  | n + 1, src => do
    let ⟨a, r₁, h₁⟩ ← item src
    let (as, ⟨r₂, h₂⟩) ← many item n r₁
    return (a :: as, ⟨r₂, Nat.le_of_lt (Nat.lt_of_le_of_lt h₂ h₁)⟩)

/-- Reads a number and then that many things. -/
def vector {α : Type} (item : Reader α) : Reader (List α) := fun src => do
  let ⟨n, r₁, h₁⟩ ← u32 src
  let (as, ⟨r₂, h₂⟩) ← many item n r₁
  return ⟨as, r₂, Nat.lt_of_le_of_lt h₂ h₁⟩

/-- Reads a number and then that many bytes. -/
def bytes : Reader Text := fun src => do
  let ⟨n, r₁, h₁⟩ ← u32 src
  if r₁.length < n then none
  else some ⟨r₁.take n, r₁.drop n, by rw [List.length_drop]; omega⟩

/-- Reads a name, which has to be UTF-8. -/
def name : Reader Text := fun src => do
  let r ← bytes src
  if Text.isUtf8 r.result then some r else none

/-- The type of a block; `0x40` stands for none. -/
def blockType (b : UInt8) : Option (Option ValType) :=
  if b = 0x40 then some none else (ValType.ofByte? b).map some

/-- What a sequence of instructions stops at. -/
inductive Last where
  | atEnd
  | atElse
  deriving DecidableEq, Repr

/-- Reads instructions up to the end of their block. -/
def sequence : Reader (List Op × Last)
  | [] => none
  | op :: rest =>
    if op = 0x0b then some ⟨([], .atEnd), rest, Read.tail_lt⟩
    else if op = 0x05 then some ⟨([], .atElse), rest, Read.tail_lt⟩
    else if op = 0x00 then do
      let ⟨(code, last), r₁, h₁⟩ ← sequence rest
      return ⟨(.trap :: code, last), r₁, Read.lt_cons h₁⟩
    else if op = 0x1b then do
      let ⟨(code, last), r₁, h₁⟩ ← sequence rest
      return ⟨(.select :: code, last), r₁, Read.lt_cons h₁⟩
    else if op = 0x41 then do
      let ⟨n, r₁, h₁⟩ ← signed 32 rest
      let ⟨(code, last), r₂, h₂⟩ ← sequence r₁
      return ⟨(.const32 (Int32.ofInt n) :: code, last), r₂,
        Read.lt_cons₂ h₁ h₂⟩
    else if op = 0x42 then do
      let ⟨n, r₁, h₁⟩ ← signed 64 rest
      let ⟨(code, last), r₂, h₂⟩ ← sequence r₁
      return ⟨(.const64 (Int64.ofInt n) :: code, last), r₂,
        Read.lt_cons₂ h₁ h₂⟩
    else if op = 0x20 then do
      let ⟨i, r₁, h₁⟩ ← u32 rest
      let ⟨(code, last), r₂, h₂⟩ ← sequence r₁
      return ⟨(.localGet i :: code, last), r₂, Read.lt_cons₂ h₁ h₂⟩
    else if op = 0x21 then do
      let ⟨i, r₁, h₁⟩ ← u32 rest
      let ⟨(code, last), r₂, h₂⟩ ← sequence r₁
      return ⟨(.localSet i :: code, last), r₂, Read.lt_cons₂ h₁ h₂⟩
    else if op = 0x04 then do
      let ⟨t, r₁, h₁⟩ ← byte rest
      let t ← blockType t
      let ⟨(yes, last), r₂, h₂⟩ ← sequence r₁
      match last with
      | .atElse =>
        let ⟨(no, last), r₃, h₃⟩ ← sequence r₂
        if last = .atElse then failure
        let ⟨(code, last), r₄, h₄⟩ ← sequence r₃
        return ⟨(.branch t yes no :: code, last), r₄, Read.lt_cons₄ h₁ h₂ h₃ h₄⟩
      | .atEnd =>
        -- an arm that is left out does nothing
        let ⟨(code, last), r₃, h₃⟩ ← sequence r₂
        return ⟨(.branch t yes [] :: code, last), r₃, Read.lt_cons₃ h₁ h₂ h₃⟩
    else none
termination_by src => src.length
decreasing_by all_goals simp only [List.length_cons]; omega

def signature : Reader Signature := fun src => do
  let ⟨form, r₁, h₁⟩ ← byte src
  if form ≠ 0x60 then none
  let ⟨params, r₂, h₂⟩ ← vector valType r₁
  let ⟨results, r₃, h₃⟩ ← vector valType r₂
  some ⟨⟨params, results⟩, r₃, by omega⟩

/-- An export, of a function only. -/
def exported : Reader (Text × Nat) := fun src => do
  let ⟨t, r₁, h₁⟩ ← name src
  let ⟨form, r₂, h₂⟩ ← byte r₁
  if form ≠ 0x00 then none
  let ⟨i, r₃, h₃⟩ ← u32 r₂
  some ⟨(t, i), r₃, by omega⟩

def localGroup : Reader (Nat × ValType) := fun src => do
  let ⟨n, r₁, h₁⟩ ← u32 src
  let ⟨t, r₂, h₂⟩ ← valType r₁
  some ⟨(n, t), r₂, by omega⟩

/-- A function body, which has to fill its size. -/
def body : Reader Body := fun src => do
  let ⟨contents, r₁, h₁⟩ ← bytes src
  let locals ← vector localGroup contents
  if Bits.span 32 ≤ locals.result.foldr (fun g n => g.1 + n) 0 then none
  let code ← sequence locals.rest
  if code.result.2 = .atElse ∨ !code.rest.isEmpty then none
  some ⟨⟨locals.result, code.result.1⟩, r₁, h₁⟩

/-- Reads all of a section's contents as a list of things. -/
def contents {α : Type} (item : Reader α) (src : Text) : Option (List α) := do
  let r ← vector item src
  if r.rest.isEmpty then some r.result else none

/-- Adds a section to a module; a custom section only has to have a name. -/
def addSection (p : Program) (id : UInt8) (src : Text) : Option Program :=
  if id = 0 then (name src).map fun _ => p
  else if id = 1 then (contents signature src).map fun s => { p with signatures := s }
  else if id = 3 then (contents u32 src).map fun f => { p with functions := f }
  else if id = 7 then (contents exported src).map fun e => { p with exports := e }
  else if id = 10 then (contents body src).map fun b => { p with bodies := b }
  else none

/-- Reads sections in increasing order, those that are custom apart. -/
def sections (last : UInt8) (src : Text) : Option Program :=
  match src with
  | [] => some ⟨[], [], [], []⟩
  | id :: later =>
    if id ≠ 0 ∧ id ≤ last then none
    else match bytes later with
      | none => none
      | some ⟨src, rest, _⟩ =>
        match sections (if id = 0 then last else id) rest with
        | none => none
        | some p => addSection p id src
termination_by src.length
decreasing_by simp only [List.length_cons]; omega

/-- The module that data hold. -/
def program (data : Text) : Option Program :=
  if [0x00, 0x61, 0x73, 0x6d, 0x01, 0x00, 0x00, 0x00].isPrefixOf data then
    sections 0 (data.drop 8)
  else none

end LetIf.Engine
