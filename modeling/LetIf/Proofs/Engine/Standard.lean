/-
What WebAssembly 1.0 prescribes for modules without imports, tables, memories and globals, whose code is
made of constants, local variables, selection, conditionals and traps. The binary format, validity and
execution are relations, each as the standard states it and none of them a program. `Conforms` says of an
engine that it decodes, validates and runs such modules as they prescribe, whatever their size.
-/
import LetIf.Engine.Run

namespace LetIf.Engine.Standard

/-! ## Binary format: values -/

/-- `n` as an unsigned number of a width: either one byte, or a marked byte with the seven lowest bits and
behind it the rest, as a number that is seven bits narrower. -/
inductive IsUnsigned : (width n : Nat) → Text → Prop
  | last {width : Nat} {b : UInt8} : b.toNat < 128 → b.toNat < Bits.span width → IsUnsigned width b.toNat [b]
  | more {width n : Nat} {b : UInt8} {bs : Text} : 128 ≤ b.toNat → 7 < width → IsUnsigned (width - 7) n bs →
      IsUnsigned width (128 * n + (b.toNat - 128)) (b :: bs)

/-- `n` as a signed number of a width. The last byte has the sign in its seventh bit. -/
inductive IsSigned : (width : Nat) → (n : Int) → Text → Prop
  | positive {width : Nat} {b : UInt8} : b.toNat < 64 → b.toNat < Bits.span (width - 1) →
      IsSigned width b.toNat [b]
  | negative {width : Nat} {b : UInt8} : 64 ≤ b.toNat → b.toNat < 128 → 128 - b.toNat ≤ Bits.span (width - 1) →
      IsSigned width ((b.toNat : Int) - 128) [b]
  | more {width : Nat} {n : Int} {b : UInt8} {bs : Text} : 128 ≤ b.toNat → 7 < width →
      IsSigned (width - 7) n bs → IsSigned width (128 * n + ((b.toNat : Int) - 128)) (b :: bs)

/-- Things one after the other. -/
inductive Each {α : Type} (item : α → Text → Prop) : List α → Text → Prop
  | nil : Each item [] []
  | cons {a : α} {as : List α} {t ts : Text} : item a t → Each item as ts → Each item (a :: as) (t ++ ts)

/-- A vector: how many things there are, and the things. -/
inductive IsVector {α : Type} (item : α → Text → Prop) (as : List α) : Text → Prop
  | mk {count ts : Text} : IsUnsigned 32 as.length count → Each item as ts → IsVector item as (count ++ ts)

/-- A text behind its length in bytes. -/
inductive IsMeasured (t : Text) : Text → Prop
  | mk {size : Text} : IsUnsigned 32 t.length size → IsMeasured t (size ++ t)

/-- A name: a text in UTF-8 behind its length. -/
structure IsName (name t : Text) : Prop where
  utf8 : Text.isUtf8 name = true
  measured : IsMeasured name t

/-! ## Binary format: types and instructions -/

def ValType.code : ValType → UInt8
  | .i32 => 0x7f
  | .i64 => 0x7e
  | .f32 => 0x7d
  | .f64 => 0x7c

def IsValType (t : ValType) (bs : Text) : Prop := bs = [ValType.code t]

/-- The type of what a block leaves. -/
def blockCode : Option ValType → UInt8
  | none => 0x40
  | some t => ValType.code t

inductive IsSignature (s : Signature) : Text → Prop
  | mk {params results : Text} : IsVector IsValType s.params params → IsVector IsValType s.results results →
      IsSignature s (0x60 :: (params ++ results))

/-- Instructions, without what ends them. -/
inductive IsCode : List Op → Text → Prop
  | nil : IsCode [] []
  | trap {ops : List Op} {bs : Text} : IsCode ops bs → IsCode (.trap :: ops) (0x00 :: bs)
  | branch (t : Option ValType) {yes no ops : List Op} {ys ns bs : Text} : IsCode yes ys → IsCode no ns →
      IsCode ops bs →
      IsCode (.branch t yes no :: ops) (0x04 :: blockCode t :: (ys ++ 0x05 :: (ns ++ 0x0b :: bs)))
  | branchYes (t : Option ValType) {yes ops : List Op} {ys bs : Text} : IsCode yes ys → IsCode ops bs →
      IsCode (.branch t yes [] :: ops) (0x04 :: blockCode t :: (ys ++ 0x0b :: bs))
  | select {ops : List Op} {bs : Text} : IsCode ops bs → IsCode (.select :: ops) (0x1b :: bs)
  | localGet {i : Nat} {index bs : Text} {ops : List Op} : IsUnsigned 32 i index → IsCode ops bs →
      IsCode (.localGet i :: ops) (0x20 :: (index ++ bs))
  | localSet {i : Nat} {index bs : Text} {ops : List Op} : IsUnsigned 32 i index → IsCode ops bs →
      IsCode (.localSet i :: ops) (0x21 :: (index ++ bs))
  | const32 {n : Int32} {number bs : Text} {ops : List Op} : IsSigned 32 n.toInt number → IsCode ops bs →
      IsCode (.const32 n :: ops) (0x41 :: (number ++ bs))
  | const64 {n : Int64} {number bs : Text} {ops : List Op} : IsSigned 64 n.toInt number → IsCode ops bs →
      IsCode (.const64 n :: ops) (0x42 :: (number ++ bs))

/-! ## Binary format: modules -/

/-- A number of local variables of one type. -/
inductive IsGroup (g : Nat × ValType) : Text → Prop
  | mk {count : Text} : IsUnsigned 32 g.1 count → IsGroup g (count ++ [ValType.code g.2])

/-- How many local variables are declared. -/
def declared (groups : List (Nat × ValType)) : Nat := groups.foldr (fun g n => g.1 + n) 0

/-- A function body behind its size. -/
inductive IsBody (b : Body) : Text → Prop
  | mk {groups code t : Text} : IsVector IsGroup b.locals groups → declared b.locals < Bits.span 32 →
      IsCode b.code code → IsMeasured (groups ++ (code ++ [0x0b])) t → IsBody b t

/-- The export of a function. -/
inductive IsExport (e : Text × Nat) : Text → Prop
  | mk {name index : Text} : IsName e.1 name → IsUnsigned 32 e.2 index → IsExport e (name ++ 0x00 :: index)

/-- Sections with numbers above `last`, in increasing order, and custom ones anywhere. What has no section
is empty. -/
inductive IsSections : (last : UInt8) → Program → Text → Prop
  | nil {last : UInt8} : IsSections last ⟨[], [], [], []⟩ []
  | custom {last : UInt8} {p : Program} {name nameText more t rest : Text} : IsName name nameText →
      IsMeasured (nameText ++ more) t → IsSections last p rest → IsSections last p (0 :: (t ++ rest))
  | types {last : UInt8} {p : Program} {s : List Signature} {contents t rest : Text} : last < 1 →
      IsVector IsSignature s contents → IsMeasured contents t → IsSections 1 p rest →
      IsSections last { p with signatures := s } (1 :: (t ++ rest))
  | functions {last : UInt8} {p : Program} {f : List Nat} {contents t rest : Text} : last < 3 →
      IsVector (IsUnsigned 32) f contents → IsMeasured contents t → IsSections 3 p rest →
      IsSections last { p with functions := f } (3 :: (t ++ rest))
  | exports {last : UInt8} {p : Program} {e : List (Text × Nat)} {contents t rest : Text} : last < 7 →
      IsVector IsExport e contents → IsMeasured contents t → IsSections 7 p rest →
      IsSections last { p with exports := e } (7 :: (t ++ rest))
  | code {last : UInt8} {p : Program} {b : List Body} {contents t rest : Text} : last < 10 →
      IsVector IsBody b contents → IsMeasured contents t → IsSections 10 p rest →
      IsSections last { p with bodies := b } (10 :: (t ++ rest))

/-- The magic number and the version. -/
def header : Text := [0x00, 0x61, 0x73, 0x6d, 0x01, 0x00, 0x00, 0x00]

inductive IsModule (p : Program) : Text → Prop
  | mk {t : Text} : IsSections 0 p t → IsModule p (header ++ t)

/-! ## Validity -/

/-- The types of all local variables of a function, its parameters first. -/
def localTypes (s : Signature) (b : Body) : List ValType :=
  s.params ++ b.locals.flatMap fun g => List.replicate g.1 g.2

/-- Instructions take a stack with these types to one with those, the top first. What is below stays as it
is, and behind a trap anything may be supposed. -/
inductive Typed (locals : List ValType) : List Op → (before after : List ValType) → Prop
  | nil {ts : List ValType} : Typed locals [] ts ts
  | trap {ops : List Op} {ts us vs : List ValType} : Typed locals ops us vs → Typed locals (.trap :: ops) ts vs
  | const32 (n : Int32) {ops : List Op} {ts us : List ValType} : Typed locals ops (.i32 :: ts) us →
      Typed locals (.const32 n :: ops) ts us
  | const64 (n : Int64) {ops : List Op} {ts us : List ValType} : Typed locals ops (.i64 :: ts) us →
      Typed locals (.const64 n :: ops) ts us
  | select {t : ValType} {ops : List Op} {ts us : List ValType} : Typed locals ops (t :: ts) us →
      Typed locals (.select :: ops) (.i32 :: t :: t :: ts) us
  | localGet {i : Nat} {t : ValType} {ops : List Op} {ts us : List ValType} : locals[i]? = some t →
      Typed locals ops (t :: ts) us → Typed locals (.localGet i :: ops) ts us
  | localSet {i : Nat} {t : ValType} {ops : List Op} {ts us : List ValType} : locals[i]? = some t →
      Typed locals ops ts us → Typed locals (.localSet i :: ops) (t :: ts) us
  | branch {r : Option ValType} {yes no ops : List Op} {ts us : List ValType} : Typed locals yes [] r.toList →
      Typed locals no [] r.toList → Typed locals ops (r.toList ++ ts) us →
      Typed locals (.branch r yes no :: ops) (.i32 :: ts) us

/-- A valid module. -/
structure Valid (p : Program) : Prop where
  arity : ∀ s ∈ p.signatures, s.results.length ≤ 1
  count : p.functions.length = p.bodies.length
  bodies : ∀ f ∈ p.functions.zip p.bodies, ∃ s, p.signatures[f.1]? = some s ∧
    Typed (localTypes s f.2) f.2.code [] s.results.reverse
  exports : ∀ e ∈ p.exports, e.2 < p.functions.length
  distinct : (p.exports.map Prod.fst).Nodup

/-- Data that hold a valid module. -/
def IsValidModule (data : Text) : Prop := ∃ p, IsModule p data ∧ Valid p

/-! ## Execution -/

/-- From a stack and values of the local variables, instructions run to a stack and values, or to a trap.
An arm of a conditional runs on a stack of its own, and leaves its results on the stack outside. -/
inductive Runs : List Op → (stack locals : List Val) → Option (List Val × List Val) → Prop
  | nil {st ls : List Val} : Runs [] st ls (some (st, ls))
  | trap {ops : List Op} {st ls : List Val} : Runs (.trap :: ops) st ls none
  | const32 (n : Int32) {ops : List Op} {st ls : List Val} {r : Option (List Val × List Val)} :
      Runs ops (.i32 n :: st) ls r → Runs (.const32 n :: ops) st ls r
  | const64 (n : Int64) {ops : List Op} {st ls : List Val} {r : Option (List Val × List Val)} :
      Runs ops (.i64 n :: st) ls r → Runs (.const64 n :: ops) st ls r
  | select {c : Int32} {a b : Val} {ops : List Op} {st ls : List Val} {r : Option (List Val × List Val)} :
      Runs ops ((if c ≠ 0 then a else b) :: st) ls r → Runs (.select :: ops) (.i32 c :: b :: a :: st) ls r
  | localGet {i : Nat} {v : Val} {ops : List Op} {st ls : List Val} {r : Option (List Val × List Val)} :
      ls[i]? = some v → Runs ops (v :: st) ls r → Runs (.localGet i :: ops) st ls r
  | localSet {i : Nat} {v : Val} {ops : List Op} {st ls : List Val} {r : Option (List Val × List Val)} :
      i < ls.length → Runs ops st (ls.set i v) r → Runs (.localSet i :: ops) (v :: st) ls r
  | branch {c : Int32} {t : Option ValType} {yes no ops : List Op} {st st' ls ls' : List Val}
      {r : Option (List Val × List Val)} : Runs (if c ≠ 0 then yes else no) [] ls (some (st', ls')) →
      Runs ops (st' ++ st) ls' r → Runs (.branch t yes no :: ops) (.i32 c :: st) ls r
  | branchTrap {c : Int32} {t : Option ValType} {yes no ops : List Op} {st ls : List Val} :
      Runs (if c ≠ 0 then yes else no) [] ls none → Runs (.branch t yes no :: ops) (.i32 c :: st) ls none

/-- The function of a signature and a body that a module exports under a name. -/
def Exports (p : Program) (name : Text) (s : Signature) (b : Body) : Prop :=
  ∃ i j, (name, i) ∈ p.exports ∧ p.functions[i]? = some j ∧ p.signatures[j]? = some s ∧ p.bodies[i]? = some b

/-! ## Engines -/

/-- A function does what its body does, called without arguments. -/
structure Performs (f : Callable) (s : Signature) (b : Body) : Prop where
  params : f.params = s.params
  results : f.results = s.results
  returns {st ls : List Val} : s.params = [] → Runs b.code [] ((localTypes s b).map .zero) (some (st, ls)) →
    ∃ words, f.call = some words ∧ words.1 = st.reverse.map Val.word
  traps : s.params = [] → Runs b.code [] ((localTypes s b).map .zero) none → f.call = none

/-- An instance has the exports of its module, and no others. -/
structure Implements (i : Instance) (p : Program) : Prop where
  exported {name : Text} {s : Signature} {b : Body} : Exports p name s b →
    ∃ f, i.function? name = some f ∧ Performs f s b
  missing {name : Text} : (∀ s b, ¬ Exports p name s b) → i.function? name = none

/-- The engine decodes, validates and runs modules as is prescribed. -/
structure Conforms [Runtime] : Prop where
  instantiates {p : Program} {data : Text} : IsModule p data → Valid p →
    ∃ i, Runtime.instantiate data = some i ∧ Implements i p

end LetIf.Engine.Standard
