/-
Modules as JSON, with one object to an instruction:

  {"export":"main","locals":0,"body":[{"op":"i32.const","value":21},{"op":"end"}]}

Reading goes over the document three times. The first pass takes every field for what it has to be
and knows no others; the second looks at what each instruction needs; the last validates the
module.
-/
import LetIf.Text.Basic
import LetIf.Code.Validate
import LetIf.Defect
import LetIf.Json.Doc
import LetIf.Text.Utf8

namespace LetIf.Json

open Text

inductive Problem where
  | nothing
  | cut
  | badSyntax
  | wrongType
  | unknownField (name : Text)
  | trailing
  | noExport
  | constWithoutValue (path : Text)
  | slotWithoutIndex (path operation : Text)
  | unknownOperation (path operation : Text)
  | invalid (e : ValidationError)
  deriving DecidableEq, Repr

def Problem.message : Problem → Text
  | .nothing => "EOF"
  | .cut => "unexpected EOF"
  | .badSyntax => "json syntax error"
  | .wrongType => "json type error"
  | .unknownField name => "json: unknown field " ++ quoted name
  | .trailing => "trailing data after module"
  | .noExport => "missing field \"export\""
  | .constWithoutValue path => path ++ ": i32.const without \"value\""
  | .slotWithoutIndex path operation => path ++ ": " ++ operation ++ " without \"index\""
  | .unknownOperation path operation => path ++ ": unknown op " ++ quoted operation
  | .invalid _ => "invalid module"

/-- A problem and the offset it points at; most problems point nowhere, which is offset zero. -/
structure DecodeError where
  problem : Problem
  offset : Nat
  deriving DecidableEq, Repr

def DecodeError.report (e : DecodeError) : Report :=
  .ofCodec "json" e.offset e.problem.message
    (match e.problem with
    | .invalid cause => some cause.report
    | _ => none)

def DecodeError.ofFault : Fault → DecodeError
  | .nothing => ⟨.nothing, 0⟩
  | .cut => ⟨.cut, 0⟩
  | .bad offset => ⟨.badSyntax, offset⟩

/-! ## Writing -/

mutual

def encodeInstr : Instr → Except Defect Text
  | .const n => .ok ("\x7b\"op\":\"i32.const\",\"value\":" ++ ofInt n.toInt ++ "\x7d")
  | .select => .ok "\x7b\"op\":\"select\"\x7d"
  | .branch yes no => do
    let yes ← encodeCode yes
    let no ← encodeCode no
    return "\x7b\"op\":\"if\",\"then\":[" ++ yes ++ "],\"else\":[" ++ no ++ "]\x7d"
  | .localGet i =>
    .ok ("\x7b\"op\":\"local.get\",\"index\":" ++ Text.ofNat i.toNat ++ "\x7d")
  | .localSet i =>
    .ok ("\x7b\"op\":\"local.set\",\"index\":" ++ Text.ofNat i.toNat ++ "\x7d")
  | .stop => .ok "\x7b\"op\":\"end\"\x7d"
  | .unknown => .error .jsonUnknown

/-- Instructions with commas between them. -/
def encodeCode : List Instr → Except Defect Text
  | [] => .ok []
  | [i] => encodeInstr i
  | i :: rest => do
    let i ← encodeInstr i
    let rest ← encodeCode rest
    return i ++ "," ++ rest

end

/-- A module as a JSON document. -/
def encode [Replacement] (m : Module) : Except Defect Text := do
  let body ← encodeCode m.body
  return "\x7b\"export\":" ++ quotedString m.name ++ ",\"locals\":" ++
    Text.ofNat m.locals.toNat ++ ",\"body\":[" ++ body ++ "]\x7d"

/-! ## Fields -/

/-- A list in an array that may be longer: what the list holds, and what else is left in the array. -/
structure Slice (α : Type) where
  items : List α
  behind : List α

namespace Slice

def nil {α : Type} : Slice α := ⟨[], []⟩

def array {α : Type} (s : Slice α) : List α := s.items ++ s.behind

end Slice

/-- An instruction with the fields that were given for it. -/
inductive Draft where
  | mk (op : Text) (value : Option Int32) (index : Option UInt32) (yes no : Slice Draft)

namespace Draft

def empty : Draft := .mk [] none none .nil .nil

def op : Draft → Text
  | .mk o .. => o

end Draft

/-- A module with the fields that were given for it. -/
structure ModuleDraft where
  name : Option Text
  locals : UInt32
  body : Slice Draft

def ModuleDraft.empty : ModuleDraft := ⟨none, 0, .nil⟩

def wrongType (d : Doc) : DecodeError := ⟨.wrongType, d.mark⟩

/-- An optional string, which null makes absent. -/
def optionalString (d : Doc) : Except DecodeError (Option Text) :=
  match d with
  | .null _ => .ok none
  | .string _ t => .ok (some t)
  | d => .error (wrongType d)

/-- A string; null leaves what there is. -/
def stringOr (old : Text) (d : Doc) : Except DecodeError Text :=
  match d with
  | .null _ => .ok old
  | .string _ t => .ok t
  | d => .error (wrongType d)

/-- An unsigned number of 32 bits, written with digits only. -/
def unsigned (d : Doc) : Except DecodeError UInt32 :=
  match d with
  | .number _ literal =>
    match nat? literal with
    | some n => if n < Bits.span 32 then .ok (UInt32.ofNat n) else .error (wrongType d)
    | none => .error (wrongType d)
  | d => .error (wrongType d)

/-- A signed number of 32 bits, written with digits and a sign only. -/
def signed (d : Doc) : Except DecodeError Int32 :=
  match d with
  | .number _ literal =>
    match int? literal with
    | some n =>
      if -Bits.span 31 ≤ n ∧ n < Bits.span 31 then .ok (Int32.ofInt n) else .error (wrongType d)
    | none => .error (wrongType d)
  | d => .error (wrongType d)

/-- An optional value, which null makes absent. -/
def optional {α : Type} (read : Doc → Except DecodeError α) (d : Doc) :
    Except DecodeError (Option α) :=
  match d with
  | .null _ => .ok none
  | d => some <$> read d

mutual

/-- Takes the fields of an instruction, onto those it had; null gives none. -/
def draft (old : Draft) : Doc → Except DecodeError Draft
  | .null _ => .ok old
  | .object _ members => draftMembers old members
  | d => .error (wrongType d)

/-- Takes the fields of an instruction in order; a later one replaces an earlier one, and a list is taken
onto the earlier list. -/
def draftMembers : Draft → List (Text × Doc) → Except DecodeError Draft
  | i, [] => .ok i
  | .mk op value index yes no, (key, d) :: rest => do
    let i ← if sameName "op" key then
        (stringOr op d).map fun op => .mk op value index yes no
      else if sameName "value" key then
        (optional signed d).map fun value => .mk op value index yes no
      else if sameName "index" key then
        (optional unsigned d).map fun index => .mk op value index yes no
      else if sameName "then" key then
        (draftList yes d).map fun yes => .mk op value index yes no
      else if sameName "else" key then
        (draftList no d).map fun no => .mk op value index yes no
      else .error ⟨.unknownField key, 0⟩
    draftMembers i rest

/-- Takes a list of instructions, in the array of the old one; null stands for the empty list. A list that
is empty starts with a new array. -/
def draftList (old : Slice Draft) : Doc → Except DecodeError (Slice Draft)
  | .null _ => .ok .nil
  | .list _ [] => .ok .nil
  | .list _ items => draftItems old.array items
  | d => .error (wrongType d)

/-- Takes each instruction onto what the array has in its place, and then leaves the rest of the array
behind the list. -/
def draftItems : List Draft → List Doc → Except DecodeError (Slice Draft)
  | array, [] => .ok ⟨[], array⟩
  | array, d :: rest => do
    let i ← draft (array.headD .empty) d
    let rest ← draftItems array.tail rest
    return ⟨i :: rest.items, rest.behind⟩

end

/-- Takes the fields of a module in order. -/
def moduleMembers (m : ModuleDraft) : List (Text × Doc) → Except DecodeError ModuleDraft
  | [] => .ok m
  | (key, d) :: rest => do
    let m ← if sameName "export" key then
        (optionalString d).map fun name => { m with name := name }
      else if sameName "locals" key then
        (optional unsigned d).map fun n => { m with locals := n.getD m.locals }
      else if sameName "body" key then
        (draftList m.body d).map fun body => { m with body := body }
      else .error ⟨.unknownField key, 0⟩
    moduleMembers m rest

def moduleDraft : Doc → Except DecodeError ModuleDraft
  | .null _ => .ok .empty
  | .object _ members => moduleMembers .empty members
  | d => .error (wrongType d)

/-! ## Instructions -/

mutual

/-- The instruction of a draft that stands at `path`. -/
def instrOf (path : Text) : Draft → Except DecodeError Instr
  | .mk op value index ⟨yes, _⟩ ⟨no, _⟩ =>
    if op == "i32.const" then
      match value with
      | some n => .ok (.const n)
      | none => .error ⟨.constWithoutValue path, 0⟩
    else if op == "select" then .ok .select
    else if op == "if" then do
      let yes ← instrsOf (path ++ ".then") 0 yes
      let no ← instrsOf (path ++ ".else") 0 no
      return .branch yes no
    else if op == "local.get" || op == "local.set" then
      match index with
      | some i => .ok (if op == "local.get" then .localGet i else .localSet i)
      | none => .error ⟨.slotWithoutIndex path op, 0⟩
    else if op == "end" then .ok .stop
    else .error ⟨.unknownOperation path op, 0⟩

/-- The instructions of a list at `path`, from place `i` on. -/
def instrsOf (path : Text) (i : Nat) : List Draft → Except DecodeError (List Instr)
  | [] => .ok []
  | d :: rest => do
    let a ← instrOf (path ++ "[" ++ Text.ofNat i ++ "]") d
    let rest ← instrsOf path (i + 1) rest
    return a :: rest

end

/-! ## Modules -/

/-- Complains about what follows a document. A closing bracket counts as nothing. -/
def checkTrailing (offset : Nat) (rest : Text) : Except DecodeError Unit :=
  let blanks := rest.takeWhile isSpace
  match rest.dropWhile isSpace with
  | [] => .ok ()
  | b :: _ =>
    if b == byte ']' || b == byte '\x7d' then .ok ()
    else .error ⟨.trailing, offset + blanks.length⟩

/-- Reads a valid module. -/
def decode (t : Text) : Except DecodeError Module := do
  let taken ← (read t).mapError .ofFault
  let m ← moduleDraft taken.doc
  checkTrailing taken.offset taken.rest
  match m.name with
  | none => throw ⟨.noExport, 0⟩
  | some name =>
    let body ← instrsOf "body" 0 m.body.items
    let m : Module := ⟨name, m.locals, body⟩
    match m.validate with
    | .error e => throw ⟨.invalid e, 0⟩
    | .ok () => return m

/-! ## Documents that are passed on as they are -/

/-- A document in its written form, which is neither read nor changed. -/
structure Raw where
  bytes : Text
  deriving DecidableEq, Repr

def Raw.ofDocument (t : Text) : Raw := ⟨t⟩

def Raw.document (r : Raw) : Text := r.bytes

end LetIf.Json
