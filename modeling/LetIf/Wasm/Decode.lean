/-
Reading modules in the binary WebAssembly format. Beyond what is written, numbers may be padded,
locals may come in several groups, and custom sections are skipped; everything else is refused at
the offset where it shows. A module that is read is also valid.
-/
import LetIf.Code.Validate
import LetIf.Text.Utf8
import LetIf.Wasm.Format

namespace LetIf.Wasm

inductive Problem where
  | noMagic
  | noVersion
  | endOfData
  | badUnsigned
  | badSigned
  | sectionTooLong
  | wrongSection (want : Section) (found : UInt8)
  | trailingBytes (s : Section)
  | noSignature
  | noFunction
  | noExport
  | nameTooLong
  | nameNotUtf8
  | noFunctionExport
  | noBody
  | bodySize
  | localType (t : UInt8)
  | tooManyLocals
  | noEnd
  | blockType (t : UInt8)
  | noElse
  | duplicateElse
  | unknownOpcode (op : UInt8)
  | unexpectedElse
  | trailingData
  | invalid (e : ValidationError)
  deriving DecidableEq, Repr

def Problem.message : Problem → Text
  | .noMagic => "expected wasm magic number"
  | .noVersion => "expected wasm version 1"
  | .endOfData => "unexpected end of data"
  | .badUnsigned => "malformed unsigned LEB128"
  | .badSigned => "malformed signed LEB128"
  | .sectionTooLong => "section exceeds data"
  | .wrongSection want found =>
    "expected " ++ want.name ++ " section, found section " ++ Text.ofNat found.toNat
  | .trailingBytes s => "trailing bytes in " ++ s.name ++ " section"
  | .noSignature => "expected a single () -> i32 signature"
  | .noFunction => "expected a single function of type 0"
  | .noExport => "expected a single export"
  | .nameTooLong => "export name exceeds data"
  | .nameNotUtf8 => "export name is not valid UTF-8"
  | .noFunctionExport => "expected an export of function 0"
  | .noBody => "expected a single function body"
  | .bodySize => "function body size does not match code section"
  | .localType t => "local of type 0x" ++ Text.hexByte t ++ ", only i32 is supported"
  | .tooManyLocals => "too many locals"
  | .noEnd => "function body ends without end"
  | .blockType t => "if with block type 0x" ++ Text.hexByte t ++ ", only i32 is supported"
  | .noElse => "if without else"
  | .duplicateElse => "duplicate else"
  | .unknownOpcode op => "unsupported opcode 0x" ++ Text.hexByte op
  | .unexpectedElse => "unexpected else"
  | .trailingData => "trailing data after code section"
  | .invalid _ => "decoded module is invalid"

/-- A problem, and how many bytes were left where it showed. -/
structure Fault where
  problem : Problem
  left : Nat
  deriving DecidableEq, Repr

/-- A problem and the offset at which it shows. -/
structure DecodeError where
  problem : Problem
  offset : Nat
  deriving DecidableEq, Repr

def DecodeError.report (e : DecodeError) : Report :=
  .ofCodec "wasm" e.offset e.problem.message
    (match e.problem with
    | .invalid cause => some cause.report
    | _ => none)

/-! ## Pieces -/

/-- Reads what is left to read and gives the rest. -/
abbrev Reader (α : Type) := (src : Text) → Except Fault (Read α src)

def byte : Reader UInt8
  | [] => .error ⟨.endOfData, 0⟩
  | b :: rest => .ok ⟨b, rest, Read.tail_lt⟩

def u32 : Reader UInt32 := fun src =>
  match Leb128.unsigned? 32 src with
  | some r => .ok (r.map UInt32.ofNat)
  | none => .error ⟨.badUnsigned, src.length⟩

def s32 : Reader Int32 := fun src =>
  match Leb128.signed? 32 src with
  | some r => .ok (r.map Int32.ofInt)
  | none => .error ⟨.badSigned, src.length⟩

/-- Reads exactly the bytes `want`. -/
def expect (want : Text) (problem : Problem) (src : Text) : Except Fault Text :=
  if want.isPrefixOf src then .ok (src.drop want.length) else .error ⟨problem, src.length⟩

/-- The header of the section `want`: how many bytes are left behind its contents, and its
contents with what follows. Custom sections before it are skipped. -/
def sectionHeader (want : Section) (src : Text) : Except Fault (Nat × Text) :=
  match src with
  | [] => .error ⟨.endOfData, 0⟩
  | id :: later =>
    match u32 later with
    | .error e => .error e
    | .ok ⟨size, rest, _⟩ =>
      if size.toNat > rest.length then .error ⟨.sectionTooLong, rest.length⟩
      else if id = 0 then sectionHeader want (rest.drop size.toNat)
      else if id ≠ want.id then .error ⟨.wrongSection want id, rest.length + 1⟩
      else .ok (rest.length - size.toNat, rest)
termination_by src.length
decreasing_by simp only [List.length_drop, List.length_cons]; omega

/-- Checks that a section has been read to its end. -/
def closeSection (s : Section) (left : Nat) (src : Text) : Except Fault Unit :=
  if src.length = left then .ok () else .error ⟨.trailingBytes s, src.length⟩

/-! ## Code -/

/-- What a sequence of instructions stops at. -/
inductive Terminator where
  | atEnd
  | atElse
  deriving DecidableEq, Repr

/-- Reads instructions up to and including the next `else` or `end` of the same level. No opcode is
read when `limit` bytes or fewer are left. -/
def sequence (limit : Nat) : Reader (List Instr × Terminator)
  | [] => .error ⟨.noEnd, 0⟩
  | op :: rest =>
    if rest.length < limit then .error ⟨.noEnd, rest.length + 1⟩
    else if op = opEnd then .ok ⟨([], .atEnd), rest, Read.tail_lt⟩
    else if op = opElse then .ok ⟨([], .atElse), rest, Read.tail_lt⟩
    else if op = opSelect then do
      let ⟨(code, last), r₁, h₁⟩ ← sequence limit rest
      return ⟨(.select :: code, last), r₁, Read.lt_cons h₁⟩
    else if op = opConst then do
      let ⟨n, r₁, h₁⟩ ← s32 rest
      let ⟨(code, last), r₂, h₂⟩ ← sequence limit r₁
      return ⟨(.const n :: code, last), r₂, Read.lt_cons₂ h₁ h₂⟩
    else if op = opLocalGet then do
      let ⟨i, r₁, h₁⟩ ← u32 rest
      let ⟨(code, last), r₂, h₂⟩ ← sequence limit r₁
      return ⟨(.localGet i :: code, last), r₂, Read.lt_cons₂ h₁ h₂⟩
    else if op = opLocalSet then do
      let ⟨i, r₁, h₁⟩ ← u32 rest
      let ⟨(code, last), r₂, h₂⟩ ← sequence limit r₁
      return ⟨(.localSet i :: code, last), r₂, Read.lt_cons₂ h₁ h₂⟩
    else if op = opIf then do
      let ⟨t, r₁, h₁⟩ ← byte rest
      if t ≠ i32Type then throw ⟨.blockType t, r₁.length⟩
      let ⟨(yes, last), r₂, h₂⟩ ← sequence limit r₁
      if last ≠ .atElse then throw ⟨.noElse, r₂.length⟩
      let ⟨(no, last), r₃, h₃⟩ ← sequence limit r₂
      if last ≠ .atEnd then throw ⟨.duplicateElse, r₃.length⟩
      let ⟨(code, last), r₄, h₄⟩ ← sequence limit r₃
      return ⟨(.branch yes no :: code, last), r₄, Read.lt_cons₄ h₁ h₂ h₃ h₄⟩
    else .error ⟨.unknownOpcode op, rest.length + 1⟩
termination_by src => src.length
decreasing_by all_goals simp only [List.length_cons]; omega

/-- Reads `groups` groups of locals onto `total`. -/
def localGroups (groups : Nat) (total : UInt32) (src : Text) : Except Fault (UInt32 × Text) :=
  match groups with
  | 0 => .ok (total, src)
  | groups + 1 => do
    let ⟨n, rest, _⟩ ← u32 src
    let ⟨t, rest, _⟩ ← byte rest
    if t ≠ i32Type then throw ⟨.localType t, rest.length⟩
    if total + n < total then throw ⟨.tooManyLocals, rest.length⟩
    localGroups groups (total + n) rest

/-! ## Modules -/

/-- Reads a module; its validity is not looked at. -/
def module (data : Text) : Except Fault Module := do
  let src ← expect magic .noMagic data
  let src ← expect version .noVersion src
  -- the signature
  let (left, src) ← sectionHeader .types src
  let src ← expect typesContents .noSignature src
  closeSection .types left src
  -- the function
  let (left, src) ← sectionHeader .functions src
  let src ← expect functionsContents .noFunction src
  closeSection .functions left src
  -- the export
  let (left, src) ← sectionHeader .exports src
  let src ← expect [0x01] .noExport src
  let ⟨size, src, _⟩ ← u32 src
  if src.length < size.toNat then throw ⟨.nameTooLong, src.length⟩
  let name := src.take size.toNat
  if !Text.isUtf8 name then throw ⟨.nameNotUtf8, src.length⟩
  let src ← expect exportOfFunction .noFunctionExport (src.drop size.toNat)
  closeSection .exports left src
  -- the code
  let (left, src) ← sectionHeader .code src
  let src ← expect [0x01] .noBody src
  let ⟨size, src, _⟩ ← u32 src
  if src.length ≠ left + size.toNat then throw ⟨.bodySize, src.length⟩
  let ⟨groups, src, _⟩ ← u32 src
  let (locals, src) ← localGroups groups.toNat 0 src
  let ⟨(code, last), src, _⟩ ← sequence left src
  if last ≠ .atEnd then throw ⟨.unexpectedElse, src.length⟩
  closeSection .code left src
  if !src.isEmpty then throw ⟨.trailingData, src.length⟩
  return ⟨name, locals, code ++ [.stop]⟩

/-- Reads a valid module. -/
def decode (data : Text) : Except DecodeError Module :=
  match module data with
  | .error fault => .error ⟨fault.problem, data.length - fault.left⟩
  | .ok m =>
    match m.validate with
    | .error e => .error ⟨.invalid e, data.length⟩
    | .ok () => .ok m

end LetIf.Wasm
