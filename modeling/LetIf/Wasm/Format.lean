/-
The binary WebAssembly format of a module, as far as it is written: a header, then the sections
for the signature, the function, its export and its code.
-/
import LetIf.Code.Instr
import LetIf.Defect
import LetIf.Wasm.Leb128

namespace LetIf.Wasm

def magic : Text := [0x00, 0x61, 0x73, 0x6d]

def version : Text := [0x01, 0x00, 0x00, 0x00]

/-- The sections of a module. -/
inductive Section where
  | types
  | functions
  | exports
  | code
  deriving DecidableEq, Repr

namespace Section

def id : Section → UInt8
  | .types => 1
  | .functions => 3
  | .exports => 7
  | .code => 10

def name : Section → Text
  | .types => "type"
  | .functions => "function"
  | .exports => "export"
  | .code => "code"

def ofId? : UInt8 → Option Section
  | 1 => some .types
  | 3 => some .functions
  | 7 => some .exports
  | 10 => some .code
  | _ => none

/-- The name of a section by its number. -/
def nameOfId (id : UInt8) : Text := ((ofId? id).map name).getD "unknown"

end Section

/-! ## Bytes with a meaning -/

def i32Type : UInt8 := 0x7f
def funcType : UInt8 := 0x60

def opIf : UInt8 := 0x04
def opElse : UInt8 := 0x05
def opEnd : UInt8 := 0x0b
def opSelect : UInt8 := 0x1b
def opLocalGet : UInt8 := 0x20
def opLocalSet : UInt8 := 0x21
def opConst : UInt8 := 0x41

/-- One signature, without parameters and with one word as result. -/
def typesContents : Text := [0x01, funcType, 0x00, 0x01, i32Type]

/-- One function of the first signature. -/
def functionsContents : Text := [0x01, 0x00]

/-- The export of the first function. -/
def exportOfFunction : Text := [0x00, 0x00]

/-! ## Writing -/

/-- A text behind its length. -/
def sized (t : Text) : Text := Leb128.unsigned t.length ++ t

def section_ (s : Section) (contents : Text) : Text := s.id :: sized contents

mutual

def instr : Instr → Except InternalError Text
  | .const n => .ok (opConst :: Leb128.signed n.toInt)
  | .select => .ok [opSelect]
  | .branch yes no => do
    let yes ← code yes
    let no ← code no
    return opIf :: i32Type :: yes ++ opElse :: no ++ [opEnd]
  | .localGet i => .ok (opLocalGet :: Leb128.unsigned i.toNat)
  | .localSet i => .ok (opLocalSet :: Leb128.unsigned i.toNat)
  | .stop => .ok [opEnd]
  | .unknown => .error .wasmUnknown

def code : List Instr → Except InternalError Text
  | [] => .ok []
  | i :: rest => do
    let i ← instr i
    let rest ← code rest
    return i ++ rest

end

/-- The declaration of the locals: one group, or none. -/
def localsDecl (n : UInt32) : Text :=
  if n = 0 then [0x00] else 0x01 :: Leb128.unsigned n.toNat ++ [i32Type]

def exportsContents (name : Text) : Text := 0x01 :: sized name ++ exportOfFunction

/-- A module in the binary format. -/
def encode (m : Module) : Except InternalError Text := do
  let body ← code m.body
  return magic ++ version ++ section_ .types typesContents ++
    section_ .functions functionsContents ++ section_ .exports (exportsContents m.name) ++
    section_ .code (0x01 :: sized (localsDecl m.locals ++ body))

end LetIf.Wasm
