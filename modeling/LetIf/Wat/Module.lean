/-
Modules in the WebAssembly text format: written with one instruction to a line, and read from any
layout of the same s-expression. The end of the function stands for the `stop` of its body.
-/
import LetIf.Text.Basic
import LetIf.Defect
import LetIf.Wat.Sexp

namespace LetIf.Wat

open Text

/-! ## Writing -/

def indent (depth : Nat) : Text := (List.replicate depth (ofString "  ")).flatten

/-- The bytes of an identifier, letters and digits apart. -/
def idSigns : Text := "!#$%&'*+-./:<=>?@\\^_\x60|~"

/-- Texts that can follow the sign of an identifier. -/
def isId (t : Text) : Bool :=
  !t.isEmpty && t.all fun b => isLetter b || isDigit b || idSigns.contains b

/-- A byte inside a string. -/
def escapeByte (b : UInt8) : Text :=
  if b < 0x20 || 0x7f ≤ b || b == byte '"' || b == byte '\\' then byte '\\' :: hexByte b else [b]

def quotedBytes (t : Text) : Text := byte '"' :: t.flatMap escapeByte ++ [byte '"']

mutual

def renderInstr (depth : Nat) : Instr → Except InternalError Text
  | .const n => .ok (indent depth ++ "(i32.const " ++ ofInt n.toInt ++ ")\n")
  | .select => .ok (indent depth ++ "(select)\n")
  | .localGet i => .ok (indent depth ++ "(local.get " ++ Text.ofNat i.toNat ++ ")\n")
  | .localSet i => .ok (indent depth ++ "(local.set " ++ Text.ofNat i.toNat ++ ")\n")
  | .branch yes no => do
    let yes ← renderCode (depth + 2) yes
    let no ← renderCode (depth + 2) no
    return indent depth ++ "(if (result i32)\n" ++
      indent (depth + 1) ++ "(then\n" ++ yes ++ indent (depth + 1) ++ ")\n" ++
      indent (depth + 1) ++ "(else\n" ++ no ++ indent (depth + 1) ++ ")\n" ++
      indent depth ++ ")\n"
  | .stop => .ok []
  | .unknown => .error .watUnknown

def renderCode (depth : Nat) : List Instr → Except InternalError Text
  | [] => .ok []
  | i :: rest => do
    let i ← renderInstr depth i
    let rest ← renderCode depth rest
    return i ++ rest

end

/-- The identifier of the function, left out when the export name is none. -/
def renderId (name : Text) : Text := if isId name then "$" ++ name ++ " " else []

def renderLocals (n : UInt32) : Text :=
  if n = 0 then []
  else indent 2 ++ "(local" ++ (List.replicate n.toNat (ofString " i32")).flatten ++ ")\n"

/-- A module as text. -/
def render (m : Module) : Except InternalError Text := do
  let body ← renderCode 2 m.body
  return ofString "(module\n" ++ indent 1 ++ "(func " ++ renderId m.name ++
    "(export " ++ quotedBytes m.name ++ ") (result i32)\n" ++ renderLocals m.locals ++
    body ++ indent 1 ++ ")\n)\n"

/-! ## Reading -/

/-- A list with the given head and one argument after it. -/
def clause? (head : Text) (s : Sexp) : Option Sexp :=
  match s.head == head, s.arguments with
  | true, [arg] => some arg
  | _, _ => none

/-- The clause that gives the type of a result. -/
def isResult (s : Sexp) : Bool := ((clause? "result" s).bind Sexp.word?) == some "i32"

/-- A signed number of 32 bits. -/
def i32? (t : Text) : Option Int32 := do
  let n ← int? t
  if -Bits.span 31 ≤ n ∧ n < Bits.span 31 then some (Int32.ofInt n) else none

/-- An unsigned number of 32 bits. -/
def slot? (t : Text) : Option UInt32 := do
  let n ← nat? t
  if n < Bits.span 32 then some (UInt32.ofNat n) else none

/-- The operand of an access to a slot. -/
def slotOperand (s : Sexp) : Except ParseError UInt32 :=
  match s.arguments with
  | [.atom o t] | [.string o t] =>
    match slot? t with
    | some i => .ok i
    | none => .error ⟨.invalidSlot t, o⟩
  | _ => .error ⟨.slotForm s.head, s.offset⟩

/-- The operand of a constant. -/
def constOperand (s : Sexp) : Except ParseError Int32 :=
  match s.arguments with
  | [.atom o t] | [.string o t] =>
    match i32? t with
    | some n => .ok n
    | none => .error ⟨.invalidConst t, o⟩
  | _ => .error ⟨.constForm, s.offset⟩

mutual

/-- Reads one instruction. -/
def instr (s : Sexp) : Except ParseError Instr :=
  if s.head == "i32.const" then .const <$> constOperand s
  else if s.head == "select" then
    if s.arguments.isEmpty then .ok .select else .error ⟨.selectForm, s.offset⟩
  else if s.head == "local.get" then .localGet <$> slotOperand s
  else if s.head == "local.set" then .localSet <$> slotOperand s
  else if s.head == "if" then
    match s with
    | .list o [_, result, .list _ (.atom _ y :: yes), .list _ (.atom _ n :: no)] =>
      if isResult result && y == "then" && n == "else" then do
        let yes ← instrs yes
        let no ← instrs no
        return .branch yes no
      else .error ⟨.ifForm, o⟩
    | s => .error ⟨.ifForm, s.offset⟩
  else .error ⟨.unsupported s.head, s.offset⟩

def instrs : List Sexp → Except ParseError (List Instr)
  | [] => .ok []
  | s :: rest => do
    let i ← instr s
    let rest ← instrs rest
    return i :: rest

end

/-- Counts the locals that one declaration adds. -/
def countLocals (n : UInt32) : List Sexp → Except ParseError UInt32
  | [] => .ok n
  | t :: rest =>
    if t.word? == some "i32" then countLocals (n + 1) rest else .error ⟨.localType, t.offset⟩

/-- Reads the declarations of locals, up to the first thing that is none. -/
def localDecls (n : UInt32) : List Sexp → Except ParseError (UInt32 × List Sexp)
  | [] => .ok (n, [])
  | s :: rest =>
    if s.head == "local" then do localDecls (← countLocals n s.arguments) rest
    else .ok (n, s :: rest)

/-- Drops the identifier of a function. -/
def dropId : List Sexp → List Sexp
  | .atom o t :: rest => if 1 < t.length && t.head? == some (byte '$') then rest else .atom o t :: rest
  | l => l

/-- The name in an export clause. -/
def exportName? (s : Sexp) : Option Text :=
  match clause? "export" s with
  | some (.string _ name) => some name
  | _ => none

/-- Reads a function as a module. -/
def func (f : Sexp) : Except ParseError Module := do
  if f.head != "func" then throw ⟨.noFunc, f.offset⟩
  let (name, rest) ← match dropId f.arguments with
    | s :: rest =>
      match exportName? s with
      | some name => pure (name, rest)
      | none => throw ⟨.noExport, f.offset⟩
    | [] => throw ⟨.noExport, f.offset⟩
  let rest ← match rest with
    | s :: rest => if isResult s then pure rest else throw ⟨.noResult, f.offset⟩
    | [] => throw ⟨.noResult, f.offset⟩
  let (locals, rest) ← localDecls 0 rest
  let body ← instrs rest
  return ⟨name, locals, body ++ [.stop]⟩

/-- Reads a valid module. -/
def parse (src : Text) : Except ParseError Module := do
  let top ← Sexp.ofTokens (tokens src)
  match clause? "module" top with
  | none => throw ⟨.noModule, top.offset⟩
  | some f =>
    let m ← func f
    match m.validate with
    | .error e => throw ⟨.invalid e, top.offset⟩
    | .ok () => return m

end LetIf.Wat
