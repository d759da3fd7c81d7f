/-
A fragment of LLVM's intermediate representation: one function on words, its local slots in memory
and everything else in values that are assigned once. The text of a function numbers its values in
the order in which they are written.
-/
import LetIf.Text.Basic
import LetIf.Defect

namespace LetIf.Llvm

open Text

/-- The labels of blocks; the parts of a conditional share a number. -/
inductive Label where
  | entry
  | yes (n : Nat)
  | no (n : Nat)
  | merge (n : Nat)
  deriving DecidableEq, Repr

/-- A word, or the result of an operation. -/
inductive Operand where
  | const (n : Int32)
  | result (id : Nat)
  deriving DecidableEq, Repr

inductive Op where
  | alloca (slot : Nat)
  | store (v : Operand) (slot : Nat)
  | load (id slot : Nat)
  /-- Whether a word is not zero. -/
  | isNonzero (id : Nat) (v : Operand)
  | select (id test : Nat) (yes no : Operand)
  | phi (id : Nat) (yes : Operand) (yesFrom : Label) (no : Operand) (noFrom : Label)
  deriving DecidableEq, Repr

inductive Terminator where
  | ret (v : Operand)
  | jump (goal : Label)
  | branch (test : Nat) (yes no : Label)
  deriving DecidableEq, Repr

structure Block where
  label : Label
  ops : List Op
  terminator : Option Terminator
  deriving DecidableEq, Repr

/-- A function without parameters. -/
structure Func where
  name : Text
  blocks : List Block
  deriving DecidableEq, Repr

/-- The value that an operation defines. -/
def Op.result? : Op → Option Nat
  | .load id _ | .isNonzero id _ | .select id .. | .phi id .. => some id
  | .alloca _ | .store .. => none

/-- The values of a function in the order in which they are written. -/
def Func.results (f : Func) : List Nat := f.blocks.flatMap fun b => b.ops.filterMap Op.result?

/-! ## Text -/

def Label.text : Label → Text
  | .entry => "entry"
  | .yes n => "then." ++ Text.ofNat n
  | .no n => "else." ++ Text.ofNat n
  | .merge n => "merge." ++ Text.ofNat n

/-- The bytes that need no quotes in a name. -/
def isPlain (b : UInt8) : Bool :=
  isLetter b || isDigit b || b == byte '$' || b == byte '.' || b == byte '_' || b == byte '-'

/-- Names that would be taken for a number. -/
def isNumber (name : Text) : Bool :=
  match nat? name with
  | some n => n < Bits.span 64
  | none => false

def escapeByte (b : UInt8) : Text :=
  if b < 0x20 || 0x7f ≤ b || b == byte '"' || b == byte '\\' then byte '\\' :: upperHexByte b
  else [b]

/-- The name of a function; one that has none is numbered. -/
def globalName (name : Text) : Text :=
  if name.isEmpty then "@0"
  else if name.all isPlain && !isNumber name then "@" ++ name
  else "@\"" ++ name.flatMap escapeByte ++ "\""

def slotText (slot : Nat) : Text := "%local." ++ Text.ofNat slot

/-- A value by its number among `results`. -/
def resultText (results : List Nat) (id : Nat) : Text := "%" ++ Text.ofNat (results.idxOf id)

/-- Whether a number is plainer in hexadecimal: it is not small, at most a third of its digits there
after the first are new, and the distinct digits' share of the length is in decimal higher by more
than a fifth. -/
def isPlainerInHex (n : Nat) : Bool :=
  let hex := hexDigits n
  let decimal := decimalDigits n
  let distinctHex := hex.eraseDups.length
  let distinctDecimal := decimal.eraseDups.length
  0x1000 ≤ n && 3 * distinctHex ≤ hex.length + 2 &&
    (5 * distinctHex + hex.length) * decimal.length < 5 * distinctDecimal * hex.length

/-- A word in decimal or, where that is plainer, in hexadecimal. -/
def wordText (n : Int32) : Text :=
  if 0 ≤ n.toInt && isPlainerInHex n.toInt.toNat then
    "u0x" ++ (hexDigits n.toInt.toNat).map upperDigitByte
  else ofInt n.toInt

def Operand.text (results : List Nat) : Operand → Text
  | .const n => wordText n
  | .result id => resultText results id

def Op.text (results : List Nat) : Op → Text
  | .alloca slot => slotText slot ++ " = alloca i32"
  | .store v slot => "store i32 " ++ v.text results ++ ", i32* " ++ slotText slot
  | .load id slot => resultText results id ++ " = load i32, i32* " ++ slotText slot
  | .isNonzero id v => resultText results id ++ " = icmp ne i32 " ++ v.text results ++ ", 0"
  | .select id test yes no =>
    resultText results id ++ " = select i1 " ++ resultText results test ++ ", i32 " ++
      yes.text results ++ ", i32 " ++ no.text results
  | .phi id yes yesFrom no noFrom =>
    resultText results id ++ " = phi i32 [ " ++ yes.text results ++ ", %" ++ yesFrom.text ++
      " ], [ " ++ no.text results ++ ", %" ++ noFrom.text ++ " ]"

def Terminator.text (results : List Nat) : Terminator → Text
  | .ret v => "ret i32 " ++ v.text results
  | .jump goal => "br label %" ++ goal.text
  | .branch test yes no =>
    "br i1 " ++ resultText results test ++ ", label %" ++ yes.text ++ ", label %" ++ no.text

/-- A line of a block. -/
def line (t : Text) : Text := "\t" ++ t ++ "\n"

/-- A block, which has to have an end. -/
def Block.text (results : List Nat) (b : Block) : Except Defect Text :=
  let written : Text := b.label.text ++ ":\n" ++ b.ops.flatMap fun op => line (op.text results)
  match b.terminator with
  | some t => .ok (written ++ line (t.text results))
  | none => .error (.openBlock b.label.text written)

/-- A function as text, blank lines between its blocks. -/
def Func.text (f : Func) : Except Defect Text := do
  let blocks ← f.blocks.mapM (Block.text f.results)
  return "define i32 " ++ globalName f.name ++ "() \x7b\n" ++ join "\n" blocks ++ "\x7d\n"

end LetIf.Llvm
