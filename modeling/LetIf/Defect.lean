/-
Defects: what an operation meets when it is given something unfinished or out of its domain, such
as an expression with a hole, a free variable that checking would have refused, or an instruction
that does not exist. No defect arises on programs that have passed the checks before.
-/
import LetIf.Ident
import LetIf.Value
import LetIf.Strategy
import LetIf.Report

namespace LetIf

/-- A broken assumption between two stages of the compiler. -/
inductive InternalError where
  | inferHole
  | inferNoValue
  | evaluateHole
  | evaluateFree (name : Ident)
  | evaluateCondition (found : Option Value)
  | lowerHole
  | lowerFree (name : Ident)
  | lowerStrategy (strategy : Strategy)
  | runUnknown
  | wasmUnknown
  | watUnknown
  | llvmUnknown
  | llvmUnderflow
  deriving DecidableEq

namespace InternalError

def message : InternalError → Text
  | .inferHole => "kvm.infer: unknown expression type"
  | .inferNoValue => "kvm.literalModel: literal without value"
  | .evaluateHole => "kvm.Evaluate: unknown expression type <nil>"
  | .evaluateFree name => "kvm.Evaluate: free variable " ++ name.text
  | .evaluateCondition found =>
    "kvm.Evaluate: condition evaluated to " ++ ((found.map Value.text).getD "%!s(<nil>)") ++
      ", not a boolean"
  | .lowerHole => "kvm.Lower: unknown expression type <nil>"
  | .lowerFree name => "kvm.Lower: unbound variable " ++ name.text
  | .lowerStrategy strategy => "kvm.Lower: unknown strategy " ++ strategy.name
  | .runUnknown => "VirtualMachine.Execute: unknown instruction <nil>"
  | .wasmUnknown => "binary.Encode: unknown instruction <nil>"
  | .watUnknown => "text.Render: unknown instruction <nil>"
  | .llvmUnknown => "llvm.Translate: unknown instruction <nil>"
  | .llvmUnderflow => "llvm.Translate: stack underflow in unvalidated module"

def report (e : InternalError) : Report := .ofProblem .internalError e.message none

end InternalError

inductive Defect where
  /-- A broken assumption that has a report of its own. -/
  | internal (e : InternalError)
  /-- A hole in an expression whose annotations are to be replaced. -/
  | mapHole
  /-- A hole in an expression that is to be printed. -/
  | printHole
  /-- A model that is not there. -/
  | noModel
  /-- A number that names no kind. -/
  | noKind
  /-- An instruction that cannot be written as JSON. -/
  | jsonUnknown
  /-- A format name that is taken. -/
  | formatTaken (name : Text)
  /-- A block of code without an end: its label, and its text so far. -/
  | openBlock (label written : Text)
  /-- An index outside its range, or a value that is not there. -/
  | absent
  deriving DecidableEq

/-- What is said of a defect; nothing of an absent element. -/
def Defect.message : Defect → Option Text
  | .internal e => some e.report.text
  | .mapHole => some "xpr.Map: unknown expression type"
  | .printHole => some "xpr.ToHuman: unknown expression type"
  | .noModel => some "mdl.Map: unknown model type"
  | .noKind => some "mdl.Annotate: invalid kind"
  | .jsonUnknown => some "json.encode: unhandled instruction type: <nil>"
  | .formatTaken name => some ("Codec already registered for key: " ++ name)
  | .openBlock label written =>
    some ("missing terminator in basic block " ++ Text.quoted label ++
      ".\ncurrent instructions:\n" ++ written)
  | .absent => none

end LetIf
