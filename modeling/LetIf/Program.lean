/-
Programs from source text to result: checking, evaluation and compilation, and running as WebAssembly:
compiled, written as a module and called by the name of the export.
-/
import LetIf.Engine.Runtime
import LetIf.Wasm.Format
import LetIf.Source.Grammar
import LetIf.Typing.Elaborate
import LetIf.Eval
import LetIf.Lowering

namespace LetIf

/-- Why a source is refused. -/
inductive SourceError where
  | badSyntax (e : SyntaxError)
  | illTyped (e : TypeError Position)
  deriving DecidableEq

def SourceError.report : SourceError → Report
  | .badSyntax e => e.report
  | .illTyped e => e.report

/-- What is said of a refused source on a terminal: the report without the line feeds at its
end. -/
def SourceError.message (e : SourceError) : Text := Text.trimEnd (· == 10) e.report.text

namespace Program

def version : Text := "0.3.0"

/-- What a stage may end in instead of a result. -/
inductive Failure where
  | refused (e : SourceError)
  | defect (d : Defect)
  deriving DecidableEq

def ofTyping : Typing.Failure Position → Failure
  | .illTyped e => .refused (.illTyped e)
  | .defect d => .defect d

/-- The elaboration of a source. -/
def check (src : Text) : Except Failure (Typing.Elaborated Position) := do
  let e ← (Source.parse src).mapError fun e => .refused (.badSyntax e)
  (Typing.infer [] e).mapError ofTyping

/-- The value of a source and the model of its root. -/
def eval (src : Text) : Except Failure (Value × Model Position) := do
  let typed ← check src
  let v ← typed.tree.value.mapError .defect
  return (v, typed.model)

/-- The module of a source. -/
def compile (target : Target) (src : Text) : Except Failure Module := do
  let typed ← check src
  (typed.tree.lower target).mapError .defect

/-- Why a program gives no word. -/
inductive RunFailure where
  | compiling (f : Failure)
  | calling (e : Engine.CallError)
  deriving DecidableEq

/-- Compiles a source to WebAssembly and runs it. -/
def run [Engine.Runtime] (target : Target) (src : Text) : Except RunFailure Int32 := do
  let m ← (compile target src).mapError .compiling
  let data ← (Wasm.encode m).mapError fun e => .compiling (.defect (.internal e))
  (Engine.call data m.name).mapError .calling

end Program

end LetIf
