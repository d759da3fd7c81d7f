/-
Interactive sessions. A line is an expression to be evaluated or a command that starts with a
colon. The only thing that lasts from line to line is the strategy.
-/
import LetIf.Dump
import LetIf.Llvm.Builder
import LetIf.Program
import LetIf.Text.Utf8
import LetIf.Wat.Module

namespace LetIf

structure Session where
  target : Target
  deriving DecidableEq, Repr

namespace Session

/-- What a line may lead to instead of a text to print. -/
inductive Failure where
  /-- The session is to end. -/
  | quit
  | refused (e : SourceError)
  | unknownStrategy (name : Text)
  | unknownCommand (name : Text)
  | call (e : Engine.CallError)
  | defect (d : Defect)
  deriving DecidableEq

def help : Text :=
  "enter an expression to evaluate it, or one of\n" ++
  "  :type EXPR          print the type of EXPR\n" ++
  "  :ast EXPR           print the elaborated tree of EXPR\n" ++
  "  :wat EXPR           print the compiled module as WAT\n" ++
  "  :llvm EXPR          print the compiled module as LLVM IR\n" ++
  "  :run EXPR           compile EXPR to wasm and execute it\n" ++
  "  :strategy NAME      lower conditionals with select or branch\n" ++
  "  :quit               leave"

inductive Command where
  | quit
  | help
  | type
  | ast
  | strategy
  | wat
  | llvm
  | run
  deriving DecidableEq, Repr

def Command.ofName? (t : Text) : Option Command :=
  if t == ":quit" || t == ":q" then some .quit
  else if t == ":help" || t == ":h" then some .help
  else if t == ":type" || t == ":t" then some .type
  else if t == ":ast" then some .ast
  else if t == ":strategy" then some .strategy
  else if t == ":wat" then some .wat
  else if t == ":llvm" then some .llvm
  else if t == ":run" then some .run
  else none

def ofProgram : Program.Failure → Failure
  | .refused e => .refused e
  | .defect d => .defect d

def check (src : Text) : Except Failure (Typing.Elaborated Position) :=
  (Program.check src).mapError ofProgram

def compile (s : Session) (src : Text) : Except Failure Module :=
  (Program.compile s.target src).mapError ofProgram

/-- The text of a module without the line feed at its end. -/
def shown (module : Except Defect Text) : Except Failure Text := do
  return Text.dropSuffix "\n" (← module.mapError .defect)

def ofRun : Program.RunFailure → Failure
  | .compiling f => ofProgram f
  | .calling e => .call e

/-- Compiles a source to WebAssembly and runs it. -/
def run [Engine.Runtime] (s : Session) (src : Text) : Except Failure Int32 :=
  (Program.run s.target src).mapError ofRun

/-- The value and type of an expression. -/
def answer (src : Text) : Except Failure Text := do
  let (v, m) ← (Program.eval src).mapError ofProgram
  return v.text ++ " : " ++ m.kind.name

/-- Carries out a command with its argument. -/
def command [Engine.Runtime] (s : Session) (c : Command) (arg : Text) : Except Failure (Text × Session) :=
  match c with
  | .quit => .error .quit
  | .help => .ok (help, s)
  | .type => do return ((← check arg).model.kind.name, s)
  | .ast => do return (Dump.expr (← check arg).tree, s)
  | .strategy =>
    if arg.isEmpty then .ok (s.target.strategy.name, s)
    else match Strategy.ofName? arg with
      | some strategy =>
        .ok ("strategy: " ++ strategy.name, { s with target := { s.target with strategy } })
      | none => .error (.unknownStrategy arg)
  | .wat => do
    let m ← s.compile arg
    return (← shown ((Wat.render m).mapError .internal), s)
  | .llvm => do
    let m ← s.compile arg
    return (← shown (Llvm.encode m), s)
  | .run => do return (Text.ofInt (← s.run arg).toInt, s)

/-- The name of a command and its argument, which a space or a tab divides. -/
def splitCommand (line : Text) : Text × Text :=
  let (name, rest) := Text.splitAtFirst (fun b => b == 32 || b == 9) line
  (name, Text.trimBlank (rest.drop 1))

/-- What is to be printed for a line, and the session after it. -/
def eval [Engine.Runtime] (s : Session) (line : Text) : Except Failure (Text × Session) :=
  let line := Text.trimBlank line
  match line with
  | [] => .ok ([], s)
  | b :: _ =>
    if b == Text.byte ':' then
      let (name, arg) := splitCommand line
      match Command.ofName? name with
      | some c => s.command c arg
      | none => .error (.unknownCommand name)
    else do return (← answer line, s)

/-- The session after a line; a line that fails changes nothing. -/
def next [Engine.Runtime] (s : Session) (line : Text) : Session :=
  match s.eval line with
  | .ok (_, s) => s
  | .error _ => s

/-- What is said of a failure. A defect that stops the program is not worded here. -/
def Failure.message : Failure → Text
  | .quit => "quit"
  | .refused e => e.report.text
  | .unknownStrategy name => Strategy.unknownName name
  | .unknownCommand name => "unknown command " ++ name ++ ", try :help"
  | .call e => e.message
  | .defect d => d.message.getD []

end Session

end LetIf
