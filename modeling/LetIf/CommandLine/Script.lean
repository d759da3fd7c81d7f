/-
Scripts: what the program does to the world around it, one step after another. A script is plain
data, so what the program does can be said without doing it; `Main` carries scripts out, and
`Script.perform` says what becomes of one in a given directory.
-/
import LetIf.CommandLine.Conversation
import LetIf.CommandLine.Log
import LetIf.Directory
import LetIf.Service.Address

namespace LetIf

inductive Script where
  /-- The program ends with an exit code. -/
  | exit (code : Nat)
  /-- The program goes on answering requests. -/
  | serve (target : Target) (store : Option Cache.Store) (address : Service.Address)
  | print (t : Text) (next : Script)
  /-- Prints to the standard error stream. -/
  | complain (t : Text) (next : Script)
  | log (e : Log.Entry) (next : Script)
  /-- Reads the standard input to its end. -/
  | readInput (next : Text → Script)
  | readFile (path : Text) (next : Except FileError Text → Script)
  | writeFile (path data : Text) (next : Except FileError Unit → Script)
  | openStore (path : Text) (next : Except OpenError Cache.Store → Script)
  /-- Holds a conversation over the lines of the standard input. -/
  | converse (c : Conversation) (next : Conversation → Script)

/-- What a script finds around it. -/
structure Surroundings where
  input : Text
  /-- The time that log lines bear. -/
  time : Text
  directory : Directory
  deriving DecidableEq, Repr

/-- What a script leaves behind. -/
structure Outcome where
  /-- The exit code, unless the program goes on. -/
  code? : Option Nat
  output : Text
  messages : Text
  directory : Directory
  deriving DecidableEq, Repr

namespace Outcome

def after (output messages : Text) (o : Outcome) : Outcome :=
  { o with output := output ++ o.output, messages := messages ++ o.messages }

end Outcome

/-- What becomes of a script. -/
def Script.perform [Engine.Runtime] (w : Surroundings) : Script → Outcome
  | .exit code => ⟨some code, [], [], w.directory⟩
  | .serve _ _ _ => ⟨none, [], [], w.directory⟩
  | .print t next => (next.perform w).after t []
  | .complain t next => (next.perform w).after [] t
  | .log e next => (next.perform w).after [] (e.line w.time)
  | .readInput next => (next w.input).perform { w with input := [] }
  | .readFile path next => (next (w.directory.read path)).perform w
  | .writeFile path data next =>
    match w.directory.write path data with
    | .ok d => (next (.ok ())).perform { w with directory := d }
    | .error e => (next (.error e)).perform w
  | .openStore path next =>
    match w.directory.openStore path with
    | .ok (s, d) => (next (.ok s)).perform { w with directory := d }
    | .error e => (next (.error e)).perform w
  | .converse c next =>
    let t := c.answerAll ((Line.all w.input).map Line.text)
    ((next t.next).perform { w with input := [] }).after t.output t.messages

end LetIf
