/-
The commands of the program. The arguments and the environment decide which script is run.
-/
import LetIf.CommandLine.Flags
import LetIf.CommandLine.Script
import LetIf.Engine.Run
import LetIf.Format
import LetIf.Service.Address
import LetIf.Service.Handler

namespace LetIf

/-- In what this program writes, the replacement character stands as it is. -/
instance : Json.Replacement := ⟨false⟩

namespace Script

/-- Ends the program because something failed. -/
def fail (message : Text) : Script := .complain (message ++ "\n") (.exit 1)

/-- Writes a log entry if the chosen level lets it through. -/
def logAt (chosen : Log.Level) (e : Log.Entry) (next : Script) : Script :=
  if e.level.rank ≤ chosen.rank then .log e next else next

/-- Ends the program with a log entry. -/
def fatal (chosen : Log.Level) (message : Text) : Script :=
  logAt chosen ⟨.fatal, message, []⟩ (.exit 1)

end Script

namespace CommandLine

/-- What is fixed once the flags are read. -/
structure Invocation where
  settings : Settings
  level : Log.Level
  target : Target
  /-- Where conversations keep their history. -/
  history? : Option Text

/-! ## Commands on a source -/

/-- A command that reads a source. -/
inductive Task where
  | check
  | eval
  | compile
  | run
  deriving DecidableEq, Repr

/-- The message for a source that cannot be used. -/
def failureText : Program.Failure → Text
  | .refused e => e.message
  | .defect d => d.message.getD []

def runFailureText : Program.RunFailure → Text
  | .compiling f => failureText f
  | .calling e => e.message

/-- A result as a line of output, or the message of a failure. -/
def conclude (r : Except Text Text) : Script :=
  match r with
  | .ok t => .print (t ++ "\n") (.exit 0)
  | .error message => .fail message

/-- Prints a module or writes it to the file that the settings name. -/
def deliver (inv : Invocation) (module : Text) : Script :=
  let path := inv.settings .output
  if path.isEmpty then .print module (.exit 0)
  else
    .logAt inv.level
      ⟨.debug, "writing module", [("codec", inv.settings .codec), ("path", path)]⟩
      (.writeFile path module fun
        | .ok () => .exit 0
        | .error e => .fail ("writing " ++ path ++ ": " ++ e.message))

/-- Compiles a source in the format that the settings name. The format is looked up first. -/
def compile (inv : Invocation) (src : Text) : Script :=
  let name := inv.settings .codec
  match Format.ofName? name with
  | none => .fail ("unknown codec " ++ name ++ ", available codecs: " ++ Format.names)
  | some format =>
    match Program.compile inv.target src with
    | .error f => .fail (failureText f)
    | .ok m =>
      match format.encode m with
      | .error d => .fail (d.message.getD [])
      | .ok module => deliver inv module

/-- Does what a command asks for with a source. -/
def Task.perform (inv : Invocation) (src : Text) : Task → Script
  | .check =>
    conclude (((Program.check src).mapError failureText).map fun typed => typed.model.kind.name)
  | .eval => conclude (((Program.eval src).mapError failureText).map fun (v, _) => v.text)
  | .compile => CommandLine.compile inv src
  | .run =>
    conclude (((Program.run inv.target src).mapError runFailureText).map fun n =>
      Text.ofInt n.toInt)

/-- Reads the source from a file, or from the standard input if no file or a hyphen is given. -/
def withSource (args : List Text) (k : Text → Script) : Script :=
  match args with
  | [] => .readInput k
  | [path] =>
    if path == [Argument.hyphen] then .readInput k
    else .readFile path fun
      | .ok src => k src
      | .error e => .fail ("reading " ++ path ++ ": " ++ e.message)
  | _ => .fail "expected at most one source file"

/-! ## Conversations -/

/-- Holds a conversation. Without a place for it there is no history; one that cannot be read
counts as empty, and one that cannot be written is only logged. -/
def converse (inv : Invocation) : Script :=
  let session : Session := ⟨inv.target⟩
  match inv.history? with
  | none => .converse ⟨session, []⟩ fun _ => .exit 0
  | some path => .readFile path fun old =>
    let history := match old with
      | .ok bytes => History.ofBytes bytes
      | .error _ => []
    .converse ⟨session, history⟩ fun c =>
      .writeFile path c.history.bytes fun
        | .ok () => .exit 0
        | .error e =>
          .logAt inv.level ⟨.warning, "saving history", [("error", e.message)]⟩ (.exit 0)

/-! ## The service -/

/-- Starts the service with a store or without. -/
def listen (inv : Invocation) (store : Option Cache.Store) : Script :=
  let number := inv.settings .address
  .logAt inv.level
    ⟨.info, "starting exprc " ++ Program.version,
      [("cache", inv.settings .dataFile), ("port", number),
        ("strategy", inv.target.strategy.name)]⟩
    (match Service.Address.ofText number with
      | .ok address => .serve inv.target store address
      | .error e => .fail ("HTTP: listen tcp: " ++ e.message))

/-- Opens the store that the settings name and starts the service. -/
def serve (inv : Invocation) : Script :=
  let path := inv.settings .dataFile
  if path.isEmpty then listen inv none
  else .openStore path fun
    | .error e => .fail (e.message path)
    | .ok s =>
      .logAt inv.level ⟨.debug, "opened module cache", [("path", path)]⟩
        (match s.size with
          | .ok n =>
            .logAt inv.level
              ⟨.info, "opened module cache", [("modules", Text.ofNat n), ("path", path)]⟩
              (listen inv (some s))
          | .error _ => listen inv (some s))

/-! ## The whole program -/

inductive Command where
  | source (task : Task)
  | converse
  | serve
  deriving DecidableEq, Repr

def Command.ofName? (t : Text) : Option Command :=
  if t == Text.ofString "check" then some (.source .check)
  else if t == Text.ofString "eval" then some (.source .eval)
  else if t == Text.ofString "compile" then some (.source .compile)
  else if t == Text.ofString "run" then some (.source .run)
  else if t == Text.ofString "repl" then some .converse
  else if t == Text.ofString "serve" then some .serve
  else none

def Command.script (inv : Invocation) (args : List Text) : Command → Script
  | .source task => withSource args fun src => task.perform inv src
  | .converse => CommandLine.converse inv
  | .serve => CommandLine.serve inv

/-- The file of the history, in the home directory. -/
def historyPath? (env : Environment) : Option Text :=
  let home := env "HOME"
  if home.isEmpty then none else some (Path.child home ".exprc_history")

/-- The script of a run of the program. The flags are read first, then the level of the log, then
the strategy, and last the command; the usage is shown where no command is named. -/
def script (env : Environment) (args : List Text) : Script :=
  match (Settings.ofEnvironment env).read args with
  | .error e =>
    match e.message? with
    | none => .complain (usage env) (.exit 0)
    | some message => .complain (message ++ "\n" ++ usage env) (.exit 2)
  | .ok (settings, rest) =>
    match Log.Level.ofName? (settings .logLevel) with
    | none => .fatal .info (Log.Level.unknownName (settings .logLevel))
    | some level =>
      match rest with
      | [] => .complain (usage env) (.exit 2)
      | name :: args =>
        match Strategy.ofName? (settings .strategy) with
        | none => .fatal level (Strategy.unknownName (settings .strategy))
        | some strategy =>
          match Command.ofName? name with
          | none => .complain (usage env) (.exit 2)
          | some command =>
            command.script ⟨settings, level, ⟨strategy, settings .exportName⟩, historyPath? env⟩
              args

end CommandLine

end LetIf
