/-
Flags of the command line. Each flag has a value: that of its last use, else that of its
environment variable, else a default. Flags end at the first argument that is none.
-/
import LetIf.Text.Quoted

namespace LetIf

inductive Flag where
  | codec
  | dataFile
  | exportName
  | address
  | logLevel
  | output
  | strategy
  deriving DecidableEq, Repr

namespace Flag

/-- All flags, in the order of their names. -/
def all : List Flag := [.codec, .dataFile, .exportName, .address, .logLevel, .output, .strategy]

def name : Flag → Text
  | .codec => "codec"
  | .dataFile => "data-file"
  | .exportName => "export"
  | .address => "http-port"
  | .logLevel => "log-level"
  | .output => "o"
  | .strategy => "strategy"

def ofName? (t : Text) : Option Flag := all.find? fun f => f.name == t

/-- The environment variable that gives a flag its default. -/
def environmentName? : Flag → Option Text
  | .codec => some "EXPRC_CODEC"
  | .dataFile => some "EXPRC_DATA_FILE"
  | .exportName => some "EXPRC_EXPORT"
  | .address => some "EXPRC_HTTP_PORT"
  | .logLevel => some "EXPRC_LOG_LEVEL"
  | .output => none
  | .strategy => some "EXPRC_STRATEGY"

/-- The value of a flag that neither the arguments nor the environment give. -/
def fallback : Flag → Text
  | .codec => "wasm"
  | .dataFile => []
  | .exportName => "main"
  | .address => "8080"
  | .logLevel => "info"
  | .output => []
  | .strategy => "select"

def description : Flag → Text
  | .codec =>
    "Output format of compile: wasm, wat or llvm. Defaults to environment variable EXPRC_CODEC."
  | .dataFile =>
    "Path to the compiled module cache. No caching if empty. Defaults to environment variable " ++
      "EXPRC_DATA_FILE."
  | .exportName =>
    "Name under which the compiled function is exported. Defaults to environment variable " ++
      "EXPRC_EXPORT."
  | .address => "Port serve listens on. Defaults to environment variable EXPRC_HTTP_PORT."
  | .logLevel =>
    "One of panic, fatal, error, warn, info, debug or trace. Defaults to environment variable " ++
      "EXPRC_LOG_LEVEL."
  | .output => "Path compile writes to. Writes to standard output if empty."
  | .strategy =>
    "How conditionals are lowered: select or branch. Defaults to environment variable " ++
      "EXPRC_STRATEGY."

end Flag

/-- The value of every flag. -/
abbrev Settings := Flag → Text

/-- An environment: the value of a variable, empty if it is not set. -/
abbrev Environment := Text → Text

namespace Settings

/-- The settings without any argument. An empty variable counts as not set. -/
def ofEnvironment (env : Environment) : Settings := fun f =>
  match f.environmentName? with
  | some v => if (env v).isEmpty then f.fallback else env v
  | none => f.fallback

def set (s : Settings) (f : Flag) (v : Text) : Settings := fun g => if g = f then v else s g

end Settings

/-! ## Reading the arguments -/

/-- What the form of an argument says. -/
inductive Argument where
  | plain
  /-- Two hyphens, which end the flags. -/
  | divider
  | malformed
  | flag (name : Text) (value? : Option Text)
  deriving DecidableEq, Repr

namespace Argument

def hyphen : UInt8 := Text.byte '-'

def equals : UInt8 := Text.byte '='

/-- A flag without its hyphens; an equals sign that is not its first byte divides name and value. -/
def ofBody : Text → Argument
  | [] => .malformed
  | b :: rest =>
    if b == hyphen || b == equals then .malformed
    else
      let (name, value) := Text.splitAtFirst (· == equals) rest
      .flag (b :: name) (if value.isEmpty then none else some (value.drop 1))

/-- One or two hyphens start a flag; a hyphen alone is no flag. -/
def ofText : Text → Argument
  | [] => .plain
  | [_] => .plain
  | a :: b :: rest =>
    if a != hyphen then .plain
    else if b != hyphen then ofBody (b :: rest)
    else if rest.isEmpty then .divider
    else ofBody rest

end Argument

/-- Why the flags cannot be read. -/
inductive FlagError where
  | help
  | malformed (argument : Text)
  | undefined (name : Text)
  | valueMissing (name : Text)
  deriving DecidableEq, Repr

/-- What is said before the usage; a call for help needs no word. -/
def FlagError.message? : FlagError → Option Text
  | .help => none
  | .malformed a => some ("bad flag syntax: " ++ a)
  | .undefined name => some ("flag provided but not defined: -" ++ name)
  | .valueMissing name => some ("flag needs an argument: -" ++ name)

/-- A flag that is not defined; two of them ask for help. -/
def FlagError.ofUndefined (name : Text) : FlagError :=
  if name == Text.ofString "help" || name == Text.ofString "h" then .help else .undefined name

/-- Reads the flags: the settings after them, and the arguments that follow. -/
def Settings.read (s : Settings) : List Text → Except FlagError (Settings × List Text)
  | [] => .ok (s, [])
  | a :: rest =>
    match Argument.ofText a with
    | .plain => .ok (s, a :: rest)
    | .divider => .ok (s, rest)
    | .malformed => .error (.malformed a)
    | .flag name value? =>
      match Flag.ofName? name with
      | none => .error (.ofUndefined name)
      | some f =>
        match value?, rest with
        | some v, rest => (s.set f v).read rest
        | none, v :: rest => (s.set f v).read rest
        | none, [] => .error (.valueMissing name)

/-! ## Usage -/

def usageHead : Text :=
  "usage: exprc [flags] <command> [file]\n\n" ++
  "commands:\n" ++
  "  check     print the type of the program\n" ++
  "  eval      evaluate the program with the interpreter\n" ++
  "  compile   compile the program (see -codec, -o)\n" ++
  "  run       compile the program to wasm and execute it\n" ++
  "  repl      start an interactive session\n" ++
  "  serve     serve the compiler over HTTP (see -http-port, -data-file)\n\n" ++
  "The program is read from file, or from standard input if file is omitted.\n\n" ++
  "flags:\n"

/-- The lines of one flag; an empty default is not shown. -/
def Flag.usage (f : Flag) (default : Text) : Text :=
  let shown : Text := if default.isEmpty then [] else " (default " ++ Text.quoted default ++ ")"
  "  -" ++ f.name ++ " string\n    \t" ++ f.description ++ shown ++ "\n"

/-- How the program is used, with the settings of an environment as the defaults. -/
def usage (env : Environment) : Text :=
  usageHead ++ Flag.all.flatMap fun f => f.usage (Settings.ofEnvironment env f)

end LetIf
