/-
Log lines. An entry has a level, a message and named values; whether it is written depends on the
level that was chosen.
-/
import LetIf.Text.Utf8
import LetIf.Text.Quoted

namespace LetIf.Log

inductive Level where
  | panic
  | fatal
  | error
  | warning
  | info
  | debug
  | trace
  deriving DecidableEq, Repr

namespace Level

/-- All levels, the gravest first. -/
def all : List Level := [.panic, .fatal, .error, .warning, .info, .debug, .trace]

def name : Level → Text
  | .panic => "panic"
  | .fatal => "fatal"
  | .error => "error"
  | .warning => "warning"
  | .info => "info"
  | .debug => "debug"
  | .trace => "trace"

/-- How far a level is from the gravest. -/
def rank : Level → Nat
  | .panic => 0
  | .fatal => 1
  | .error => 2
  | .warning => 3
  | .info => 4
  | .debug => 5
  | .trace => 6

/-- The level called `t`, in any case; one has a short name as well. -/
def ofName? (t : Text) : Option Level :=
  let name := Text.lowerCase t
  if name == Text.ofString "warn" then some .warning else all.find? fun l => l.name == name

/-- What is said of a name that `ofName?` does not know. -/
def unknownName (t : Text) : Text := "not a valid logrus Level: " ++ Text.quoted t

end Level

structure Entry where
  level : Level
  message : Text
  /-- Named values, in the order of their names. -/
  fields : List (Text × Text)
  deriving DecidableEq, Repr

/-- The bytes that a value may hold and stand without quotes. -/
def isBare (b : UInt8) : Bool :=
  Text.isLetter b || Text.isDigit b || (Text.ofString "-._/@^+").contains b

/-- A value as it stands in a line. -/
def value (t : Text) : Text := if t.all isBare then t else Text.quoted t

/-- The line of an entry that is made at a certain time. -/
def Entry.line (e : Entry) (time : Text) : Text :=
  let fields : List (Text × Text) :=
    ("time", time) :: ("level", e.level.name) :: ("msg", e.message) :: e.fields
  Text.join " " (fields.map fun (name, v) => name ++ "=" ++ value v) ++ "\n"

end LetIf.Log
