/-
The program. It makes the script of its arguments and carries it out.
-/
import LetIf.CommandLine.Command
import Std.Time.Format

namespace LetIf.Main

def utf8 (t : Text) : ByteArray := ⟨t.toArray⟩

def causeOf : IO.Error → FileError.Cause
  | .noFileOrDirectory _ _ _ => .noSuchFile
  | .inappropriateType _ 21 _ => .isDirectory
  | .inappropriateType _ _ _ => .notDirectory
  | .permissionDenied _ _ _ => .other "permission denied"
  | e => .other (Text.ofString (toString e))

/-- Does something with the file at a path. A directory is found out when it is read. -/
def withPath {α : Type} (step path : Text) (act : String → IO α) : IO (Except FileError α) := do
  match String.fromUTF8? (utf8 path) with
  | none => return .error ⟨"open", path, .other "invalid argument"⟩
  | some name =>
    try
      return .ok (← act name)
    catch e =>
      let cause := causeOf e
      return .error ⟨if cause = .isDirectory then step else "open", path, cause⟩

def readFile (path : Text) : IO (Except FileError Text) :=
  withPath "read" path fun name => do return (← IO.FS.readBinFile name).toList

def writeFile (path data : Text) : IO (Except FileError Unit) :=
  withPath "open" path fun name => IO.FS.writeBinFile name (utf8 data)

/-- Opens a store. A data file that is not there is made. -/
def openStore (path : Text) : IO (Except OpenError Cache.Store) := do
  let bytes ← match ← readFile path with
    | .error ⟨_, _, .noSuchFile⟩ => do
      match ← writeFile path [] with
      | .ok () => pure (.ok [])
      | .error e => pure (.error e)
    | found => pure found
  match bytes with
  | .error e => return .error (.file { e with step := "open" })
  | .ok bytes =>
    match Cache.Store.ofFile? (.ofBytes bytes) with
    | some s => return .ok s
    | none => return .error .foreign

def print (t : Text) : IO Unit := do
  let out ← IO.getStdout
  out.write (utf8 t)
  out.flush

def complain (t : Text) : IO Unit := do (← IO.getStderr).write (utf8 t)

/-- The time of a log line. -/
def time : IO Text := do
  let now ← Std.Time.Timestamp.now
  return Text.ofString (Std.Time.DateTime.ofTimestamp now .UTC).toISO8601String

/-- Reads the standard input to its end. -/
partial def readInput (input : IO.FS.Stream) (read : ByteArray) : IO Text := do
  let more ← input.read 65536
  if more.isEmpty then return read.toList else readInput input (read ++ more)

/-- The next line of the standard input behind what has been read of it, and what is left over. -/
partial def nextLine (input : IO.FS.Stream) (read : Text) : IO (Option (Text × Text)) := do
  if read.contains Line.feed || Line.window ≤ read.length then
    let (line, taken) := Line.first read
    return some (line.text, read.drop taken)
  else
    let more ← input.read 4096
    if !more.isEmpty then nextLine input (read ++ more.toList)
    else if read.isEmpty then return none
    else return some (read, [])

/-- Holds a conversation until a line or the end of the input ends it. -/
partial def converse (input : IO.FS.Stream) (read : Text) (c : Conversation) : IO Conversation := do
  print Conversation.prompt
  match ← nextLine input read with
  | none => do
    print "\n"
    return c
  | some (line, read) =>
    let t := c.answer line
    print t.output
    complain t.messages
    if t.ended then return t.next else converse input read t.next

/-- Carries a script out. This program brings no listener, so it ends where requests would be
waited for. -/
def carryOut : Script → IO UInt32
  | .exit code => return code.toUInt32
  | .serve _ _ _ => do
    complain "HTTP: listening is not supported\n"
    return 1
  | .print t next => do
    print t
    carryOut next
  | .complain t next => do
    complain t
    carryOut next
  | .log e next => do
    complain (e.line (← time))
    carryOut next
  | .readInput next => do carryOut (next (← readInput (← IO.getStdin) .empty))
  | .readFile path next => do carryOut (next (← readFile path))
  | .writeFile path data next => do carryOut (next (← writeFile path data))
  | .openStore path next => do carryOut (next (← openStore path))
  | .converse c next => do carryOut (next (← converse (← IO.getStdin) [] c))

/-- The variables that the program looks at. -/
def watched : List Text := Text.ofString "HOME" :: Flag.all.filterMap Flag.environmentName?

/-- The values of those variables. -/
def environment : IO Environment := do
  let values ← watched.mapM fun v => do
    let value ← IO.getEnv ((String.fromUTF8? (utf8 v)).getD "")
    return (v, Text.ofString (value.getD ""))
  return fun v => (values.lookup v).getD []

end LetIf.Main

def main (args : List String) : IO UInt32 := do
  let env ← LetIf.Main.environment
  LetIf.Main.carryOut (LetIf.CommandLine.script env (args.map LetIf.Text.ofString))
