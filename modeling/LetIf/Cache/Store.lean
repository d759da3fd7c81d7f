/-
The cache of compiled modules: a map from keys to modules that lasts in a data file. It is kept by a
database, of which only what is asked of it is said here. A module is handed out as a copy.
-/
import LetIf.Text.Basic

namespace LetIf.Cache

/-- Why a database refuses. -/
inductive Fault where
  | notOpen
  | keyRequired
  | keyTooLarge
  | valueTooLarge
  /-- The data file is in use, and stayed so for the time that was given. -/
  | timeout
  /-- The data file holds something that is no database. -/
  | invalid
  /-- A cause that only the host knows. -/
  | other (text : Text)
  deriving DecidableEq, Repr

def Fault.message : Fault → Text
  | .notOpen => "database not open"
  | .keyRequired => "key required"
  | .keyTooLarge => "key too large"
  | .valueTooLarge => "value too large"
  | .timeout => "timeout"
  | .invalid => "invalid database"
  | .other text => text

/-- A database. A state is that of one data file and of the database that may be open on it; what changes
a state leaves one also if it fails. -/
class Database (D : Type) where
  openFile : D → Except Fault Unit × D
  /-- Makes the bucket of modules, unless it is there. -/
  makeBucket : D → Except Fault Unit × D
  closeFile : D → Except Fault Unit × D
  /-- The bytes under a key in the bucket, or nil. -/
  read : D → (key : Text) → Except Fault (Option Text)
  write : D → (key module : Text) → Except Fault Unit × D
  keyCount : D → Except Fault Nat

/-- A failed access. -/
inductive Failure where
  | opening (path : Text) (f : Fault)
  | makingBucket (f : Fault)
  | closing (f : Fault)
  | reading (f : Fault)
  | writing (f : Fault)
  deriving DecidableEq, Repr

def Failure.message : Failure → Text
  | .opening path f => "opening data file " ++ path ++ ": " ++ f.message
  | .makingBucket f => "creating module bucket: " ++ f.message
  | .closing f => "closing data file: " ++ f.message
  | .reading f => "reading module cache: " ++ f.message
  | .writing f => "writing module cache: " ++ f.message

/-- Appends bytes to a slice that may be nil. Where nothing is appended to nil, it stays nil. -/
def appendTo (slice : Option Text) (t : Text) : Option Text :=
  match slice, t with
  | none, [] => none
  | none, b :: t => some (b :: t)
  | some s, t => some (s ++ t)

section Accesses

variable {D : Type} [Database D]

/-- Opens the data file at a path. Where it has no bucket and none can be made, it is closed again. -/
def openStore (d : D) (path : Text) : Except Failure Unit × D :=
  match Database.openFile d with
  | (.error f, d) => (.error (.opening path f), d)
  | (.ok (), d) =>
    match Database.makeBucket d with
    | (.error f, d) => (.error (.makingBucket f), (Database.closeFile d).2)
    | (.ok (), d) => (.ok (), d)

def close (d : D) : Except Failure Unit × D :=
  ((Database.closeFile d).1.mapError .closing, (Database.closeFile d).2)

/-- The module under a key, or nil: a copy of the bytes in the database, appended to nil. -/
def get (d : D) (key : Text) : Except Failure (Option Text) := do
  match ← (Database.read d key).mapError .reading with
  | some bytes => return appendTo none bytes
  | none => return none

/-- Enters a module under a key, in place of one that is there. -/
def put (d : D) (key module : Text) : Except Failure Unit × D :=
  ((Database.write d key module).1.mapError .writing, (Database.write d key module).2)

/-- How many keys there are. -/
def size (d : D) : Except Failure Nat := (Database.keyCount d).mapError .reading

end Accesses

end LetIf.Cache
