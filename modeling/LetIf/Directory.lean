/-
A directory and the files below it, as a value. Paths lead to files, to directories, or to a name
that is still free; what lies outside of the directory cannot be seen.
-/
import LetIf.Cache.Builtin
import LetIf.Path

namespace LetIf

/-- Why a file cannot be used. -/
inductive FileError.Cause where
  | noSuchFile
  | isDirectory
  | notDirectory
  | nameTooLong
  /-- A cause that only the host knows. -/
  | other (text : Text)
  deriving DecidableEq, Repr

def FileError.Cause.message : FileError.Cause → Text
  | .noSuchFile => "no such file or directory"
  | .isDirectory => "is a directory"
  | .notDirectory => "not a directory"
  | .nameTooLong => "file name too long"
  | .other text => text

/-- A failed step with a file: which step, and with which file. -/
structure FileError where
  step : Text
  path : Text
  cause : FileError.Cause
  deriving DecidableEq, Repr

def FileError.message (e : FileError) : Text := e.step ++ " " ++ e.path ++ ": " ++ e.cause.message

/-- A file holds bytes or a store. -/
inductive File where
  | plain (bytes : Text)
  | data (modules : Cache.DataFile)
  deriving DecidableEq, Repr

def File.bytes : File → Text
  | .plain bytes => bytes
  | .data _ => []

def File.dataFile : File → Cache.DataFile
  | .plain bytes => .ofBytes bytes
  | .data modules => modules

structure Directory where
  /-- The path of the directory itself. -/
  path : Text
  /-- The files by their clean paths from here. -/
  files : List (Text × File)
  deriving DecidableEq, Repr

namespace Directory

/-- What a path leads to. -/
inductive Place where
  | file (name : Text) (f : File)
  | directory
  /-- A name in a directory that is there. -/
  | free (name : Text)
  deriving DecidableEq, Repr

def nameLimit : Nat := 255

def pathLimit : Nat := 4096

/-- Whether some file is below a path. -/
def isDirectory (d : Directory) (name : Text) : Bool :=
  d.files.any fun f => (name ++ [Path.slash]).isPrefixOf f.1

/-- Whether a component stays where it is. -/
def stays (c : Text) : Bool := c.isEmpty || c == Text.ofString "."

/-- Follows components from a place below the directory, or from above it. -/
def walk (d : Directory) (here : Option (List Text)) :
    List Text → Except FileError.Cause Place
  | [] => .ok .directory
  | c :: rest =>
    if stays c then walk d here rest
    else if c == Text.ofString ".." then
      walk d (here.bind fun names => if names.isEmpty then none else some names.dropLast) rest
    else if nameLimit < c.length then .error .nameTooLong
    else match here with
      | none => .error .noSuchFile
      | some names =>
        let names := names ++ [c]
        let name := Text.join [Path.slash] names
        match d.files.lookup name with
        | some f => if rest.isEmpty then .ok (.file name f) else .error .notDirectory
        | none =>
          if d.isDirectory name then walk d (some names) rest
          else if rest.isEmpty then .ok (.free name)
          else .error .noSuchFile

/-- Where a path leads, from here or from the root. -/
def place (d : Directory) (path : Text) : Except FileError.Cause Place :=
  if path.isEmpty then .error .noSuchFile
  else if pathLimit ≤ path.length then .error .nameTooLong
  else if path == d.path then .ok .directory
  else if (d.path ++ [Path.slash]).isPrefixOf path then
    d.walk (some []) (Text.splitOn Path.slash (path.drop (d.path.length + 1)))
  else d.walk (if Path.isRooted path then none else some []) (Text.splitOn Path.slash path)

/-- Where a path leads that is to be written to. A slash at its end asks for a directory. -/
def placeToWrite (d : Directory) (path : Text) : Except FileError.Cause Place :=
  let bare := Text.trimEnd (· == Path.slash) path
  if bare.length < path.length && !bare.isEmpty then do
    let _ ← d.place bare
    return .directory
  else d.place path

/-- The bytes of a file. A directory can be opened, but not read. -/
def read (d : Directory) (path : Text) : Except FileError Text :=
  match d.place path with
  | .ok (.file _ f) => .ok f.bytes
  | .ok .directory => .error ⟨"read", path, .isDirectory⟩
  | .ok (.free _) => .error ⟨"open", path, .noSuchFile⟩
  | .error cause => .error ⟨"open", path, cause⟩

/-- Enters a file under a name. -/
def set (d : Directory) (name : Text) (f : File) : Directory :=
  { d with files := (name, f) :: d.files.filter fun g => g.1 != name }

/-- The file that a path leads to, blank if it is not there yet, and its name. -/
def openFile (d : Directory) (path : Text) : Except FileError (Text × File) :=
  match d.placeToWrite path with
  | .ok (.file name f) => .ok (name, f)
  | .ok (.free name) => .ok (name, .plain [])
  | .ok .directory => .error ⟨"open", path, .isDirectory⟩
  | .error cause => .error ⟨"open", path, cause⟩

/-- Writes a file, in place of what it held. -/
def write (d : Directory) (path data : Text) : Except FileError Directory := do
  let (name, _) ← d.openFile path
  return d.set name (.plain data)

end Directory

/-! ## Data files -/

/-- Why the store in a data file cannot be used. -/
inductive OpenError where
  | file (e : FileError)
  | foreign
  deriving DecidableEq, Repr

def OpenError.fault : OpenError → Cache.Fault
  | .file e => .other e.message
  | .foreign => .invalid

/-- What is said of a data file that cannot be used. -/
def OpenError.message (path : Text) (e : OpenError) : Text := (Cache.Failure.opening path e.fault).message

/-- Opens the store in a data file, which is made if it is not there. -/
def Directory.openStore (d : Directory) (path : Text) :
    Except OpenError (Cache.Store × Directory) :=
  match d.openFile path with
  | .error e => .error (.file e)
  | .ok (name, f) =>
    match Cache.Store.ofFile? f.dataFile with
    | none => .error .foreign
    | some s => .ok (s, d.set name (.data s.file))

end LetIf
