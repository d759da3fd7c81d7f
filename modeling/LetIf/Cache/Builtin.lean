/-
The database that is built in: the modules of a data file as a list, each key once. A data file that is in
use cannot be opened again; one that has been closed refuses every access and keeps what it holds.
-/
import LetIf.Cache.Store

namespace LetIf.Cache

/-- Modules under keys, no two of them the same. -/
structure Modules where
  entries : List (Text × Text)
  nodup : (entries.map Prod.fst).Nodup
  deriving DecidableEq, Repr

namespace Modules

def empty : Modules := ⟨[], List.nodup_nil⟩

def find? (m : Modules) (key : Text) : Option Text := m.entries.lookup key

/-- Enters a module under a key, in place of one that is there. -/
def enter (m : Modules) (key module : Text) : Modules where
  entries := (key, module) :: m.entries.filter fun e => e.1 != key
  nodup := by
    rw [List.map_cons, List.nodup_cons]
    constructor
    · rw [List.mem_map]
      rintro ⟨e, he, hkey⟩
      have hne := (List.mem_filter.1 he).2
      rw [hkey] at hne
      simp at hne
    · exact m.nodup.sublist (List.Sublist.map _ List.filter_sublist)

end Modules

/-- What a data file holds. -/
inductive DataFile where
  /-- Nothing, or the file is not there. -/
  | blank
  | modules (m : Modules)
  /-- Something that is no store. -/
  | foreign
  deriving DecidableEq, Repr

/-- What a file of these bytes holds. Stores are kept as `modules`, never as bytes. -/
def DataFile.ofBytes (t : Text) : DataFile := if t.isEmpty then .blank else .foreign

structure Store where
  modules : Modules
  isOpen : Bool
  deriving DecidableEq, Repr

namespace Store

/-- The most bytes a key may have. -/
def keyLimit : Nat := 32768

/-- The most bytes a module may have. -/
def moduleLimit : Nat := 2147483646

/-- A store without modules. -/
def empty : Store := ⟨.empty, true⟩

/-- The store in a data file; a blank file becomes a store without modules. -/
def ofFile? : DataFile → Option Store
  | .blank => some empty
  | .modules m => some ⟨m, true⟩
  | .foreign => none

/-- The data file of a store. -/
def file (s : Store) : DataFile := .modules s.modules

def close (s : Store) : Store := { s with isOpen := false }

/-- Why a module cannot be entered, if it cannot. -/
def fault? (s : Store) (key module : Text) : Option Fault :=
  if !s.isOpen then some .notOpen
  else if key.isEmpty then some .keyRequired
  else if keyLimit < key.length then some .keyTooLarge
  else if moduleLimit < module.length then some .valueTooLarge
  else none

instance : Database Store where
  openFile s := if s.isOpen then (.error .timeout, s) else (.ok (), { s with isOpen := true })
  makeBucket s := if s.isOpen then (.ok (), s) else (.error .notOpen, s)
  closeFile s := (.ok (), s.close)
  read s key := if s.isOpen then .ok (s.modules.find? key) else .error .notOpen
  write s key module :=
    match s.fault? key module with
    | some f => (.error f, s)
    | none => (.ok (), { s with modules := s.modules.enter key module })
  keyCount s := if s.isOpen then .ok s.modules.entries.length else .error .notOpen

/-! The accesses, where no other database comes into question. -/

abbrev Failure := Cache.Failure

def get (s : Store) (key : Text) : Except Failure (Option Text) := Cache.get s key

def put (s : Store) (key module : Text) : Except Failure Store :=
  match Cache.put s key module with
  | (.ok (), s) => .ok s
  | (.error f, _) => .error f

def size (s : Store) : Except Failure Nat := Cache.size s

end Store

end LetIf.Cache
