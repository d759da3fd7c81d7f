/-
The formats in which modules are exchanged, by name.
-/
import LetIf.Json.Module
import LetIf.Llvm.Builder
import LetIf.Wasm.Decode
import LetIf.Wat.Module

namespace LetIf

inductive Format where
  | json
  | llvm
  | wasm
  | wat
  deriving DecidableEq, Repr

/-- Why data are no module: the offset at which it shows, and the report. -/
structure DecodeFailure where
  offset : Nat
  report : Report
  deriving DecidableEq, Repr

namespace Format

/-- All formats, in the order of their names. -/
def all : List Format := [.json, .llvm, .wasm, .wat]

def name : Format → Text
  | .json => "json"
  | .llvm => "llvm"
  | .wasm => "wasm"
  | .wat => "wat"

def ofName? (t : Text) : Option Format := all.find? fun f => f.name == t

/-- The names of the formats, as a message lists them. -/
def names : Text := Text.join ", " (all.map name)

def mediaType : Format → Text
  | .json => "application/json"
  | .llvm => "text/x-llvm; charset=utf-8"
  | .wasm => "application/wasm"
  | .wat => "text/plain; charset=utf-8"

/-- Adds a format under a name, which no format may have yet. -/
def register (t : Text) : Except Defect Unit :=
  if (ofName? t).isSome then .error (.formatTaken t) else .ok ()

/-- A module in a format. Modules are not validated before. -/
def encode [Json.Replacement] (f : Format) (m : Module) : Except Defect Text :=
  match f with
  | .json => Json.encode m
  | .llvm => Llvm.encode m
  | .wasm => (Wasm.encode m).mapError .internal
  | .wat => (Wat.render m).mapError .internal

/-- The module that data in a format hold. -/
def decode (f : Format) (data : Text) : Except DecodeFailure Module :=
  match f with
  | .json => (Json.decode data).mapError fun e => ⟨e.offset, e.report⟩
  | .llvm =>
    .error ⟨0, .ofCodec "llvm" 0 "decoding LLVM IR is not supported" none⟩
  | .wasm => (Wasm.decode data).mapError fun e => ⟨e.offset, e.report⟩
  | .wat => (Wat.parse data).mapError fun e => ⟨e.offset, e.report⟩

end Format

end LetIf
