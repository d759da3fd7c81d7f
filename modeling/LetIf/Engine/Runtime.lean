/-
Engines that run WebAssembly, and what is asked of one: an instance of the module that data hold, the
function that it exports under a name, and a call of the function without arguments. Which engine it is
stays open.
-/
import LetIf.Text.Basic

namespace LetIf.Engine

inductive ValType where
  | i32
  | i64
  | f32
  | f64
  deriving DecidableEq, Repr

/-- An exported function. A call gives a word for each result, or it is a trap. -/
structure Callable where
  params : List ValType
  results : List ValType
  call : Option { words : List UInt64 // words.length = results.length }

/-- A module that is ready to be used. -/
structure Instance where
  function? : Text → Option Callable

/-- An engine. -/
class Runtime where
  /-- Decodes and validates data, and makes an instance of the module; none if it is not a valid one. -/
  instantiate : Text → Option Instance

/-- Why an export gives no word. -/
inductive CallError where
  | instantiating
  | notFound (name : Text)
  | takesParameters (name : Text) (count : Nat)
  | wrongResult (name : Text)
  | trapped (name : Text)
  deriving DecidableEq, Repr

def CallError.message : CallError → Text
  | .instantiating => "instantiating module"
  | .notFound name => "export not found: " ++ name
  | .takesParameters name count =>
    "export " ++ name ++ " takes " ++ Text.ofNat count ++ " parameters, want none"
  | .wrongResult name => "export " ++ name ++ " does not return a single i32"
  | .trapped name => "calling export " ++ name

/-- The 32-bit number in a word, which is in its lower half. -/
def decode32 (word : UInt64) : Int32 := word.toUInt32.toInt32

/-- Calls the export `name` of the module that data hold, which has to take nothing and to return one
32-bit number. -/
def call [Runtime] (data name : Text) : Except CallError Int32 :=
  match Runtime.instantiate data with
  | none => .error .instantiating
  | some i =>
    match i.function? name with
    | none => .error (.notFound name)
    | some f =>
      if f.params.length ≠ 0 then .error (.takesParameters name f.params.length)
      else if h : f.results = [.i32] then
        match f.call with
        | none => .error (.trapped name)
        | some ⟨words, hwords⟩ =>
          .ok (decode32 (words.head (List.ne_nil_of_length_pos (by rw [hwords, h]; exact Nat.one_pos))))
      else .error (.wrongResult name)

end LetIf.Engine
