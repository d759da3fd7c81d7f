/-
The address that the service listens on: a colon and a number, which may have a sign. Anything
else would be the name of a service, and names are not known here.
-/
import LetIf.Text.Basic

namespace LetIf.Service

/-- Why nothing can listen at what follows the colon. -/
inductive AddressError where
  | tooManyColons (number : Text)
  | unexpectedBracket (number : Text) (bracket : UInt8)
  | unknownName (name : Text)
  | outOfRange (number : Text)
  deriving DecidableEq, Repr

def AddressError.message : AddressError → Text
  | .tooManyColons t => "address :" ++ t ++ ": too many colons in address"
  | .unexpectedBracket t b => "address :" ++ t ++ ": unexpected '" ++ [b] ++ "' in address"
  | .unknownName t => "lookup tcp/" ++ t ++ ": unknown port"
  | .outOfRange t => "address " ++ t ++ ": invalid port"

/-- Where the service listens. -/
structure Address where
  number : UInt16
  deriving DecidableEq, Repr

namespace Address

/-- From here on a number is far out of range, whatever digits follow. -/
def cutoff : UInt32 := 0x40000000

/-- The value of digits in 32-bit words, as long as it stays below the cutoff. -/
def magnitude? (n : UInt32) : Text → Option UInt32
  | [] => some n
  | d :: rest =>
    if !Text.isDigit d then none
    else if cutoff ≤ n then some n
    else
      let shifted := n * 10
      let next := shifted + (d - 48).toUInt32
      if next < shifted then some cutoff else magnitude? next rest

/-- The number that a text stands for; nothing if the text is a name. -/
def number? : Text → Option Int
  | [] => some 0
  | b :: rest =>
    if b == Text.byte '+' then (magnitude? 0 rest).map fun n => (n.toNat : Int)
    else if b == Text.byte '-' then (magnitude? 0 rest).map fun n => -(n.toNat : Int)
    else (magnitude? 0 (b :: rest)).map fun n => (n.toNat : Int)

/-- The address whose number is written as `t`. -/
def ofText (t : Text) : Except AddressError Address :=
  if t.contains (Text.byte ':') then .error (.tooManyColons t)
  else if t.contains (Text.byte '[') then .error (.unexpectedBracket t (Text.byte '['))
  else if t.contains (Text.byte ']') then .error (.unexpectedBracket t (Text.byte ']'))
  else match number? t with
    | none => .error (.unknownName t)
    | some n => if 0 ≤ n ∧ n < 65536 then .ok ⟨n.toNat.toUInt16⟩ else .error (.outOfRange t)

end Address

end LetIf.Service
