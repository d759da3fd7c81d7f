/-
Identifiers: a letter followed by letters, digits and underscores, and none of the seven reserved
words.
-/
import LetIf.Text.Quoted

namespace LetIf

open Text

namespace Ident

/-! The letters and digits of identifiers, which are not looked up in the classes that cut a source. -/

def isLetter (b : UInt8) : Bool :=
  (byte 'a' ≤ b && b ≤ byte 'z') || (byte 'A' ≤ b && b ≤ byte 'Z')

def isDigit (b : UInt8) : Bool := byte '0' ≤ b && b ≤ byte '9'

/-- The bytes behind the first one. -/
def isFurther (b : UInt8) : Bool := isLetter b || isDigit b || b == byte '_'

end Ident

/-- The shape of a word, reserved or not. -/
def isWord : Text → Bool
  | [] => false
  | b :: rest => Ident.isLetter b && rest.all Ident.isFurther

def reservedWords : List Text := ["True", "False", "if", "then", "else", "let", "in"]

/-- A name that an expression can bind. -/
structure Ident where
  text : Text
  word : isWord text = true
  free : text ∉ reservedWords
  deriving DecidableEq

namespace Ident

/-- Why a text is no identifier. -/
inductive Refusal where
  | invalid (t : Text)
  | reserved (t : Text)
  deriving DecidableEq, Repr

def Refusal.message : Refusal → Text
  | .invalid t => "invalid identifier: " ++ quoted t
  | .reserved t => "reserved word: " ++ quoted t

/-- The identifier with the given text. The shape is looked at before the reserved words. -/
def ofText (t : Text) : Except Refusal Ident :=
  if hw : isWord t = true then
    if hr : t ∈ reservedWords then .error (.reserved t) else .ok ⟨t, hw, hr⟩
  else .error (.invalid t)

end Ident

end LetIf
