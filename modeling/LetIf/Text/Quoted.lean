/-
Quoted text, as it stands in messages. The quote and the backslash are escaped by a backslash,
printable characters stand for themselves, control characters have their usual letters, and
whatever else there is becomes a hexadecimal escape: two digits for a byte, four or eight for a
character.
-/
import LetIf.Text.Utf8
import LetIf.Text.Printable

namespace LetIf.Text

/-- The letter of a control character that has an escape of its own. -/
def controlLetter? (c : Char) : Option Char :=
  match c.toNat with
  | 7 => some 'a'
  | 8 => some 'b'
  | 9 => some 't'
  | 10 => some 'n'
  | 11 => some 'v'
  | 12 => some 'f'
  | 13 => some 'r'
  | _ => none

/-- A character between quotes `mark`. -/
def escapeChar (mark c : Char) : Text :=
  if c = mark ∨ c = '\\' then [byte '\\', byte c]
  else if isPrintable c then String.utf8EncodeChar c
  else match controlLetter? c with
    | some letter => [byte '\\', byte letter]
    | none =>
      if c.toNat < 0x80 then "\\x" ++ hex 2 c.toNat
      else if c.toNat < 0x10000 then "\\u" ++ hex 4 c.toNat
      else "\\U" ++ hex 8 c.toNat

def escapePiece (mark : Char) : Piece → Text
  | .char c => escapeChar mark c
  | .stray b => "\\x" ++ hexByte b

/-- A text in double quotes. -/
def quoted (t : Text) : Text :=
  byte '"' :: (pieces t).flatMap (escapePiece '"') ++ [byte '"']

/-- A character in single quotes. -/
def quotedChar (c : Char) : Text :=
  byte '\'' :: escapeChar '\'' c ++ [byte '\'']

end LetIf.Text
