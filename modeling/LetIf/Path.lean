/-
Paths: components divided by slashes. A clean path is the shortest one that leads to the same
place, as far as the text of the path tells.
-/
import LetIf.Text.Basic

namespace LetIf.Path

def slash : UInt8 := Text.byte '/'

def isRooted (t : Text) : Bool := t.head? == some slash

/-- The components of a clean path: an empty one and a dot stay where they are, and two dots take
back the component before. Above the root there is nothing; a path without root keeps the dots
that lead out of where it starts. -/
def components (rooted : Bool) (t : Text) : List Text :=
  let step (before : List Text) (c : Text) : List Text :=
    if c.isEmpty || c == Text.ofString "." then before
    else if c == Text.ofString ".." then
      match before with
      | [] => if rooted then [] else [c]
      | b :: rest => if b == Text.ofString ".." then c :: before else rest
    else c :: before
  ((Text.splitOn slash t).foldl step []).reverse

/-- The clean form of a path; a dot if nothing is left. -/
def clean (t : Text) : Text :=
  let joined := Text.join [slash] (components (isRooted t) t)
  if isRooted t then slash :: joined
  else if joined.isEmpty then "." else joined

/-- The path of a name in a directory. -/
def child (dir name : Text) : Text := clean (dir ++ slash :: name)

end LetIf.Path
