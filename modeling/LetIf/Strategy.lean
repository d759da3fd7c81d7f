/-
Strategies for conditionals: `select` computes both arms and picks one, `branch` runs only the arm
that is taken. Numbers beyond the two name no strategy.
-/
import LetIf.Text.Utf8
import LetIf.Text.Quoted

namespace LetIf

inductive Strategy where
  | select
  | branch
  | unnamed (code : UInt8)
  deriving DecidableEq, Repr

namespace Strategy

def ofCode : UInt8 → Strategy
  | 0 => .select
  | 1 => .branch
  | n => .unnamed n

def code : Strategy → UInt8
  | .select => 0
  | .branch => 1
  | .unnamed n => n

def name : Strategy → Text
  | .select => "select"
  | .branch => "branch"
  | .unnamed n => "Strategy(" ++ Text.ofNat n.toNat ++ ")"

/-- The strategy called `t`, in any case. -/
def ofName? (t : Text) : Option Strategy :=
  if Text.sameName "select" t then some .select
  else if Text.sameName "branch" t then some .branch
  else none

/-- What is said of a name that `ofName?` does not know. -/
def unknownName (t : Text) : Text :=
  "unknown strategy " ++ Text.quoted t ++ " (want select or branch)"

end Strategy

end LetIf
