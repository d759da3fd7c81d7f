/-
Lines of an input. A line ends with a line feed, and a carriage return before it is dropped. A
line that is longer than the reader's window is read in pieces.
-/
import LetIf.Text.Basic

namespace LetIf

/-- A line or a piece of one. -/
structure Line where
  text : Text
  /-- Whether the line ends here. -/
  whole : Bool
  deriving DecidableEq, Repr

namespace Line

/-- How many bytes are looked at for the end of a line. -/
def window : Nat := 4096

def feed : UInt8 := 10

def carriageReturn : UInt8 := 13

/-- The first line of an input and how many bytes it takes. A carriage return at the end of the
window is left for the next line, since a line feed may follow it. -/
def first (t : Text) : Line × Nat :=
  let seen := t.take window
  let text := seen.takeWhile (· != feed)
  if text.length < seen.length then
    (⟨Text.dropSuffix [carriageReturn] text, true⟩, text.length + 1)
  else if text.length < window then (⟨text, true⟩, text.length)
  else
    let piece := Text.dropSuffix [carriageReturn] text
    (⟨piece, false⟩, piece.length)

/-- Every line takes something of an input that is not at its end. -/
theorem first_pos {t : Text} (h : t ≠ []) : 0 < (first t).2 := by
  have ht : 0 < t.length := List.length_pos_iff.2 h
  unfold first
  dsimp only
  split
  · exact Nat.succ_pos _
  · rename_i h1
    split
    · simp only [List.length_take, window] at h1
      simp only [window]
      omega
    · rename_i h2
      refine Nat.lt_of_lt_of_le ?_ (Text.le_length_dropSuffix _ _)
      simp only [List.length_singleton, window] at h2 ⊢
      omega

/-- All lines of an input. -/
def all (t : Text) : List Line :=
  if _h : t = [] then []
  else (first t).1 :: all (t.drop (first t).2)
termination_by t.length
decreasing_by
  have := first_pos _h
  have : 0 < t.length := List.length_pos_iff.2 _h
  simp only [List.length_drop]
  omega

end Line

end LetIf
