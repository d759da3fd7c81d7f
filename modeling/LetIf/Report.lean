/-
Reports, the form in which an error is shown. A report is a heading and its sections; the reports
of the causes follow that of the error they caused.
-/
import LetIf.Text.Basic

namespace LetIf

/-- A place in a source, lines and columns counted from one, columns in bytes. -/
structure Position where
  line : Nat
  column : Nat
  deriving DecidableEq, Repr, Inhabited

def Position.text (p : Position) : Text :=
  "line " ++ Text.ofNat p.line ++ ", column " ++ Text.ofNat p.column

/-- Annotations that can say where they come from. An empty text says nothing. -/
class Located (A : Type) where
  location : A → Text

instance : Located Position := ⟨Position.text⟩

instance : Located Unit := ⟨fun _ => []⟩

/-- What went wrong, at the level a heading tells apart or a caller dispatches on. -/
inductive Report.Kind where
  | syntaxError
  | predicateNotBool
  | branchesDiffer
  | typeMismatch
  | unboundVariable
  | internalError
  | executionError
  | validationError
  | codecError
  deriving DecidableEq, Repr

def Report.Kind.title : Report.Kind → Text
  | .syntaxError => "Syntax Error"
  | .predicateNotBool | .branchesDiffer | .typeMismatch | .unboundVariable => "Type Error"
  | .internalError => "Internal Error"
  | .executionError => "Execution Error"
  | .validationError => "Validation Error"
  | .codecError => "Codec Error"

/-- A title and what stands under it. -/
structure Section where
  title : Text
  body : Text
  deriving DecidableEq, Repr

/-- A heading with its titled sections. -/
structure Notice where
  kind : Report.Kind
  sections : List Section
  deriving DecidableEq, Repr

/-- An error and its causes, the nearest cause first. -/
structure Report where
  notice : Notice
  causes : List Notice := []
  deriving DecidableEq, Repr

namespace Notice

/-- A title over a line of `mark` of the same length in bytes. -/
def underlined (mark : Char) (title : Text) : Text :=
  title ++ "\n" ++ List.replicate title.length (Text.byte mark) ++ "\n"

def text (n : Notice) : Text :=
  underlined '=' n.kind.title ++
    n.sections.flatMap fun s => underlined '-' s.title ++ s.body ++ Text.ofString "\n\n"

end Notice

namespace Report

def text (r : Report) : Text := r.notice.text ++ r.causes.flatMap Notice.text

/-- The kind of the nearest cause. -/
def causeKind? (r : Report) : Option Kind := r.causes.head?.map (·.kind)

def notices (r : Report) : List Notice := r.notice :: r.causes

/-- A report with a single section that states the problem, and its cause if there is one. -/
def ofProblem (kind : Kind) (problem : Text) (cause : Option Report) : Report where
  notice := ⟨kind, [⟨"Problem", problem⟩]⟩
  causes := (cause.map notices).getD []

/-- The section for a place, left out when there is nothing to say. -/
def locationSection (place : Text) : List Section :=
  if place.isEmpty then [] else [⟨"Location", place⟩]

def ofSyntax (problem : Text) (place : Position) : Report where
  notice := ⟨.syntaxError, ⟨"Problem", problem⟩ :: locationSection place.text⟩

/-- A report about data that a format cannot read. -/
def ofCodec (format : Text) (offset : Int) (problem : Text) (cause : Option Report) : Report where
  notice := ⟨.codecError, [⟨"Codec", format⟩, ⟨"Offset", Text.ofInt offset⟩] ++
    if problem.isEmpty then [] else [⟨"Problem", problem⟩]⟩
  causes := (cause.map notices).getD []

end Report

end LetIf
