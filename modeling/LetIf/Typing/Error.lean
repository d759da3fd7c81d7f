/-
Type errors and their reports. Each error carries the annotation of the node it is about and the
models that were found there.
-/
import LetIf.Model
import LetIf.Ident

namespace LetIf

inductive TypeError (A : Type) where
  | predicateNotBool (ann : A) (found : Model A)
  | branchesDiffer (ann : A) (yes no : Model A)
  | mismatch (expected actual : Model A)
  | unbound (ann : A) (name : Ident)
  deriving DecidableEq

namespace TypeError

variable {A B : Type}

def map (f : A → B) : TypeError A → TypeError B
  | .predicateNotBool a m => .predicateNotBool (f a) (m.map f)
  | .branchesDiffer a y n => .branchesDiffer (f a) (y.map f) (n.map f)
  | .mismatch x y => .mismatch (x.map f) (y.map f)
  | .unbound a x => .unbound (f a) x

variable [Located A]

def reportPredicate (ann : A) (found : Option (Model A)) : Report where
  notice := ⟨.predicateNotBool,
    [⟨"Problem", "predicate of if expression should be Bool"⟩] ++
    Report.locationSection (Located.location ann) ++
    [⟨"Expected", Kind.bool.name⟩, ⟨"Actual", Model.describe found⟩]⟩

def reportBranches (ann : A) (yes no : Option (Model A)) : Report where
  notice := ⟨.branchesDiffer,
    [⟨"Problem", "branches of if expression have different types"⟩] ++
    Report.locationSection (Located.location ann) ++
    [⟨"Then", Model.describe yes⟩, ⟨"Else", Model.describe no⟩]⟩

def reportMismatch (expected actual : Option (Model A)) : Report where
  notice := ⟨.typeMismatch,
    [⟨"Problem", "type mismatch"⟩, ⟨"Expected", Model.describe expected⟩,
      ⟨"Actual", Model.describe actual⟩]⟩

def reportUnbound (ann : A) (name : Text) : Report where
  notice := ⟨.unboundVariable,
    [⟨"Problem", "unbound variable \"" ++ name ++ "\""⟩] ++
    Report.locationSection (Located.location ann)⟩

def report : TypeError A → Report
  | .predicateNotBool a m => reportPredicate a (some m)
  | .branchesDiffer a y n => reportBranches a (some y) (some n)
  | .mismatch x y => reportMismatch (some x) (some y)
  | .unbound a x => reportUnbound a x.text

end TypeError

end LetIf
