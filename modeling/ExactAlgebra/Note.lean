import ExactAlgebra.Error

/-!
# Notes

What a run tells about itself beside its result: which command it is, what it read, where a pass
gathered parts anew, and the error that ended it. A note has a severity, so that a reader may leave
out the less important ones, and names the part of the program that made it.
-/

namespace ExactAlgebra

/-- How important a note is. -/
inductive Severity where
  | debug
  | info
  | warning
  | error
deriving DecidableEq

namespace Severity

/-- The severities from the least important on. -/
def all : List Severity := [debug, info, warning, error]

/-- The name of a severity. -/
def name : Severity → String
  | debug => "DEBUG"
  | info => "INFO"
  | warning => "WARNING"
  | error => "ERROR"

/-- The rank of a severity, higher for more important notes. -/
def rank : Severity → Nat
  | debug => 0
  | info => 1
  | warning => 2
  | error => 3

end Severity

/-- Something that a run tells about itself. -/
inductive Note where
  /-- A command begins, and reads expressions in this notation. -/
  | running (command notationName : String)
  /-- A line was read as this expression. -/
  | parsed (e : Expr)
  /-- An instruction of a program made its result. -/
  | declared (position : Nat) (e : Expr)
  /-- The terms of a sum are gathered once more. -/
  | regroupedTerms (terms : List Expr)
  /-- The factors of a product are gathered once more. -/
  | regroupedFactors (factors : List Expr)
  /-- An error ended the run. -/
  | failed (error : AlgebraError)

namespace Note

/-- The severity of a note. -/
def severity : Note → Severity
  | running _ _ => .info
  | failed _ => .error
  | _ => .debug

/-- The part of the program that a note comes from. -/
def source : Note → String
  | running _ _ | parsed _ | failed _ => "algebra.cli"
  | declared _ _ => "algebra.notation"
  | regroupedTerms _ | regroupedFactors _ => "algebra.simplify"

/-- Expressions in brackets, each quoted. -/
def quotedList (es : List Expr) : String :=
  "[" ++ ", ".intercalate (es.map fun e => Text.quoted e.linear) ++ "]"

/-- What a note says. -/
def message : Note → String
  | running c n => "running " ++ c ++ " with " ++ n ++ " notation"
  | parsed e => "parsed " ++ e.linear
  | declared i e => toString i ++ " = " ++ e.linear
  | regroupedTerms ts => "regrouping sum terms " ++ quotedList ts
  | regroupedFactors fs => "regrouping product factors " ++ quotedList fs
  | failed e => e.kindName ++ ": " ++ e.message

/-- A note as a line of the log. -/
def line (n : Note) : String :=
  n.severity.name ++ " " ++ n.source ++ ": " ++ n.message

/-- The lines of the notes that are at least this important. -/
def log (least : Severity) (notes : List Note) : List String :=
  (notes.filter fun n => least.rank ≤ n.severity.rank).map line

end Note

end ExactAlgebra
