import ExactAlgebra.Text.Decimal
import ExactAlgebra.Text.Quoted

/-!
# Scalars

What may be handed in where a letter, an integer or a line of text is asked for, right or wrong. A
message repeats a wrong one in its written form.
-/

namespace ExactAlgebra

/-- A value that is not an expression. -/
inductive Scalar where
  | missing
  | truth (value : Bool)
  | integer (value : Int)
  | floating (value : Double)
  | text (value : String)
deriving DecidableEq

namespace Scalar

/-- How a message shows a scalar: a text stands in quotation marks, a number does not. -/
def written : Scalar → String
  | missing => "None"
  | truth true => "True"
  | truth false => "False"
  | integer n => String.ofList (Text.intText n)
  | floating x => String.ofList x.written
  | text s => Text.quoted s

/-- The integer a scalar counts as: truth values count as one and zero. -/
def asInteger? : Scalar → Option Int
  | integer n => some n
  | truth b => some (if b then 1 else 0)
  | _ => none

/-- The text a scalar is. -/
def asText? : Scalar → Option String
  | text s => some s
  | _ => none

end Scalar

end ExactAlgebra
