import ExactAlgebra.Expr.Basic

/-!
# Linear form

The text of an expression on one line. A number is its numerator, with a slash and the denominator
where that is not one; a letter is itself; a composite is its sign and then its children in
brackets, with a comma and a space between them.
-/

namespace ExactAlgebra

/-- A rational number as text: `3`, `-1/2`. -/
def ratText (q : Rat) : List Char :=
  if q.den = 1 then Text.intText q.num else Text.intText q.num ++ '/' :: Text.natText q.den

namespace Expr

mutual

/-- The characters of the linear form. -/
def linearText : Expr → List Char
  | num q => ratText q
  | sym x => [x.char]
  | pow b e => '^' :: '(' :: (b.linearText ++ ',' :: ' ' :: ratText e) ++ [')']
  | prod fs => '*' :: '(' :: listText fs ++ [')']
  | sum ts => '+' :: '(' :: listText ts ++ [')']

/-- Linear forms with a comma and a space between them. -/
def listText : List Expr → List Char
  | [] => []
  | [e] => e.linearText
  | e :: es => e.linearText ++ ',' :: ' ' :: listText es

end

/-- The linear form of an expression: `+(3, *(2, x))`. -/
def linear (e : Expr) : String :=
  String.ofList e.linearText

instance : ToString Expr := ⟨linear⟩

end Expr

end ExactAlgebra
