import ExactAlgebra.Error

/-!
# Case tables

A table says what to do with an expression by the kind of its root, and may leave kinds out; asking
it about one of those is an error that names the table and the kind. Three tables are common ground
for others, among them those of the passes: the empty one, one that writes the leaves as text, and
one that keeps the leaves as they are.
-/

namespace ExactAlgebra

/-- What to do with an expression, by the kind of its root, for some of the kinds. -/
structure CaseTable (α : Type) where
  name : String
  onNum? : Option (Rat → α) := none
  onSym? : Option (Letter → α) := none
  onPow? : Option (Expr → Rat → α) := none
  onProd? : Option (List Expr → α) := none
  onSum? : Option (List Expr → α) := none

namespace CaseTable

variable {α β : Type}

/-- The entry of the table for an expression. -/
def entry? (t : CaseTable α) : Expr → Option α
  | .num q => t.onNum?.map fun f => f q
  | .sym x => t.onSym?.map fun f => f x
  | .pow b e => t.onPow?.map fun f => f b e
  | .prod fs => t.onProd?.map fun f => f fs
  | .sum ts => t.onSum?.map fun f => f ts

/-- What the table says about an expression. -/
def apply (t : CaseTable α) (e : Expr) : Except Error α :=
  match t.entry? e with
  | some a => .ok a
  | none => .error (.unhandled t.name e.kind)

/-- The table with another answer for each of its own. -/
def map (f : α → β) (t : CaseTable α) : CaseTable β where
  name := t.name
  onNum? := t.onNum?.map fun g q => f (g q)
  onSym? := t.onSym?.map fun g x => f (g x)
  onPow? := t.onPow?.map fun g b e => f (g b e)
  onProd? := t.onProd?.map fun g fs => f (g fs)
  onSum? := t.onSum?.map fun g ts => f (g ts)

/-- What comes of doing as the table says. -/
def run (t : CaseTable (Except Error α)) (e : Expr) : Except Error α := do
  (← t.apply e)

/-- The table without entries. -/
def bare : CaseTable α where
  name := "Visitor"

/-- The table that writes numbers and letters as text. -/
def texts : CaseTable String :=
  { bare with
    name := "TextVisitor"
    onNum? := some fun q => String.ofList (ratText q)
    onSym? := some fun x => String.ofList [x.char] }

/-- The table that keeps numbers and letters. -/
def leaves : CaseTable Expr :=
  { bare with
    name := "NodeVisitor"
    onNum? := some .num
    onSym? := some .sym }

end CaseTable

end ExactAlgebra
