import ExactAlgebra.Error

/-!
# Tree form

The text of an expression with one node on a line. Below the sign of a composite node come its
children, each behind a mark that says whether another child follows; the lines below a child are
indented by a column that carries the line down to the next child, if there is one.

Every line but the first begins with a margin, so that a tree may be written inside another.
-/

namespace ExactAlgebra

/-- The characters of a margin: the space, and the stroke of a tree around. -/
def isMarginChar (c : Char) : Bool :=
  c = ' ' || c = '│'

/-- The margin of a tree: spaces, and vertical strokes of the trees around it. -/
structure Margin where
  chars : List Char
  isPlain : chars.all isMarginChar

namespace Margin

/-- No margin. -/
def none : Margin := ⟨[], rfl⟩

/-- The margin that a text is, if it holds nothing but spaces and vertical strokes. -/
def ofString? (s : String) : Option Margin :=
  if h : s.toList.all isMarginChar then some ⟨s.toList, h⟩ else Option.none

/-- The margin that a scalar gives. -/
def read (s : Scalar) : Except Error Margin :=
  match s.asText?.bind ofString? with
  | some m => .ok m
  | Option.none => .error (.invalid (.badMargin s))

end Margin

namespace Expr

/-- What stands in front of a child, by whether it is the last one. -/
def branchMark (last : Bool) : List Char :=
  if last then ['╰', '─', '─', ' '] else ['├', '─', '─', ' ']

/-- The column that a child adds to the margin of the lines below it. -/
def branchColumn (last : Bool) : List Char :=
  if last then [' ', ' ', ' ', ' '] else ['│', ' ', ' ', ' ']

mutual

/-- The lines of a tree, each with a line feed behind it and all but the first behind the margin. -/
def treeText (margin : List Char) : Expr → List Char
  | num q => ratText q ++ ['\n']
  | sym x => [x.char, '\n']
  | pow b e =>
    '^' :: '\n' :: margin ++ branchMark false ++ treeText (margin ++ branchColumn false) b ++
      margin ++ branchMark true ++ ratText e ++ ['\n']
  | prod fs => '*' :: '\n' :: branchesText margin fs
  | sum ts => '+' :: '\n' :: branchesText margin ts

/-- The lines of the children of a node. -/
def branchesText (margin : List Char) : List Expr → List Char
  | [] => []
  | [e] => margin ++ branchMark true ++ treeText (margin ++ branchColumn true) e
  | e :: es =>
    margin ++ branchMark false ++ treeText (margin ++ branchColumn false) e ++
      branchesText margin es

end

/-- The tree form of an expression with a margin before every line but the first. -/
def treeWithin (margin : Margin) (e : Expr) : String :=
  String.ofList (treeText margin.chars e)

/-- The tree form of an expression. -/
def tree (e : Expr) : String :=
  treeWithin .none e

end Expr

end ExactAlgebra
