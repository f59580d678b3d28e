import ExactAlgebra.Input.Token

/-!
# Linear programs

A program is a list of instructions, one on a line, each of which makes one expression. `. x`
declares a number or letter; `+ 0 2` joins earlier results, named by their positions from zero on.
Blank lines make nothing and are not counted. The last result is the result of the program.
-/

namespace ExactAlgebra.Program

variable (guess : RootGuess)

/-- The earlier result at the position that a token names. -/
def resultAt (results : List Expr) (token : String) : Except Error Expr :=
  match Text.readPosition? token with
  | none => .error (.invalid (.unreadablePosition token))
  | some i =>
    match (if 0 ≤ i then results[i.toNat]? else none) with
    | some e => .ok e
    | none => .error (.invalid (.noSuchPosition i))

/-- The leaf that the arguments of a declaration are. -/
def declaredLeaf (instruction : String) : List String → Except Error Expr
  | [token] =>
    match Expr.ofToken? token with
    | some e => .ok e
    | none => .error (.invalid (.unknownLeaf token))
  | _ => .error (.invalid (.badDeclaration instruction))

/-- The expression that an instruction makes of its first word and its arguments. -/
def made (results : List Expr) (instruction head : String) (args : List String) : Traced Expr :=
  if head = "." then declaredLeaf instruction args
  else
    match Operation.ofString? head with
    | some o => do o.combineAll guess (← Traced.lift (args.mapM (resultAt results)))
    | none => .fail (.invalid (.unknownInstruction (.text instruction)))

/-- The results after an instruction. -/
def step (results : List Expr) (instruction : Scalar) : Traced (List Expr) := do
  match instruction.asText? with
  | none => .fail (.invalid (.unknownInstruction instruction))
  | some s =>
    match Text.words s with
    | [] => return results
    | head :: args =>
      let e ← made guess results s head args
      Traced.tell (.declared results.length e)
      return results ++ [e]

/-- The results after some instructions, from the first on. -/
def steps : List Expr → List Scalar → Traced (List Expr)
  | results, [] => pure results
  | results, i :: is => do steps (← step guess results i) is

/-- The result of a program, if there is one. -/
def run (instructions : Option (List Scalar)) : Traced Expr := do
  match instructions with
  | none => .fail (.invalid .missingInstructions)
  | some is =>
    match (← steps guess [] is).getLast? with
    | some e => return e
    | none => .fail (.invalid .nothingDeclared)

end ExactAlgebra.Program
