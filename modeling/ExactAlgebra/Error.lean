import ExactAlgebra.Expr.Linear
import ExactAlgebra.Expr.Order

/-!
# Errors

What can go wrong, by cause, and the sentence that tells a reader about it. An `AlgebraError` is an
answer of the algebra: an argument that makes no expression, an operator that came too early, or
arithmetic that is not defined. The command line reports those. The remaining causes of an `Error`
can only come from asking a definition for what it does not provide: a case table for a kind of node
it leaves out, a root for an index that divides by zero, or a computation for more steps than it was
given.
-/

namespace ExactAlgebra

/-- Arguments that make no expression, no number or no program. -/
inductive InvalidArgument where
  | zeroDenominator
  | notIntegers (num den : Scalar)
  | notALetter (value : Scalar)
  | notAVariable (value : Scalar)
  | irrationalExponent (exponent : Expr)
  | noChildren (kind : Kind)
  | tooFewChildren (kind : Kind) (count : Nat)
  | missingExpression
  | notAnExpression (value : Scalar)
  | missingComparand
  | badMargin (value : Scalar)
  | notALine (value : Scalar)
  | unknownToken (token : String)
  | operandsLeft (count : Nat)
  | unreducedExponent (exponent : Expr)
  | tooFewOperands (count : Nat)
  | unreadablePosition (token : String)
  | noSuchPosition (position : Int)
  | missingInstructions
  | unknownInstruction (value : Scalar)
  | badDeclaration (instruction : String)
  | unknownLeaf (token : String)
  | nothingDeclared
deriving DecidableEq

/-- Arithmetic without a result. -/
inductive UndefinedArithmetic where
  | noRealRoot (index : Int) (radicand : Rat)
  | zeroToZero
  | vanishedExponent (base : Expr)
deriving DecidableEq

/-- The errors of the algebra, by kind. -/
inductive AlgebraError where
  | invalidArgument (cause : InvalidArgument)
  /-- An operator found fewer than two operands before it. -/
  | illegalState (operator : String)
  | undefinedArithmetic (cause : UndefinedArithmetic)
deriving DecidableEq

/-- Everything that can go wrong. -/
inductive Error where
  | algebra (error : AlgebraError)
  /-- A case table of this name has no entry for this kind of node. -/
  | unhandled (table : String) (kind : Kind)
  | divisionByZero
  | outOfSteps
deriving DecidableEq

namespace Scalar

/-- What a message calls the type of a scalar that is no expression, where it says so at all. -/
def typeName? : Scalar → Option String
  | floating _ => some "float"
  | text _ => some "str"
  | _ => none

end Scalar

namespace InvalidArgument

/-- The sentence for an invalid argument. -/
def message : InvalidArgument → String
  | zeroDenominator => "denominator cannot be zero"
  | notIntegers n d => "Rational(" ++ n.written ++ ", " ++ d.written ++ ") needs integers"
  | notALetter v => "symbol must be a letter between 'a' and 'z', got " ++ v.written
  | notAVariable v =>
    "variable to derive on must be a letter between 'a' and 'z', got " ++ v.written
  | irrationalExponent e => "exponent must be rational, got " ++ e.linear
  | noChildren k => k.name ++ " needs a list of children"
  | tooFewChildren k n => k.name ++ " needs at least 2 children, got " ++ toString n
  | missingExpression => "expression is missing"
  | notAnExpression v =>
    "cannot convert " ++ v.written ++ (v.typeName?.map (" : " ++ ·)).getD "" ++ " to an expression"
  | missingComparand => "cannot compare a missing expression"
  | badMargin v => "invalid tree prefix " ++ v.written
  | notALine v => "expected a line of text, got " ++ v.written
  | unknownToken t => "unrecognized token " ++ Text.quoted t
  | operandsLeft n => "expression leaves " ++ toString n ++ " operands instead of one"
  | unreducedExponent e => "exponent " ++ e.linear ++ " does not reduce to a rational number"
  | tooFewOperands n => "^ needs at least 2 operands, got " ++ toString n
  | unreadablePosition t => "invalid operand index: " ++ Text.quoted t
  | noSuchPosition i => "invalid operand index: " ++ String.ofList (Text.intText i)
  | missingInstructions => "instructions are missing"
  | unknownInstruction v => "invalid instruction: " ++ v.written
  | badDeclaration i => "declaration needs exactly one token: " ++ Text.quoted i
  | unknownLeaf t => "invalid symbol or number: " ++ Text.quoted t
  | nothingDeclared => "no expressions generated from instructions"

end InvalidArgument

namespace UndefinedArithmetic

/-- The sentence for undefined arithmetic. -/
def message : UndefinedArithmetic → String
  | noRealRoot r q =>
    "no real root of index " ++ String.ofList (Text.intText r) ++ " for " ++
      String.ofList (ratText q)
  | zeroToZero => "0^0 is indeterminate"
  | vanishedExponent b => "exponent of " ++ b.linear ++ " reduced to 0"

end UndefinedArithmetic

namespace AlgebraError

/-- The name of the kind of an error. -/
def kindName : AlgebraError → String
  | invalidArgument _ => "InvalidArgument"
  | illegalState _ => "IllegalState"
  | undefinedArithmetic _ => "UndefinedArithmetic"

/-- The sentence for an error of the algebra. -/
def message : AlgebraError → String
  | invalidArgument c => c.message
  | illegalState t => "not enough operands for " ++ Text.quoted t
  | undefinedArithmetic c => c.message

end AlgebraError

instance decidableEqExcept {ε α : Type} [DecidableEq ε] [DecidableEq α] :
    DecidableEq (Except ε α)
  | .ok a, .ok b =>
    if h : a = b then isTrue (h ▸ rfl) else isFalse fun hab => h (Except.ok.inj hab)
  | .error a, .error b =>
    if h : a = b then isTrue (h ▸ rfl) else isFalse fun hab => h (Except.error.inj hab)
  | .ok _, .error _ => isFalse nofun
  | .error _, .ok _ => isFalse nofun

namespace Error

/-- An argument is invalid. -/
def invalid (cause : InvalidArgument) : Error :=
  algebra (.invalidArgument cause)

/-- An arithmetic operation has no result. -/
def undefined (cause : UndefinedArithmetic) : Error :=
  algebra (.undefinedArithmetic cause)

/-- The sentence for an error, where it has one. -/
def message? : Error → Option String
  | algebra e => some e.message
  | unhandled table kind => some (table ++ " does not handle " ++ kind.name)
  | divisionByZero => none
  | outOfSteps => none

end Error

end ExactAlgebra
