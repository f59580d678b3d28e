import ExactAlgebra.Command.Options
import ExactAlgebra.Derivative
import ExactAlgebra.Expansion
import ExactAlgebra.Expr.Tree
import ExactAlgebra.Input.Program
import ExactAlgebra.Text.Lines

/-!
# Running a command

A command reads the lines of its input as expressions, one on a line, and prints one result for
each; or it reads all lines as one program and prints its result. The first error of the algebra
ends the run: what was printed before stays, the error is noted, and the status of the run is one.
-/

namespace ExactAlgebra

/-- What a run leaves behind. -/
structure Transcript where
  printed : List String
  notes : List Note
  failure : Option AlgebraError

namespace Transcript

/-- The exit status of a run. -/
def status (t : Transcript) : Nat :=
  if t.failure.isSome then 1 else 0

/-- Lines with a line feed behind each. -/
def unlines (ls : List String) : String :=
  String.join (ls.map (· ++ "\n"))

/-- What a run printed. -/
def stdout (t : Transcript) : String :=
  unlines t.printed

/-- The notes of a run that are important enough to be shown. -/
def stderr (t : Transcript) (least : Severity) : String :=
  unlines (Note.log least t.notes)

end Transcript

namespace Command

variable (guess : RootGuess)

/-- The tree form of an expression without the line feed at its end. -/
def treeLines (e : Expr) : String :=
  String.ofList (((e.treeText []).reverse.dropWhile (· = '\n')).reverse)

/-- What the command prints for an expression. -/
def answer (c : Command) (e : Expr) : Traced String :=
  match c with
  | parse => return e.linear
  | simplify => do return (← e.simplifyTraced guess).linear
  | expand false => return e.expand.linear
  | expand true => do return (← e.expand.simplifyTraced guess).linear
  | derive v => do
    let x ← (Variable.scalar (.text v)).toLetter
    return (← (e.derivative x).simplifyTraced guess).linear
  | tree => return treeLines e
  | program false => return e.linear
  | program true => do return (← e.simplifyTraced guess).linear

end Command

namespace Options

variable (guess : RootGuess)

/-- What is printed for a line that holds an expression. -/
def answerLine (o : Options) (line : String) : Traced String := do
  let e ← o.order.readLine guess (.text line)
  Traced.tell (.parsed e)
  o.command.answer guess e

/-- What is printed for a whole program. -/
def answerProgram (o : Options) (lines : List String) : Traced String := do
  o.command.answer guess (← Program.run guess (some (lines.map .text)))

/-- The texts and notes that the answers to some questions make one after the other, up to the first
that fails. -/
def inTurn {α : Type} (answer : α → Traced String) :
    List α → List String × List Note × Option Error
  | [] => ([], [], none)
  | a :: as =>
    match answer a with
    | ⟨notes, .ok text⟩ =>
      let (texts, more, failure) := inTurn answer as
      (text :: texts, notes ++ more, failure)
    | ⟨notes, .error e⟩ => ([], notes, some e)

/-- The texts and notes that a command makes for its input: for each line that is not blank, or for
all lines as one program. -/
def answers (o : Options) (input : String) : List String × List Note × Option Error :=
  let lines := Text.lines input
  match o.command with
  | .program _ => inTurn (o.answerProgram guess) [lines]
  | _ => inTurn (o.answerLine guess) (lines.filter fun l => !(Text.words l).isEmpty)

/-- Runs a command on its input. An error that is none of the algebra's is no answer and ends the
run without a transcript. -/
def run (o : Options) (input : String) : Except Error Transcript :=
  let (texts, notes, failure) := o.answers guess input
  let notes := .running o.command.name o.order.name :: notes
  match failure with
  | none => .ok ⟨texts, notes, none⟩
  | some (.algebra e) => .ok ⟨texts, notes ++ [.failed e], some e⟩
  | some e => .error e

end Options

end ExactAlgebra
