import ExactAlgebra.Command.Argument
import ExactAlgebra.Input.Line

/-!
# Options of the command line

A command line is some general options, the name of a command, and the command's own arguments. A
general option has a value, as the next word or behind an equals sign, and of one that is given
twice the last value counts. A long option may be cut short as long as only one begins so. What is
left over or has no place is rejected, at the end of the command line; whoever asks for help before
that gets it.
-/

namespace ExactAlgebra

/-- What to do with the expressions that are read. -/
inductive Command where
  | parse
  | simplify
  | expand (simplified : Bool)
  | derive (variableName : String)
  | tree
  | program (simplified : Bool)
deriving DecidableEq

namespace Command

/-- The name of a command. -/
def name : Command → String
  | parse => "parse"
  | simplify => "simplify"
  | expand _ => "expand"
  | derive _ => "derive"
  | tree => "tree"
  | program _ => "program"

/-- The name of the letter to derive on, for a command that has one. -/
def variableName? : Command → Option String
  | derive v => some v
  | _ => none

/-- Whether the command simplifies what it made. -/
def isSimplified : Command → Bool
  | expand s => s
  | program s => s
  | _ => false

end Command

/-- What a command line asks for. -/
structure Options where
  command : Command
  order : TokenOrder
  least : Severity
deriving DecidableEq

/-- A command line that asks for nothing to be run. -/
inductive Usage where
  /-- It asks how commands are written. -/
  | help
  /-- It is not a command. -/
  | rejected
deriving DecidableEq

namespace Options

/-! ### Commands -/

/-- What becomes of arguments that make no command: help where it is asked for, unless an option has
a value joined to it before that. -/
def refusal : List Argument → Usage
  | [] => .rejected
  | .option name none :: as => if name = "--help" then .help else refusal as
  | .option _ (some _) :: _ => .rejected
  | _ :: as => refusal as

/-- Reads the arguments of a command that has none. -/
def readNothing (words : List String) : Except Usage Unit :=
  match Argument.ofWords ["--help"] words with
  | [] => .ok ()
  | as => .error (refusal as)

/-- Reads the arguments of a command whose result may be simplified. -/
def readSimplified (words : List String) : Except Usage Bool :=
  let as := Argument.ofWords ["--help", "--simplify"] words
  if as.all (· = .option "--simplify" none) then .ok !as.isEmpty else .error (refusal as)

/-- Reads the arguments of a command that has one value, on either side of which the separator may
stand. -/
def readValue (words : List String) : Except Usage String :=
  match Argument.ofWords ["--help"] words with
  | [.value v] | [.value v, .separator] | [.separator, .value v] => .ok v
  | as => .error (refusal as)

/-- Reads a command from its name and its arguments. -/
def readCommand (name : String) (words : List String) : Except Usage Command :=
  match name with
  | "parse" => do readNothing words; return .parse
  | "simplify" => do readNothing words; return .simplify
  | "expand" => .expand <$> readSimplified words
  | "derive" => .derive <$> readValue words
  | "tree" => do readNothing words; return .tree
  | "program" => .program <$> readSimplified words
  | _ => .error .rejected

/-! ### General options -/

/-- The names of the general options. -/
def generalNames : List String := ["--help", "--notation", "--log-level"]

/-- What the general options say. -/
structure General where
  order : TokenOrder
  least : Severity

/-- What the general options say once one of them is given a value. -/
def General.set? (g : General) (name value : String) : Option General :=
  match name with
  | "--notation" =>
    (TokenOrder.all.find? fun o => o.name = value).map fun o => { g with order := o }
  | "--log-level" =>
    (Severity.all.find? fun s => s.name = value).map fun s => { g with least := s }
  | _ => none

/-- Reads general options up to the name of a command, and then the command. A command line with a
`stray` option in it is rejected, but not before its end: help may still be asked for. -/
def readFrom (g : General) (stray : Bool) : List String → Except Usage Options
  | [] => .error .rejected
  | w :: ws =>
    match Argument.ofWord generalNames w, ws with
    | .value name, ws => do
      let c ← readCommand name ws
      if stray then .error .rejected else return ⟨c, g.order, g.least⟩
    | .separator, _ => .error .rejected
    | .unknown, ws => readFrom g true ws
    | .option name (some v), ws =>
      match g.set? name v with
      | some g => readFrom g stray ws
      | none => .error .rejected
    | .option name none, ws =>
      if name = "--help" then .error .help
      else
        match ws with
        | [] => .error .rejected
        | v :: ws =>
          match g.set? name v with
          | some g => readFrom g stray ws
          | none => .error .rejected

/-- The options that a command line gives; expressions are read in polish notation and notes from
warnings on are shown where it does not say otherwise. No word in front of the separator may be
ambiguous among the general options. -/
def read (words : List String) : Except Usage Options :=
  if (words.takeWhile (· ≠ "--")).any (Argument.isAmbiguous generalNames) then .error .rejected
  else readFrom ⟨.polish, .warning⟩ false words

end Options

end ExactAlgebra
