import ExactAlgebra.Text.Numeral

/-!
# Words of a command line

A word of a command line is an option if it begins with a minus sign, and a value if not; but a
negative number is a value, and so is a text with a space in it. A long option may be cut short as
long as only one begins so, and a value may be joined to it by an equals sign. Behind two minus
signs every word is a value.
-/

namespace ExactAlgebra

/-- What a word of a command line is. -/
inductive Argument where
  /-- Neither an option nor the separator. -/
  | value (text : String)
  /-- An option that there is, in full, and what is joined to it. -/
  | option (name : String) (joined : Option String)
  /-- An option that there is not. -/
  | unknown
  /-- Two minus signs alone; behind them every word is a value. -/
  | separator
deriving DecidableEq

namespace Argument

/-! ### Options -/

/-- A word cut at its first equals sign. -/
def cutAtEquals : List Char → List Char × Option (List Char)
  | [] => ([], none)
  | '=' :: cs => ([], some cs)
  | c :: cs =>
    let (name, joined) := cutAtEquals cs
    (c :: name, joined)

/-- The options among `names` that a name may mean: the one that it is, or those that it cuts short.
-/
def meant (names : List String) (name : List Char) : List String :=
  if names.contains (String.ofList name) then [String.ofList name]
  else if ['-', '-'].isPrefixOf name then names.filter fun n => name.isPrefixOf n.toList
  else []

/-- The option among `names` that a word gives, and the value behind its equals sign. -/
def option? (names : List String) (word : String) : Option (String × Option String) :=
  let (name, joined) := cutAtEquals word.toList
  match meant names name with
  | [n] => some (n, joined.map String.ofList)
  | _ => none

/-- Whether a word may mean more than one of the options. -/
def isAmbiguous (names : List String) (word : String) : Bool :=
  decide (1 < (meant names (cutAtEquals word.toList).1).length)

/-- What is joined to the short option for help. The option itself may follow it any number of
times, also behind an equals sign, and then nothing else is joined to it. -/
def joinedToHelp (rest : List Char) : Option String :=
  let behind := if rest.head? = some '=' then rest.drop 1 else rest
  if rest = [] ∨ (behind ≠ [] ∧ behind.all (· = 'h')) then none
  else some (String.ofList behind)

/-! ### Values -/

/-- Whether a text is a sequence of digits of any script, at least one. -/
def isDigits (cs : List Char) : Bool :=
  !cs.isEmpty && cs.all fun c => (Text.anyDigit? c).isSome

/-- Whether a word is a negative number, whole or with a decimal point; a line feed at its end is
passed over. -/
def isNegativeNumber (word : List Char) : Bool :=
  match if word.getLast? = some '\n' then word.dropLast else word with
  | '-' :: cs =>
    let whole := cs.takeWhile fun c => (Text.anyDigit? c).isSome
    match cs.drop whole.length with
    | [] => isDigits whole
    | '.' :: fraction => isDigits fraction
    | _ => false
  | _ => false

/-! ### Words -/

/-- What a word is where the options are `names`. A negative number is a value, and so is a text
with a space, unless it gives an option. -/
def ofWord (names : List String) (word : String) : Argument :=
  match word.toList with
  | ['-'] => value word
  | ['-', '-'] => separator
  | '-' :: 'h' :: rest => option "--help" (joinedToHelp rest)
  | '-' :: cs =>
    match option? names word with
    | some (name, joined) => option name joined
    | none => if isNegativeNumber ('-' :: cs) || cs.contains ' ' then value word else unknown
  | _ => value word

/-- What the words of a command line are. -/
def ofWords (names : List String) : List String → List Argument
  | [] => []
  | w :: ws =>
    match ofWord names w with
    | separator => separator :: ws.map value
    | a => a :: ofWords names ws

end Argument

end ExactAlgebra
