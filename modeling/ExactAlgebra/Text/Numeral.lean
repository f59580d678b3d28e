/-!
# Numerals

Numbers are written with ASCII digits, a minus sign in front of a negative one (`intText`). Two
kinds of numeral are read. A number of the algebra is an optional sign and ASCII digits
(`readNumber?`). A position in a list of results is read more generously (`readPosition?`): its
digits may be of any script, and single underscores may stand between them.
-/

namespace ExactAlgebra.Text

/-! ### Writing -/

/-- A natural number in decimal digits. -/
def natText (n : Nat) : List Char :=
  Nat.toDigits 10 n

/-- An integer in decimal digits, with a minus sign where it is negative. -/
def intText (n : Int) : List Char :=
  if n < 0 then '-' :: natText n.natAbs else natText n.natAbs

/-! ### Reading -/

/-- The number that a list of digits stands for, most significant first. -/
def ofDigits (ds : List Nat) : Nat :=
  ds.foldl (fun n d => 10 * n + d) 0

/-- A sign, where there is one: whether it is a minus, and what follows. -/
def splitSign : List Char → Bool × List Char
  | '+' :: cs => (false, cs)
  | '-' :: cs => (true, cs)
  | cs => (false, cs)

/-- The integer with this sign and magnitude. -/
def withSign (negative : Bool) (n : Nat) : Int :=
  if negative then -(n : Int) else n

/-- The value of an ASCII digit. -/
def asciiDigit? (c : Char) : Option Nat :=
  if '0' ≤ c ∧ c ≤ '9' then some (c.toNat - '0'.toNat) else none

/-- The zeros of the decimal digits of all scripts in Unicode 14; in each script the nine other
digits follow the zero in order. -/
def digitZeros : List Nat :=
  [0x30, 0x660, 0x6f0, 0x7c0, 0x966, 0x9e6, 0xa66, 0xae6, 0xb66, 0xbe6, 0xc66, 0xce6, 0xd66, 0xde6,
    0xe50, 0xed0, 0xf20, 0x1040, 0x1090, 0x17e0, 0x1810, 0x1946, 0x19d0, 0x1a80, 0x1a90, 0x1b50,
    0x1bb0, 0x1c40, 0x1c50, 0xa620, 0xa8d0, 0xa900, 0xa9d0, 0xa9f0, 0xaa50, 0xabf0, 0xff10,
    0x104a0, 0x10d30, 0x11066, 0x110f0, 0x11136, 0x111d0, 0x112f0, 0x11450, 0x114d0, 0x11650,
    0x116c0, 0x11730, 0x118e0, 0x11950, 0x11c50, 0x11d50, 0x11da0, 0x16a60, 0x16ac0, 0x16b50,
    0x1d7ce, 0x1d7d8, 0x1d7e2, 0x1d7ec, 0x1d7f6, 0x1e140, 0x1e2f0, 0x1e950, 0x1fbf0]

/-- The value of a decimal digit of any script. -/
def anyDigit? (c : Char) : Option Nat :=
  (digitZeros.find? fun z => z ≤ c.toNat && c.toNat ≤ z + 9).map (c.toNat - ·)

/-- The digits of a numeral in which single underscores may stand between digits. -/
def groupedDigits? : List Char → Option (List Nat)
  | [] => none
  | [c] => (anyDigit? c).map ([·])
  | c :: '_' :: cs => do return (← anyDigit? c) :: (← groupedDigits? cs)
  | c :: cs => do return (← anyDigit? c) :: (← groupedDigits? cs)

/-- The number that an optional sign and ASCII digits stand for. -/
def readNumber? (s : String) : Option Int :=
  match splitSign s.toList with
  | (_, []) => none
  | (negative, cs) => (cs.mapM asciiDigit?).map fun ds => withSign negative (ofDigits ds)

/-- The number that an optional sign and digits of any script, perhaps grouped by single
underscores, stand for. -/
def readPosition? (s : String) : Option Int :=
  let (negative, cs) := splitSign s.toList
  (groupedDigits? cs).map fun ds => withSign negative (ofDigits ds)

end ExactAlgebra.Text
