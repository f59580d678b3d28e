import ExactAlgebra.Number.Double
import ExactAlgebra.Text.Numeral

/-!
# Decimal fractions

The texts of floating numbers. They are written with the fewest digits that stand for them and at
least one digit on either side of the point; a number of `10 ^ 16` or more, or of less than `10 ^
-4`, as a leading digit with a power of ten instead (`1.5e-07`, `1e+16`). They are read from any
text with digits, and perhaps a sign, a point and a power of ten; of two floating numbers the nearer
is meant.
-/

namespace ExactAlgebra

namespace Decimal

/-! ### Writing -/

/-- Digits with a point behind the first of them. -/
def pointed : List Char → List Char
  | d :: e :: ds => d :: '.' :: e :: ds
  | ds => ds

/-- A power of ten: its sign and at least two digits. -/
def powerOfTen (e : Int) : List Char :=
  let digits := Text.natText e.natAbs
  'e' :: (if e < 0 then '-' else '+') :: (if digits.length < 2 then ['0'] else []) ++ digits

/-- The text of a decimal fraction without zeros at its end. -/
def written (d : Decimal) : List Char :=
  let ds := Text.natText d.digits
  let point : Int := ds.length + d.power
  if point ≤ -4 ∨ 16 < point then pointed ds ++ powerOfTen (point - 1)
  else if point ≤ 0 then '0' :: '.' :: List.replicate (-point).toNat '0' ++ ds
  else if ds.length ≤ point then
    ds ++ List.replicate d.power.toNat '0' ++ ['.', '0']
  else ds.take point.toNat ++ '.' :: ds.drop point.toNat

/-! ### Reading -/

/-- A text cut behind the ASCII digits that it begins with. -/
def splitDigits (cs : List Char) : List Nat × List Char :=
  let ds := cs.takeWhile fun c => (Text.asciiDigit? c).isSome
  (ds.filterMap Text.asciiDigit?, cs.drop ds.length)

/-- The power of ten that stands at the end of a text. -/
def readPower? : List Char → Option Int
  | [] => some 0
  | e :: cs =>
    let (negative, cs) := Text.splitSign cs
    match splitDigits cs with
    | (ds, []) =>
      if (e = 'e' ∨ e = 'E') ∧ ds ≠ [] then some (Text.withSign negative (Text.ofDigits ds))
      else none
    | _ => none

/-- The digits behind a point, if there is one, and what follows them. -/
def splitFraction : List Char → List Nat × List Char
  | '.' :: cs => splitDigits cs
  | cs => ([], cs)

/-- The decimal fraction that a text without a sign stands for. -/
def read? (cs : List Char) : Option Decimal :=
  let (whole, rest) := splitDigits cs
  let (fraction, rest) := splitFraction rest
  if whole ++ fraction = [] then none
  else (readPower? rest).map fun e => ⟨Text.ofDigits (whole ++ fraction), e - fraction.length⟩

end Decimal

namespace Double

/-- The text of a floating number. -/
def written : Double → List Char
  | finite negative m e =>
    let text := if m = 0 then ['0', '.', '0'] else (shortest m e).written
    if negative then '-' :: text else text
  | infinite negative => if negative then ['-', 'i', 'n', 'f'] else ['i', 'n', 'f']
  | undefined => ['n', 'a', 'n']

/-- The floating number nearest to what a text stands for. -/
def ofString? (s : String) : Option Double :=
  let (negative, cs) := Text.splitSign s.toList
  (Decimal.read? cs).map (ofDecimal negative)

end Double

end ExactAlgebra
