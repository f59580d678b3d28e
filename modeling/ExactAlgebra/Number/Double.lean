import ExactAlgebra.Number.Rounding

/-!
# Floating numbers of double precision

A floating number is a binary fraction of at most 53 bits with a bounded exponent, an infinity or an
undefined value. It is not a number of the algebra, which is exact; it is kept so that a message can
say which one was given.

`ofDecimal` gives the floating number nearest to a decimal fraction. `shortest` goes back: among the
decimal fractions that are nearest to a floating number rather than to its neighbours, it gives one
with the fewest digits, and of those with as few digits the closest. Both compute in integers.
-/

namespace ExactAlgebra

/-- A floating number of double precision. -/
inductive Double where
  /-- The number `mantissa * 2 ^ exponent`, or its opposite. Zero has a sign as well. -/
  | finite (negative : Bool) (mantissa : Nat) (exponent : Int)
  | infinite (negative : Bool)
  | undefined
deriving DecidableEq

/-- The decimal fraction `digits * 10 ^ power`. -/
structure Decimal where
  digits : Nat
  power : Int
deriving DecidableEq

namespace Decimal

/-- Drops zeros at the end of the digits, of which there are at most so many. -/
def dropZeros : (places : Nat) → Decimal → Decimal
  | 0, d => d
  | places + 1, d =>
    if d.digits % 10 = 0 then dropZeros places ⟨d.digits / 10, d.power + 1⟩ else d

end Decimal

namespace Double

/-- The least exponent of a floating number. -/
def leastExponent : Int := -1074

/-- The greatest exponent of a floating number. -/
def greatestExponent : Int := 971

/-- The mantissas that have all their bits are at least this. -/
def leastFull : Nat := twoTo (significantBits - 1)

/-! ### From decimal fractions -/

/-- The binary logarithm of a positive quotient, rounded down. -/
def logTwoFloor (n d : Nat) : Int :=
  let k : Int := (n.log2 : Int) - d.log2
  if d * twoTo k.toNat ≤ n * twoTo (-k).toNat then k else k - 1

/-- The floating number nearest to a positive quotient. -/
def ofQuotient (negative : Bool) (n d : Nat) : Double :=
  let wanted := logTwoFloor n d - (significantBits - 1 : Nat)
  let e := if wanted < leastExponent then leastExponent else wanted
  let m := roundDiv (n * twoTo (-e).toNat) (d * twoTo e.toNat)
  let (m, e) := if m = twoTo significantBits then (leastFull, e + 1) else (m, e)
  if greatestExponent < e then infinite negative else finite negative m e

/-- The floating number nearest to a decimal fraction. What is `10 ^ 309` or more is infinite and
what is below `10 ^ -324` is zero, and neither is written out. -/
def ofDecimal (negative : Bool) (d : Decimal) : Double :=
  let magnitude := (Nat.toDigits 10 d.digits).length + d.power
  if d.digits = 0 ∨ magnitude < -323 then finite negative 0 leastExponent
  else if 309 < magnitude then infinite negative
  else ofQuotient negative (d.digits * tenTo d.power.toNat) (tenTo (-d.power).toNat)

/-! ### To decimal fractions -/

/-- Quarters of units of the last bit up to which a number is nearest to `mantissa * 2 ^ exponent`:
down from it and up from it. Below a power of two the neighbours are closer. -/
def reach (m : Nat) (e : Int) : Nat × Nat :=
  (if m = leastFull ∧ leastExponent < e then 1 else 2, 2)

/-- Whether a quotient lies between two others, which it may be equal to if they are `included`. -/
def isBetween (included : Bool) (low high : Nat) (n : Nat) : Bool :=
  if included then low ≤ n && n ≤ high else low < n && n < high

/-- The decimal fraction with so many digits that is nearest to the floating number, if it is not
nearer to a neighbour of that number. `leading` is the number of digits in front of the point. -/
def withDigits? (m : Nat) (e leading : Int) (count : Nat) : Option Decimal :=
  let (down, up) := reach m e
  let power := leading - count
  -- The number is `4 * m * upper / lower` in units of `10 ^ power`.
  let upper := twoTo e.toNat * tenTo (-power).toNat
  let lower := 4 * twoTo (-e).toNat * tenTo power.toNat
  let floor := 4 * m * upper / lower
  let isRead := fun n =>
    isBetween (m % 2 = 0) ((4 * m - down) * upper) ((4 * m + up) * upper) (n * lower)
  ([roundDiv (4 * m * upper) lower, floor, floor + 1].find? isRead).map fun n => ⟨n, power⟩

/-- The digits of a positive number in front of its point; fewer than none if zeros follow the
point. -/
def leadingDigits (n d : Nat) : Int :=
  let k : Int := ((Nat.toDigits 10 n).length : Int) - (Nat.toDigits 10 d).length
  if d * tenTo k.toNat ≤ n * tenTo (-k).toNat then k + 1 else k

/-- The digits that are enough for any floating number. -/
def mostDigits : Nat := 17

/-- The decimal fraction that is equal to `mantissa * 2 ^ exponent`. -/
def exactly (m : Nat) (e : Int) : Decimal :=
  if 0 ≤ e then ⟨m * twoTo e.toNat, 0⟩ else ⟨m * Nat.pow 5 (-e).toNat, e⟩

/-- The decimal fraction with the fewest digits that stands for `mantissa * 2 ^ exponent`. -/
def shortest (m : Nat) (e : Int) : Decimal :=
  if m = 0 then ⟨0, 0⟩
  else
    let leading := leadingDigits (m * twoTo e.toNat) (twoTo (-e).toNat)
    let found := (List.range mostDigits).findSome? fun k => withDigits? m e leading (k + 1)
    (found.getD (exactly m e)).dropZeros mostDigits

end Double

end ExactAlgebra
