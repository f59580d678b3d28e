import ExactAlgebra.Number.Rounding

/-!
# A guess at a root

Before a root is looked for exactly it is guessed: the radicand and the reciprocal of the index are
each rounded to 53 significant bits, the one is raised to the other and rounded to 53 bits again,
and the result is rounded to an integer. All four roundings go to the nearest value, to the even one
of two that are equally near. A root of more than 53 bits is therefore usually not guessed right,
and a root of fewer bits nearly always is; whoever uses the guess has to check it.

The power is computed through the binary logarithm and the exponential series, in integers scaled by
`2 ^ 200`, which leaves more than a hundred bits between the error and the place that is rounded.
-/

namespace ExactAlgebra.Estimate

/-- The binary places of the scaled integers. -/
def scaleBits : Nat := 200

/-- The number one as a scaled integer. -/
def scaledOne : Nat := twoTo scaleBits

/-- The binary places to which a logarithm is computed. -/
def logBits : Nat := 160

/-- A positive integer rounded to 53 significant bits. -/
def roundNat (n : Nat) : Nat :=
  let extra := n.log2 + 1 - significantBits
  roundDiv n (twoTo extra) * twoTo extra

/-- The places of `2 ^ -places` in which the reciprocal of an index has 53 significant bits. -/
def reciprocalPlaces (r : Nat) : Nat :=
  significantBits - 1 + (if r = 1 then 0 else (r - 1).log2 + 1)

/-- The reciprocal of an index in units of `2 ^ -places`. -/
def roundedReciprocal (r : Nat) : Nat :=
  roundDiv (twoTo (reciprocalPlaces r)) r

/-- The next `count` binary places of the logarithm of `v`, a scaled number from one up to two,
behind the places `acc`: squaring doubles a logarithm, and a square of two or more gives the digit
one. -/
def logPlaces : (count v acc : Nat) → Nat
  | 0, _, acc => acc
  | count + 1, v, acc =>
    let w := v * v / scaledOne
    if 2 * scaledOne ≤ w then logPlaces count (w / 2) (2 * acc + 1)
    else logPlaces count w (2 * acc)

/-- The binary logarithm of a positive integer, with `logBits` binary places. -/
def logTwo (n : Nat) : Nat :=
  logPlaces logBits (n * scaledOne / twoTo n.log2) n.log2

/-- The first terms of the natural logarithm of two, scaled: `1 / (1 * 2) + 1 / (2 * 4) + ...`. -/
def lnTwoSum : Nat → Nat
  | 0 => 0
  | k + 1 => lnTwoSum k + scaledOne / ((k + 1) * twoTo (k + 1))

/-- The exponential series of the scaled number `t`, from the `k`-th term inwards around `h`. -/
def expSeries (t : Nat) : (k h : Nat) → Nat
  | 0, h => h
  | k + 1, h => expSeries t k (scaledOne + t * h / ((k + 1) * scaledOne))

/-- Two to the power of a fraction with `logBits` binary places, scaled. -/
def twoToFraction (f : Nat) : Nat :=
  expSeries (f * lnTwoSum scaleBits / twoTo logBits) 60 scaledOne

/-- The guess at the root of a radicand of at least one. -/
def root (radicand index : Nat) : Nat :=
  let exponent :=
    logTwo (roundNat radicand) * roundedReciprocal index / twoTo (reciprocalPlaces index)
  let whole := exponent / twoTo logBits
  let places := significantBits - 1
  let leading := roundDiv (twoToFraction (exponent % twoTo logBits)) (twoTo (scaleBits - places))
  roundDiv (leading * twoTo whole) (twoTo places)

end ExactAlgebra.Estimate
