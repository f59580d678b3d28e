import ExactAlgebra.Error

/-!
# Rational numbers

A number is a numerator and a denominator in lowest terms, with a positive denominator; `Rat` holds
such numbers and no others. This module holds the arithmetic on them. Making a number from two
integers divides both by their greatest common divisor, which is given the sign of the denominator.
Sums and products are made so as well, unless one of the operands is the result already.

Three operations can be refused: making a number, taking a reciprocal, and raising to the integer
part of an exponent.
-/

namespace ExactAlgebra

/-! ### Powers of integers -/

/-- An exponent up to two with the same power of minus one, zero and one. -/
def smallExponent (k : Nat) : Nat :=
  if k = 0 then 0 else 2 - k % 2

/-- A power of an integer. That of an integer up to one in magnitude is found without counting up to
the exponent, however large it is. -/
def intPow (b : Int) (k : Nat) : Int :=
  if b.natAbs ≤ 1 then b.pow (smallExponent k) else b.pow k

private theorem pow_neg_one (k : Nat) : (-1 : Int).pow k = if k % 2 = 0 then 1 else -1 := by
  induction k with
  | zero => rfl
  | succ k ih =>
    rw [show (-1 : Int).pow (k + 1) = (-1 : Int).pow k * -1 from Int.pow_succ (-1) k, ih]
    by_cases h : k % 2 = 0
    · rw [if_pos h, if_neg (by omega)]
      rfl
    · rw [if_neg h, if_pos (by omega)]
      rfl

theorem intPow_eq (b : Int) (k : Nat) : intPow b k = b.pow k := by
  unfold intPow
  split
  · rename_i hb
    rcases Nat.eq_zero_or_pos k with rfl | hk
    · rfl
    · have parity : smallExponent k % 2 = k % 2 ∧ smallExponent k ≠ 0 := by
        unfold smallExponent
        split <;> omega
      rcases (by omega : b = -1 ∨ b = 0 ∨ b = 1) with rfl | rfl | rfl
      · rw [pow_neg_one, pow_neg_one, parity.1]
      · exact (Int.zero_pow parity.2).trans (Int.zero_pow (by omega)).symm
      · exact Int.one_pow.trans Int.one_pow.symm
  · rfl

namespace Rational

/-! ### Lowest terms -/

/-- The greatest common divisor of a numerator and a denominator, with the sign of the denominator.
-/
def signedGcd (num den : Int) : Int :=
  if den < 0 then -(num.gcd den : Int) else num.gcd den

theorem signedGcd_dvd_num (n d : Int) : signedGcd n d ∣ n := by
  unfold signedGcd
  split
  · exact Int.neg_dvd.mpr (Int.gcd_dvd_left n d)
  · exact Int.gcd_dvd_left n d

theorem signedGcd_dvd_den (n d : Int) : signedGcd n d ∣ d := by
  unfold signedGcd
  split
  · exact Int.neg_dvd.mpr (Int.gcd_dvd_right n d)
  · exact Int.gcd_dvd_right n d

/-- What the denominator comes to is positive. -/
theorem fdiv_signedGcd_pos (n : Int) {d : Int} (hd : d ≠ 0) : 0 < d.fdiv (signedGcd n d) := by
  have hgcd : 0 < (n.gcd d : Int) := Int.natCast_pos.mpr (Int.gcd_pos_of_ne_zero_right n hd)
  rw [Int.fdiv_eq_ediv_of_dvd (signedGcd_dvd_den n d), signedGcd]
  split
  · rename_i hneg
    exact Int.ediv_pos_of_neg_of_neg hneg (by omega)
  · exact Int.ediv_pos_of_pos_of_dvd (by omega) (by omega) (Int.gcd_dvd_right n d)

/-- What the numerator and the denominator come to have no divisor in common. -/
theorem gcd_fdiv_signedGcd (n : Int) {d : Int} (hd : d ≠ 0) :
    (n.fdiv (signedGcd n d)).gcd (d.fdiv (signedGcd n d)) = 1 := by
  have hlowest := Int.gcd_ediv_gcd_ediv_gcd (Int.gcd_pos_of_ne_zero_right n hd)
  rw [Int.fdiv_eq_ediv_of_dvd (signedGcd_dvd_num n d),
    Int.fdiv_eq_ediv_of_dvd (signedGcd_dvd_den n d), signedGcd]
  split
  · rw [Int.ediv_neg, Int.ediv_neg, Int.neg_gcd, Int.gcd_neg, hlowest]
  · exact hlowest

/-- A numerator over a denominator, brought to lowest terms. -/
def inLowestTerms (num den : Int) (hden : den ≠ 0) : Rat where
  num := num.fdiv (signedGcd num den)
  den := (den.fdiv (signedGcd num den)).toNat
  den_nz := by
    have hpos := fdiv_signedGcd_pos num hden
    omega
  reduced := by
    have hpos := fdiv_signedGcd_pos num hden
    rw [Nat.Coprime, ← gcd_fdiv_signedGcd num hden, Int.gcd]
    congr 1
    omega

theorem den_inLowestTerms (n : Int) {d : Int} (hd : d ≠ 0) :
    ((inLowestTerms n d hd).den : Int) = d.fdiv (signedGcd n d) :=
  Int.toNat_of_nonneg (Int.le_of_lt (fdiv_signedGcd_pos n hd))

/-- Lowest terms do not change the number. -/
theorem inLowestTerms_eq (n : Int) {d : Int} (hd : d ≠ 0) :
    inLowestTerms n d hd = Rat.divInt n d := by
  rw [← Rat.num_divInt_den (inLowestTerms n d hd), den_inLowestTerms,
    Rat.divInt_eq_divInt_iff (Int.ne_of_gt (fdiv_signedGcd_pos n hd)) hd]
  have hnum : n.fdiv (signedGcd n d) * signedGcd n d = n :=
    Int.fdiv_mul_cancel (signedGcd_dvd_num n d)
  have hden : d.fdiv (signedGcd n d) * signedGcd n d = d :=
    Int.fdiv_mul_cancel (signedGcd_dvd_den n d)
  calc n.fdiv (signedGcd n d) * d
      = n.fdiv (signedGcd n d) * (signedGcd n d * d.fdiv (signedGcd n d)) := by
        rw [Int.mul_comm (signedGcd n d), hden]
    _ = n * d.fdiv (signedGcd n d) := by rw [← Int.mul_assoc, hnum]

/-! ### Numbers -/

/-- The number with this numerator and denominator. -/
def ofInts (num den : Int) : Except Error Rat :=
  if hden : den = 0 then .error (.invalid .zeroDenominator)
  else .ok (inLowestTerms num den hden)

theorem ofInts_eq_ok_iff {n d : Int} {q : Rat} :
    ofInts n d = .ok q ↔ d ≠ 0 ∧ q = Rat.divInt n d := by
  unfold ofInts
  split
  · simp_all
  · simp_all [inLowestTerms_eq, eq_comm]

/-- The number with this numerator and denominator, which have to be integers. -/
def ofScalars (num den : Scalar) : Except Error Rat :=
  match num.asInteger?, den.asInteger? with
  | some n, some d => ofInts n d
  | _, _ => .error (.invalid (.notIntegers num den))

/-! ### Sums, products and opposites -/

theorem den_ne_zero (a : Rat) : (a.den : Int) ≠ 0 :=
  Int.natCast_ne_zero.mpr a.den_nz

theorem den_mul_den_ne_zero (a b : Rat) : (a.den * b.den : Int) ≠ 0 :=
  Int.mul_ne_zero (den_ne_zero a) (den_ne_zero b)

/-- The sum of two numbers, which is one of them where the other is zero. -/
def add (a b : Rat) : Rat :=
  if a.num = 0 then b
  else if b.num = 0 then a
  else inLowestTerms (a.num * b.den + b.num * a.den) (a.den * b.den) (den_mul_den_ne_zero a b)

@[simp] theorem add_eq (a b : Rat) : add a b = a + b := by
  unfold add
  split
  · rename_i ha
    rw [Rat.num_eq_zero.mp ha, Rat.zero_add]
  · split
    · rename_i hb
      rw [Rat.num_eq_zero.mp hb, Rat.add_zero]
    · rw [inLowestTerms_eq, ← Rat.divInt_add_divInt _ _ (den_ne_zero a) (den_ne_zero b),
        Rat.num_divInt_den, Rat.num_divInt_den]

/-- The product of two numbers, which is one of them where the other is one. -/
def multiply (a b : Rat) : Rat :=
  if a.num = 0 ∨ b.num = 0 then 0
  else if a.num = 1 ∧ a.den = 1 then b
  else if b.num = 1 ∧ b.den = 1 then a
  else inLowestTerms (a.num * b.num) (a.den * b.den) (den_mul_den_ne_zero a b)

private theorem eq_one {a : Rat} (h : a.num = 1 ∧ a.den = 1) : a = 1 :=
  Rat.ext h.1 h.2

@[simp] theorem multiply_eq (a b : Rat) : multiply a b = a * b := by
  unfold multiply
  split
  · rename_i hzero
    rcases hzero with ha | hb
    · rw [Rat.num_eq_zero.mp ha, Rat.zero_mul]
    · rw [Rat.num_eq_zero.mp hb, Rat.mul_zero]
  · split
    · rename_i ha
      rw [eq_one ha, Rat.one_mul]
    · split
      · rename_i hb
        rw [eq_one hb, Rat.mul_one]
      · rw [inLowestTerms_eq, ← Rat.divInt_mul_divInt, Rat.num_divInt_den, Rat.num_divInt_den]

/-- The opposite of a number. -/
def negate (a : Rat) : Rat :=
  inLowestTerms (-a.num) a.den (den_ne_zero a)

@[simp] theorem negate_eq (a : Rat) : negate a = -a := by
  rw [negate, inLowestTerms_eq, ← Rat.neg_divInt, Rat.num_divInt_den]

/-! ### Reciprocals and powers -/

/-- The number whose product with this one is one. -/
def reciprocal (q : Rat) : Except Error Rat :=
  ofInts q.den q.num

/-- The magnitude of the integer part of an exponent, which is the exponent cut off toward zero. -/
def wholeExponent (e : Rat) : Nat :=
  e.num.natAbs / e.den

/-- The number raised to the integer part of an exponent. -/
def power (q e : Rat) : Except Error Rat :=
  let k := wholeExponent e
  if e.num < 0 then ofInts (intPow q.den k) (intPow q.num k)
  else ofInts (intPow q.num k) (intPow q.den k)

end Rational

end ExactAlgebra
