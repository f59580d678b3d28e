import ExactAlgebra.Number.Rational
import Mathlib.Algebra.Order.Field.Rat
import Mathlib.Data.Rat.Lemmas

/-!
# Rational arithmetic is exact

Every operation on numbers gives the number that it is named for, in lowest terms with a positive
denominator. The sum, the product and the opposite are those of the rational numbers, whichever way
they are found (`Rational.add_eq`, `multiply_eq`, `negate_eq`). A power is to the exponent without
its fraction, `e.num.tdiv e.den` (`power_eq`). What is refused is a denominator zero, and so the
reciprocal of zero and its negative powers. `arithmetic_exact` says all of this at once.
-/

namespace ExactAlgebra.Rational

/-! ### Numerators and denominators -/

/-- Numbers are equal if and only if their numerators and denominators are. -/
theorem num_den_eq_iff {a b : Rat} :
    a.num = b.num ∧ a.den = b.den ↔ (a.num : ℚ) / a.den = b.num / b.den := by
  rw [Rat.num_div_den, Rat.num_div_den]
  constructor
  · rintro ⟨hnum, hden⟩
    exact Rat.ext hnum hden
  · rintro rfl
    exact ⟨rfl, rfl⟩

theorem ofInts_eq (n d : ℤ) :
    ofInts n d = if d = 0 then .error (.invalid .zeroDenominator) else .ok ((n : ℚ) / d) := by
  unfold ofInts
  split_ifs with hd
  · rfl
  · rw [inLowestTerms_eq, Rat.divInt_eq_div]

/-- The lowest terms of a quotient are found by its greatest common divisor, with the sign of the
denominator. -/
theorem num_den_div (n : ℤ) {d : ℤ} (hd : d ≠ 0) :
    ((n : ℚ) / d).num = n.fdiv (signedGcd n d) ∧
      (((n : ℚ) / d).den : ℤ) = d.fdiv (signedGcd n d) := by
  rw [← Rat.divInt_eq_div, ← inLowestTerms_eq n hd]
  exact ⟨rfl, den_inLowestTerms n hd⟩

theorem ofScalars_eq_ok_iff {v w : Scalar} {q : Rat} :
    ofScalars v w = .ok q ↔
      ∃ n d : ℤ, v.asInteger? = some n ∧ w.asInteger? = some d ∧ d ≠ 0 ∧ q = (n : ℚ) / d := by
  unfold ofScalars
  cases v.asInteger? with
  | none => simp
  | some n =>
    cases w.asInteger? with
    | none => simp
    | some d => simp [ofInts_eq_ok_iff, Rat.divInt_eq_div]

/-! ### Reciprocals and powers -/

theorem reciprocal_eq (a : Rat) :
    reciprocal a = if a = 0 then .error (.invalid .zeroDenominator) else .ok a⁻¹ := by
  rw [reciprocal, ofInts_eq]
  simp only [Rat.num_eq_zero, Int.cast_natCast]
  rw [← inv_div, Rat.num_div_den]

/-- The exponent without its fraction is the quotient of its magnitude, with its sign. -/
theorem tdiv_eq_wholeExponent (e : Rat) :
    e.num.tdiv e.den = if e.num < 0 then -(wholeExponent e : ℤ) else wholeExponent e := by
  have hwhole : (wholeExponent e : ℤ) = (e.num.natAbs : ℤ).tdiv e.den := Int.ofNat_tdiv _ _
  split_ifs with h
  · rw [hwhole, ← Int.neg_tdiv, Int.ofNat_natAbs_of_nonpos h.le, neg_neg]
  · rw [hwhole, Int.natAbs_of_nonneg (not_lt.mp h)]

/-- Powers of a numerator and a denominator are those of the quotient. -/
theorem ofInts_intPow (n d : ℤ) (k : ℕ) :
    ofInts (intPow n k) (intPow d k) =
      if d = 0 ∧ k ≠ 0 then .error (.invalid .zeroDenominator) else .ok (((n : ℚ) / d) ^ k) := by
  have hzero : intPow d k = 0 ↔ d = 0 ∧ k ≠ 0 := by
    rw [intPow_eq]
    exact pow_eq_zero_iff'
  have hpow : ∀ b : ℤ, ((intPow b k : ℤ) : ℚ) = (b : ℚ) ^ k := by
    intro b
    rw [intPow_eq]
    exact Int.cast_pow b k
  rw [ofInts_eq, hpow, hpow, div_pow]
  simp only [hzero]

/-- A number is raised to the exponent without its fraction, unless it is zero and that is negative.
-/
theorem power_eq (a e : Rat) :
    power a e =
      if a = 0 ∧ e.num.tdiv e.den < 0 then .error (.invalid .zeroDenominator)
      else .ok (a ^ e.num.tdiv e.den) := by
  rw [power, tdiv_eq_wholeExponent]
  generalize wholeExponent e = k
  by_cases h : e.num < 0
  · have hneg : -(k : ℤ) < 0 ↔ k ≠ 0 := by omega
    have hinv : ((a.den : ℤ) : ℚ) / a.num = a⁻¹ := by
      rw [Int.cast_natCast, ← inv_div, Rat.num_div_den]
    simp only [if_pos h, ofInts_intPow, hinv, hneg, Rat.num_eq_zero]
    rw [zpow_neg, zpow_natCast, inv_pow]
  · have hquot : (a.num : ℚ) / ((a.den : ℤ) : ℚ) = a := by
      rw [Int.cast_natCast, Rat.num_div_den]
    have hden : ¬ ((a.den : ℤ) = 0 ∧ k ≠ 0) := fun hk => den_ne_zero a hk.1
    have hk : ¬ (a = 0 ∧ (k : ℤ) < 0) := fun hk => by omega
    rw [if_neg h, if_neg h, ofInts_intPow, if_neg hden, if_neg hk, hquot, zpow_natCast]

/-- A number raised to an integer that is not negative. -/
theorem power_intCast (a : Rat) {m : ℤ} (hm : 0 ≤ m) :
    power a (m : Rat) = .ok (a ^ m.toNat) := by
  lift m to ℕ using hm
  have hpositive : ¬ (a = 0 ∧ (m : ℤ) < 0) := fun h => by omega
  rw [power_eq, Rat.num_intCast, Rat.den_intCast, Nat.cast_one, Int.tdiv_one, if_neg hpositive,
    zpow_natCast, Int.toNat_natCast]

/-! ### All operations -/

/-- Numbers are kept in lowest terms with a positive denominator, so they are equal exactly if their
numerators and denominators are. One is made from two integers by dividing both by their greatest
common divisor, with the sign of the denominator, and it is their quotient. Sum, product, opposite
and reciprocal are those of the rational numbers; zero alone has no reciprocal. A power is to the
exponent cut off toward zero, and zero alone has none where that is negative. -/
theorem arithmetic_exact :
    (∀ a : Rat, 0 < a.den ∧ a.num.natAbs.gcd a.den = 1) ∧
      (∀ a b : Rat, a.num = b.num ∧ a.den = b.den ↔ (a.num : ℚ) / a.den = b.num / b.den) ∧
      (∀ (v w : Scalar) (q : Rat), ofScalars v w = .ok q ↔
        ∃ n d : ℤ, v.asInteger? = some n ∧ w.asInteger? = some d ∧ d ≠ 0 ∧
          q.num = n.fdiv (signedGcd n d) ∧ q.den = d.fdiv (signedGcd n d) ∧ q = (n : ℚ) / d) ∧
      ∀ a b : Rat,
        add a b = a + b ∧ multiply a b = a * b ∧ negate a = -a ∧
          (reciprocal a =
            if a = 0 then .error (.invalid .zeroDenominator) else .ok a⁻¹) ∧
          power a b =
            if a = 0 ∧ b.num.tdiv b.den < 0 then .error (.invalid .zeroDenominator)
            else .ok (a ^ b.num.tdiv b.den) := by
  refine ⟨fun a => ⟨a.den_pos, a.reduced⟩, fun a b => num_den_eq_iff, ?_, ?_⟩
  · intro v w q
    rw [ofScalars_eq_ok_iff]
    constructor
    · rintro ⟨n, d, hv, hw, hd, rfl⟩
      obtain ⟨hnum, hden⟩ := num_den_div n hd
      exact ⟨n, d, hv, hw, hd, hnum, hden, rfl⟩
    · rintro ⟨n, d, hv, hw, hd, -, -, rfl⟩
      exact ⟨n, d, hv, hw, hd, rfl⟩
  · intro a b
    exact ⟨add_eq a b, multiply_eq a b, negate_eq a, reciprocal_eq a, power_eq a b⟩

-- The exponent is cut off before zero is looked for.
example : power 0 (-1 / 2) = .ok 1 := by decide +kernel

end ExactAlgebra.Rational
