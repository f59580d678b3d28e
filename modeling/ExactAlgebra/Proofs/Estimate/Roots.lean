import ExactAlgebra.Proofs.Estimate.Series
import ExactAlgebra.Proofs.Roots

/-!
# Which roots the guess finds

The guess at a root is the root of the radicand, but for three roundings to 53 bits and one to an
integer: the exponent of two that is computed is near to that of the root (`abs_exponent_sub_le`),
and the guess is near to the power of two with that exponent (`abs_root_sub_exp_le`).

A root of up to 47 bits is less than two away from its guess, so it is found (`exactRoot_pow`). If
the index is one, nothing is lost to the roundings of the radicand and of the reciprocal, and all
integers of up to 53 bits are found to be their own roots (`isFound_one`).
-/

namespace ExactAlgebra

namespace Estimate

open Real

/-! ### The guess -/

/-- The power of two that the guess is rounded from: its exponent, with `logBits` binary places. -/
def exponent (n r : ℕ) : ℕ :=
  logTwo (roundNat n) * roundedReciprocal r / twoTo (reciprocalPlaces r)

/-- The mantissa of the guess is two to the power of the fraction, rounded to 53 bits. -/
theorem abs_mantissa_sub_le {f : ℕ} (hf : f < twoTo logBits) :
    |(roundDiv (twoToFraction f) (twoTo (scaleBits - (significantBits - 1))) : ℝ) / 2 ^ 52 -
      exp (f / 2 ^ 160 * log 2)| ≤ 1 / 2 ^ 53 + 1 / 2 ^ 180 := by
  have hround := abs_roundDiv_sub_le (twoToFraction f)
    (twoTo_pos (scaleBits - (significantBits - 1)))
  have hexp := abs_twoToFraction_sub_le hf
  rw [cast_twoTo, scaleBits, significantBits] at hround
  rw [cast_scaledOne] at hexp
  rw [scaleBits, significantBits]
  norm_num at hround hexp ⊢
  rw [abs_le] at hround hexp ⊢
  constructor <;> linarith

/-- The whole part of an exponent is a power of two, and the fraction goes into the mantissa. -/
theorem exp_exponent (E : ℕ) :
    exp (E / 2 ^ 160 * log 2) =
      2 ^ (E / twoTo logBits) * exp ((E % twoTo logBits : ℕ) / 2 ^ 160 * log 2) := by
  have hE : (E : ℝ) = 2 ^ 160 * (E / twoTo logBits : ℕ) + (E % twoTo logBits : ℕ) := by
    have h : (E : ℝ) = (twoTo logBits * (E / twoTo logBits) + E % twoTo logBits : ℕ) := by
      exact_mod_cast (Nat.div_add_mod E (twoTo logBits)).symm
    rw [h, Nat.cast_add, Nat.cast_mul, cast_twoTo, logBits]
  have hsplit : (E : ℝ) / 2 ^ 160 * log 2 =
      (E / twoTo logBits : ℕ) * log 2 + (E % twoTo logBits : ℕ) / 2 ^ 160 * log 2 := by
    rw [hE]
    ring
  rw [hsplit, exp_add, exp_nat_mul, exp_log two_pos]

/-- The guess is the power of two, with its mantissa rounded and rounded to an integer. -/
theorem abs_root_sub_exp_le (n r : ℕ) :
    |(root n r : ℝ) - exp (exponent n r / 2 ^ 160 * log 2)| ≤
      1 / 2 + exp (exponent n r / 2 ^ 160 * log 2) * (1 / 2 ^ 53 + 1 / 2 ^ 180) := by
  have hdef : root n r = roundDiv (roundDiv (twoToFraction (exponent n r % twoTo logBits))
      (twoTo (scaleBits - (significantBits - 1))) * twoTo (exponent n r / twoTo logBits))
        (twoTo (significantBits - 1)) := rfl
  rw [hdef, exp_exponent]
  generalize exponent n r = E
  have hf := Nat.mod_lt E (twoTo_pos logBits)
  have hone : 1 ≤ exp ((E % twoTo logBits : ℕ) / 2 ^ 160 * log 2) :=
    one_le_exp (mul_nonneg (fraction_bounds hf).1 (log_nonneg one_le_two))
  have hmantissa := abs_mantissa_sub_le hf
  generalize roundDiv (twoToFraction (E % twoTo logBits))
    (twoTo (scaleBits - (significantBits - 1))) = m at hmantissa ⊢
  generalize exp ((E % twoTo logBits : ℕ) / 2 ^ 160 * log 2) = x at hmantissa hone ⊢
  have hround := abs_roundDiv_sub_le (m * twoTo (E / twoTo logBits))
    (twoTo_pos (significantBits - 1))
  rw [Nat.cast_mul, cast_twoTo, cast_twoTo, significantBits] at hround
  rw [significantBits]
  have hpow : (0 : ℝ) < 2 ^ (E / twoTo logBits) := pow_pos two_pos _
  generalize (2 : ℝ) ^ (E / twoTo logBits) = w at hpow hround ⊢
  have hscaled : |(m : ℝ) * w / 2 ^ 52 - w * x| ≤ w * x * (1 / 2 ^ 53 + 1 / 2 ^ 180) := by
    have hfactor : (m : ℝ) * w / 2 ^ 52 - w * x = w * (m / 2 ^ 52 - x) := by ring
    rw [hfactor, abs_mul, abs_of_pos hpow, mul_assoc]
    refine mul_le_mul_of_nonneg_left (hmantissa.trans ?_) hpow.le
    exact le_mul_of_one_le_left (by norm_num) hone
  norm_num at hround hscaled ⊢
  rw [abs_le] at hround hscaled ⊢
  constructor <;> linarith

/-! ### The exponent -/

theorem roundDiv_one (n : ℕ) : roundDiv n 1 = n := by
  simp [roundDiv, Nat.mod_one]

/-- An integer of up to 53 bits is not rounded. -/
theorem roundNat_of_lt {n : ℕ} (h : n.log2 < significantBits) : roundNat n = n := by
  have hextra : n.log2 + 1 - significantBits = 0 := by omega
  rw [roundNat, hextra]
  show roundDiv n 1 * 1 = n
  rw [mul_one, roundDiv_one]

/-- Rounding changes an integer by its 53rd bit at most. -/
theorem abs_roundNat_sub_le {n : ℕ} (hn : 0 < n) : |(roundNat n : ℝ) - n| ≤ n / 2 ^ 53 := by
  by_cases h : n.log2 < significantBits
  · rw [roundNat_of_lt h, sub_self, abs_zero]
    positivity
  obtain ⟨e, he⟩ : ∃ e, n.log2 + 1 - significantBits = e + 1 := ⟨n.log2 - significantBits, by omega⟩
  have hround := abs_roundDiv_sub_le n (twoTo_pos (e + 1))
  have hunit : (2 : ℝ) ^ e * 2 ^ 53 ≤ n := by
    have hlog : n.log2 = e + 53 := by
      rw [significantBits] at he h
      omega
    have hle := Nat.log2_self_le hn.ne'
    rw [hlog, pow_add] at hle
    exact_mod_cast hle
  have hscaled : (roundNat n : ℝ) - n =
      (roundDiv n (twoTo (e + 1)) - n / (twoTo (e + 1) : ℕ)) * (2 ^ e * 2) := by
    have hdef : roundNat n = roundDiv n (twoTo (e + 1)) * twoTo (e + 1) := by
      rw [roundNat, he]
    rw [hdef, Nat.cast_mul, cast_twoTo, pow_succ]
    field_simp
  rw [hscaled, abs_mul, abs_of_pos (show (0 : ℝ) < 2 ^ e * 2 by positivity)]
  calc _ ≤ 1 / 2 * ((2 : ℝ) ^ e * 2) := mul_le_mul_of_nonneg_right hround (by positivity)
    _ = 2 ^ e := by ring
    _ ≤ n / 2 ^ 53 := (le_div_iff₀ (by positivity)).mpr hunit

theorem roundNat_pos {n : ℕ} (hn : 0 < n) : 0 < roundNat n := by
  have hn' : (0 : ℝ) < n := Nat.cast_pos.mpr hn
  have h := (abs_le.mp (abs_roundNat_sub_le hn)).1
  have hsmall : (n : ℝ) / 2 ^ 53 ≤ n / 2 := by
    rw [div_le_div_iff₀ (by positivity) two_pos]
    exact mul_le_mul_of_nonneg_left (by norm_num) hn'.le
  have : (0 : ℝ) < roundNat n := by linarith
  exact_mod_cast this

/-- Positive numbers that are close, for their size, have logarithms that are close. -/
theorem abs_log_sub_log_le {x y ε : ℝ} (hx : 0 < x) (hy : 0 < y) (h : |x - y| ≤ y * ε)
    (hε : ε ≤ 1 / 2) : |log x - log y| ≤ 2 * ε := by
  have hquot : |x / y - 1| ≤ ε := by
    rw [div_sub_one hy.ne', abs_div, abs_of_pos hy, div_le_iff₀' hy]
    exact h
  rw [← log_div hx.ne' hy.ne']
  have hpos : 0 < x / y := div_pos hx hy
  generalize x / y = z at hquot hpos ⊢
  obtain ⟨hlow, hhigh⟩ := abs_le.mp hquot
  have habove := log_le_sub_one_of_pos hpos
  have hbelow := one_sub_inv_le_log_of_pos hpos
  have hinv : z⁻¹ ≤ 1 + 2 * ε := by
    rw [inv_le_iff_one_le_mul₀ hpos]
    nlinarith
  rw [abs_le]
  constructor <;> linarith

/-- The reciprocal of an index is rounded to 53 bits. -/
theorem abs_roundedReciprocal_sub_le {r : ℕ} (hr : 0 < r) :
    |(roundedReciprocal r : ℝ) / 2 ^ reciprocalPlaces r - 1 / r| ≤ 1 / r / 2 ^ 53 := by
  have hr' : (0 : ℝ) < r := Nat.cast_pos.mpr hr
  have hround := abs_roundDiv_sub_le (twoTo (reciprocalPlaces r)) hr
  have hplaces : r * 2 ^ 52 ≤ 2 ^ reciprocalPlaces r := by
    rw [reciprocalPlaces, significantBits]
    split_ifs with h
    · rw [h, one_mul]
    · rw [pow_add, Nat.mul_comm]
      have hlog := Nat.lt_log2_self (n := r - 1)
      exact Nat.mul_le_mul_left _ (by omega)
  have hplaces : (r : ℝ) * 2 ^ 52 ≤ 2 ^ reciprocalPlaces r := by exact_mod_cast hplaces
  rw [cast_twoTo] at hround
  have hdef : roundedReciprocal r = roundDiv (twoTo (reciprocalPlaces r)) r := rfl
  rw [hdef]
  generalize (roundDiv (twoTo (reciprocalPlaces r)) r : ℝ) = R at hround ⊢
  generalize (2 : ℝ) ^ reciprocalPlaces r = w at hround hplaces ⊢
  have hw : 0 < w := lt_of_lt_of_le (by positivity) hplaces
  have hfactor : R / w - 1 / r = (R - w / r) / w := by field_simp
  rw [hfactor, abs_div, abs_of_pos hw, div_le_iff₀ hw]
  refine hround.trans ?_
  rw [div_div, div_mul_eq_mul_div, one_mul, le_div_iff₀ (by positivity)]
  linarith

/-- How far the exponent is from that of the root, if the radicand is rounded by so much and the
reciprocal of the index by so much. -/
theorem abs_exponent_sub_le {n r : ℕ} (hn : 0 < n) (hr : 0 < r) {δ ρ : ℝ}
    (hδ : |log (roundNat n) - log n| ≤ δ)
    (hρ : |(roundedReciprocal r : ℝ) / 2 ^ reciprocalPlaces r - 1 / r| ≤ ρ) :
    |exponent n r / 2 ^ 160 * log 2 - log n / r| ≤
      1 / 2 ^ 160 + (log n + δ) * ρ + (1 / 2 ^ 160 + δ) / r := by
  have hr' : (0 : ℝ) < r := Nat.cast_pos.mpr hr
  have hlogPos : 0 < log 2 := log_pos one_lt_two
  have htwoLog : log 2 < 1 := log_two_lt.trans (by norm_num)
  obtain ⟨hbelow, habove⟩ := logTwo_spec (roundNat_pos hn)
  obtain ⟨hlow, hhigh⟩ := cast_div_bounds (logTwo (roundNat n) * roundedReciprocal r)
    (twoTo_pos (reciprocalPlaces r))
  rw [Nat.cast_mul, cast_twoTo, mul_div_assoc] at hlow hhigh
  rw [exponent]
  generalize logTwo (roundNat n) * roundedReciprocal r / twoTo (reciprocalPlaces r) = u
    at hlow hhigh ⊢
  generalize (roundedReciprocal r : ℝ) / 2 ^ reciprocalPlaces r = q at hρ hlow hhigh
  have hb : (0 : ℝ) < 2 ^ 160 := by norm_num
  generalize (2 : ℝ) ^ 160 = b at hb hbelow habove ⊢
  have hscale : ∀ x : ℝ, x / b * log 2 = x * (log 2 / b) := fun x => by ring
  rw [hscale] at hbelow habove ⊢
  have hunit : 0 < log 2 / b := div_pos hlogPos hb
  have hunit' : log 2 / b ≤ 1 / b := div_le_div_of_nonneg_right htwoLog.le hb.le
  have hl : 0 ≤ (logTwo (roundNat n) : ℝ) * (log 2 / b) :=
    mul_nonneg (Nat.cast_nonneg _) hunit.le
  generalize log 2 / b = g at hbelow habove hunit hunit' hl ⊢
  generalize (logTwo (roundNat n) : ℝ) = l at hbelow habove hlow hhigh hl
  -- three changes one after another: cutting off, rounding the reciprocal, taking the logarithm
  have hcut : |u * g - l * g * q| ≤ 1 / b := by
    have := mul_le_mul_of_nonneg_right hlow hunit.le
    have := mul_le_mul_of_nonneg_right hhigh.le hunit.le
    rw [abs_le]
    constructor <;> linarith
  have hreciprocal : |l * g * q - l * g * (1 / r)| ≤ (log n + δ) * ρ := by
    rw [← mul_sub, abs_mul, abs_of_nonneg hl]
    have hle : l * g ≤ log n + δ := by
      have := (abs_le.mp hδ).2
      linarith
    exact mul_le_mul hle hρ (abs_nonneg _) (hl.trans hle)
  have hlog : |l * g * (1 / r) - log n / r| ≤ (1 / b + δ) / r := by
    have hfactor : l * g * (1 / r) - log n / r = (l * g - log n) / r := by ring
    rw [hfactor, abs_div, abs_of_pos hr']
    refine div_le_div_of_nonneg_right ?_ hr'.le
    rw [abs_le] at hδ ⊢
    constructor <;> linarith
  have htriangle := abs_sub_le (u * g) (l * g * q) (log n / r)
  have htriangle' := abs_sub_le (l * g * q) (l * g * (1 / r)) (log n / r)
  linarith

/-- The guess is near to a number whose logarithm is near to the exponent of the guess. -/
theorem abs_root_sub_lt {n r : ℕ} {x ε : ℝ} (hx : 0 < x)
    (h : |exponent n r / 2 ^ 160 * log 2 - log x| ≤ ε) (hε : ε ≤ 1)
    (hsize : x * (2 * ε + (1 + 2 * ε) * (1 / 2 ^ 53 + 1 / 2 ^ 180)) < 3 / 2) :
    |(root n r : ℝ) - x| < 2 := by
  have hroot := abs_root_sub_exp_le n r
  have hexp := abs_exp_sub_exp_le h hε
  rw [exp_log hx] at hexp
  generalize exp (exponent n r / 2 ^ 160 * log 2) = y at hroot hexp
  have hk : (0 : ℝ) ≤ 1 / 2 ^ 53 + 1 / 2 ^ 180 := by positivity
  generalize (1 : ℝ) / 2 ^ 53 + 1 / 2 ^ 180 = k at hroot hsize hk
  have hy : y * k ≤ (x + x * (2 * ε)) * k := by
    refine mul_le_mul_of_nonneg_right ?_ hk
    have := (abs_le.mp hexp).2
    linarith
  have htriangle := abs_sub_le (root n r : ℝ) y x
  linarith

/-- A radicand of up to 53 bits is less than two away from the guess at its first root. -/
theorem abs_root_one_sub_lt {n : ℕ} (hn : 0 < n) (h : n < 2 ^ 53) : |(root n 1 : ℝ) - n| < 2 := by
  have hround : |log (roundNat n) - log n| ≤ 0 := by
    rw [roundNat_of_lt ((Nat.log2_lt hn.ne').mpr h), sub_self, abs_zero]
  have hreciprocal :
      |(roundedReciprocal 1 : ℝ) / 2 ^ reciprocalPlaces 1 - 1 / (1 : ℕ)| ≤ 0 := by
    rw [roundedReciprocal, roundDiv_one, cast_twoTo, div_self (by positivity)]
    simp
  have hexponent := abs_exponent_sub_le hn one_pos hround hreciprocal
  rw [Nat.cast_one, div_one, div_one, mul_zero, add_zero] at hexponent
  refine abs_root_sub_lt (Nat.cast_pos.mpr hn) hexponent (by norm_num) ?_
  have hn' : (n : ℝ) ≤ 2 ^ 53 := by exact_mod_cast h.le
  refine (mul_le_mul_of_nonneg_right hn' (by positivity)).trans_lt ?_
  norm_num

/-- A root of up to 47 bits is less than two away from its guess, whatever the index is. -/
theorem abs_root_pow_sub_lt {c r : ℕ} (hc : 0 < c) (hr : 0 < r) (h : c < 2 ^ 47) :
    |(root (c ^ r) r : ℝ) - c| < 2 := by
  have hn : 0 < c ^ r := Nat.pow_pos hc
  have hc' : (1 : ℝ) ≤ c := Nat.one_le_cast.mpr hc
  have hr' : (1 : ℝ) ≤ r := Nat.one_le_cast.mpr hr
  have hr0 : (0 : ℝ) < r := zero_lt_one.trans_le hr'
  have hround : |log (roundNat (c ^ r)) - log (c ^ r : ℕ)| ≤ 2 * (1 / 2 ^ 53) := by
    refine abs_log_sub_log_le (Nat.cast_pos.mpr (roundNat_pos hn)) (Nat.cast_pos.mpr hn) ?_
      (by norm_num)
    rw [mul_one_div]
    exact abs_roundNat_sub_le hn
  have hexponent := abs_exponent_sub_le hn hr hround (abs_roundedReciprocal_sub_le hr)
  have hlog : log (c ^ r : ℕ) = r * log c := by
    rw [Nat.cast_pow, log_pow]
  have hbits : log c ≤ 33 := by
    have hle : log (c : ℝ) ≤ log (2 ^ 47) :=
      log_le_log (by linarith) (by exact_mod_cast h.le)
    have := log_two_lt
    rw [log_pow] at hle
    norm_num at hle
    linarith
  have hsmall : 0 ≤ log (c : ℝ) := log_nonneg hc'
  rw [hlog, mul_div_cancel_left₀ _ hr0.ne'] at hexponent
  -- the index only makes the errors smaller
  have hradicand : (1 / 2 ^ 160 + 2 * (1 / 2 ^ 53)) / (r : ℝ) ≤ 1 / 2 ^ 160 + 2 * (1 / 2 ^ 53) :=
    div_le_self (by norm_num) hr'
  have hindex : (r * log c + 2 * (1 / 2 ^ 53)) * (1 / r / 2 ^ 53) ≤ (33 + 1) * (1 / 2 ^ 53) := by
    have hfactor : (r * log c + 2 * (1 / 2 ^ 53)) * (1 / r / 2 ^ 53) =
        (log c + 2 * (1 / 2 ^ 53) / r) * (1 / 2 ^ 53) := by
      field_simp
    have hδ : 2 * (1 / 2 ^ 53) / (r : ℝ) ≤ 1 := (div_le_self (by norm_num) hr').trans (by norm_num)
    rw [hfactor]
    exact mul_le_mul_of_nonneg_right (by linarith) (by norm_num)
  have hε : (1 : ℝ) / 2 ^ 160 + (33 + 1) * (1 / 2 ^ 53) + (1 / 2 ^ 160 + 2 * (1 / 2 ^ 53)) ≤
      37 / 2 ^ 53 := by
    norm_num
  refine abs_root_sub_lt (zero_lt_one.trans_le hc')
    (hexponent.trans ((add_le_add (add_le_add_right hindex _) hradicand).trans hε)) (by norm_num) ?_
  have hc : (c : ℝ) ≤ 2 ^ 47 := by exact_mod_cast h.le
  refine (mul_le_mul_of_nonneg_right hc (by positivity)).trans_lt ?_
  norm_num

end Estimate

namespace Root

/-- A root that the guess is less than two away from is found. -/
theorem isFound_of_abs_sub_lt {n r c : ℕ} (h : |(Estimate.root n r : ℝ) - c| < 2) :
    IsFound Estimate.root n r c := by
  obtain ⟨hlow, hhigh⟩ := abs_lt.mp h
  have hlow : c < Estimate.root n r + 2 := by
    have : (c : ℝ) < Estimate.root n r + 2 := by linarith
    exact_mod_cast this
  have hhigh : Estimate.root n r < c + 2 := by
    have : (Estimate.root n r : ℝ) < c + 2 := by linarith
    exact_mod_cast this
  exact Or.inr (Or.inr ⟨by omega, by omega⟩)

/-- An integer of up to 53 bits is found to be its own root. -/
theorem isFound_one {n : ℕ} (h : n < 2 ^ 53) : IsFound Estimate.root n 1 n := by
  rcases Nat.eq_zero_or_pos n with rfl | hn
  · exact Or.inl two_pos
  · exact isFound_of_abs_sub_lt (Estimate.abs_root_one_sub_lt hn h)

/-- A root of up to 47 bits is found, whatever the index is. -/
theorem exactRoot_pow {c r : ℕ} (hr : 1 ≤ r) (h : c < 2 ^ 47) :
    exactRoot Estimate.root (c ^ r : ℕ) r = .ok (some (c : ℤ)) := by
  refine (exactRoot_eq_some_iff Estimate.root hr).mpr ⟨rfl, ?_⟩
  rcases Nat.eq_zero_or_pos c with rfl | hc
  · rw [zero_pow (by omega)]
    exact Or.inl two_pos
  · exact isFound_of_abs_sub_lt (Estimate.abs_root_pow_sub_lt hc hr h)

end Root

end ExactAlgebra
