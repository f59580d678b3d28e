import ExactAlgebra.Number.Estimate
import Mathlib.Analysis.Complex.ExponentialBounds
import Mathlib.Analysis.SpecialFunctions.Log.Deriv

/-!
# Logarithms and exponentials in scaled integers

The guess at a root is computed in integers scaled by `2 ^ 200`, and every quotient is cut off. The
binary logarithm is off by its last place at most (`logTwo_spec`), and two to the power of a
fraction by less than `2 ^ -180` (`abs_twoToFraction_sub_le`).

Each binary place of a logarithm comes from squaring, which doubles the error that is there and adds
one of `2 ^ -200`; over 160 places that comes to less than a place. The terms of the exponential
series are summed from the inside, and what is cut off of one is multiplied by less than one on the
way out.
-/

namespace ExactAlgebra

/-! ### Rounding -/

@[simp] theorem cast_twoTo (k : ℕ) : (twoTo k : ℝ) = 2 ^ k := by
  rw [twoTo]
  exact Nat.cast_pow 2 k

theorem twoTo_pos (k : ℕ) : 0 < twoTo k :=
  Nat.pow_pos two_pos

/-- Rounding to an integer changes a quotient by half a unit at most. -/
theorem abs_roundDiv_sub_le (n : ℕ) {d : ℕ} (hd : 0 < d) :
    |(roundDiv n d : ℝ) - n / d| ≤ 1 / 2 := by
  have hd' : (0 : ℝ) < d := Nat.cast_pos.mpr hd
  have hn : (n : ℝ) = d * (n / d : ℕ) + (n % d : ℕ) := by
    exact_mod_cast (Nat.div_add_mod n d).symm
  have hdiv : (n : ℝ) / d = (n / d : ℕ) + (n % d : ℕ) / d := by
    rw [hn]
    field_simp
  have hmod : ((n % d : ℕ) : ℝ) < d := Nat.cast_lt.mpr (Nat.mod_lt n hd)
  rw [hdiv, abs_le]
  unfold roundDiv
  dsimp only
  split_ifs with h
  · have hdown : 2 * ((n % d : ℕ) : ℝ) ≤ d := by
      have : 2 * (n % d) ≤ d := by omega
      exact_mod_cast this
    have : ((n % d : ℕ) : ℝ) / d ≤ 1 / 2 := by
      rw [div_le_div_iff₀ hd' two_pos]
      linarith
    have : 0 ≤ ((n % d : ℕ) : ℝ) / d := by positivity
    constructor <;> linarith
  · have hup : (d : ℝ) ≤ 2 * ((n % d : ℕ) : ℝ) := by
      have : d ≤ 2 * (n % d) := by omega
      exact_mod_cast this
    have : 1 / 2 ≤ ((n % d : ℕ) : ℝ) / d := by
      rw [div_le_div_iff₀ two_pos hd']
      linarith
    have : ((n % d : ℕ) : ℝ) / d ≤ 1 := (div_le_one hd').mpr hmod.le
    push_cast
    constructor <;> linarith

/-- A quotient that is cut off is less than one below the quotient. -/
theorem cast_div_bounds (n : ℕ) {d : ℕ} (hd : 0 < d) :
    ((n / d : ℕ) : ℝ) ≤ n / d ∧ (n : ℝ) / d < (n / d : ℕ) + 1 := by
  have hd' : (0 : ℝ) < d := Nat.cast_pos.mpr hd
  refine ⟨Nat.cast_div_le, ?_⟩
  rw [div_lt_iff₀ hd', mul_comm]
  exact_mod_cast Nat.lt_mul_div_succ n hd

namespace Estimate

open Real

/-! ### The logarithm -/

theorem cast_scaledOne : (scaledOne : ℝ) = 2 ^ 200 := by
  rw [scaledOne, cast_twoTo, scaleBits]

theorem scaledOne_pos : 0 < scaledOne :=
  twoTo_pos scaleBits

theorem cast_scaledOne_pos : (0 : ℝ) < scaledOne :=
  Nat.cast_pos.mpr scaledOne_pos

theorem log_two_lt : log 2 < 7 / 10 :=
  log_two_lt_d9.trans (by norm_num)

/-- A scaled number that is cut off is less than one unit below the number. -/
theorem scaled_div_bounds {n d : ℕ} {x : ℝ} (hd : 0 < d) (h : (n : ℝ) / d = scaledOne * x) :
    ((n / d : ℕ) : ℝ) / scaledOne ≤ x ∧ x ≤ (n / d : ℕ) / scaledOne + 1 / scaledOne := by
  obtain ⟨hlow, hhigh⟩ := cast_div_bounds n hd
  rw [h] at hlow hhigh
  rw [← add_div]
  exact ⟨(div_le_iff₀' cast_scaledOne_pos).mpr hlow, (le_div_iff₀' cast_scaledOne_pos).mpr hhigh.le⟩

/-- The logarithm of a scaled number of at least one hardly falls when the number is cut off. -/
theorem log_le_of_lt_add_one {x : ℝ} {w : ℕ} (hw : scaledOne ≤ w) (hx : 0 < x) (h : x < w + 1) :
    log x ≤ log w + 1 / scaledOne := by
  have hpos := cast_scaledOne_pos
  have hw' : (scaledOne : ℝ) ≤ w := Nat.cast_le.mpr hw
  have hwpos : (0 : ℝ) < w := hpos.trans_le hw'
  calc log x ≤ log (w * (1 + 1 / w)) := by
        refine log_le_log hx (h.le.trans_eq ?_)
        field_simp
    _ = log w + log (1 + 1 / w) := log_mul hwpos.ne' (by positivity)
    _ ≤ log w + 1 / w := by
        have := log_le_sub_one_of_pos (show (0 : ℝ) < 1 + 1 / w by positivity)
        linarith
    _ ≤ log w + 1 / scaledOne := by
        have := one_div_le_one_div_of_le hpos hw'
        linarith

/-- One more binary place: the square of the number is halved if the place is one. -/
theorem logPlaces_step {v : ℕ} (hv : scaledOne ≤ v) (hv' : v < 2 * scaledOne) :
    ∃ place v' : ℕ, scaledOne ≤ v' ∧ v' < 2 * scaledOne ∧
      (∀ count acc, logPlaces (count + 1) v acc = logPlaces count v' (2 * acc + place)) ∧
      log (v' / scaledOne) + place * log 2 ≤ 2 * log (v / scaledOne) ∧
      2 * log (v / scaledOne) ≤ log (v' / scaledOne) + place * log 2 + 1 / scaledOne := by
  have hS := scaledOne_pos
  have hpos : (0 : ℝ) < scaledOne := Nat.cast_pos.mpr hS
  have hvpos : (0 : ℝ) < v := hpos.trans_le (Nat.cast_le.mpr hv)
  -- in both cases the new number is the square in new units, cut off
  have hreal : ∀ place v' : ℕ, scaledOne ≤ v' → v' = v * v / (scaledOne * 2 ^ place) →
      log (v' / scaledOne) + place * log 2 ≤ 2 * log (v / scaledOne) ∧
      2 * log (v / scaledOne) ≤ log (v' / scaledOne) + place * log 2 + 1 / scaledOne := by
    intro place v' hle hdef
    have hv'pos : (0 : ℝ) < v' := hpos.trans_le (Nat.cast_le.mpr hle)
    obtain ⟨hlow, hhigh⟩ := cast_div_bounds (v * v) (d := scaledOne * 2 ^ place) (by positivity)
    rw [← hdef] at hlow hhigh
    have hsquare : log ((v * v : ℕ) / (scaledOne * 2 ^ place : ℕ) : ℝ) =
        2 * log (v / scaledOne) + log scaledOne - place * log 2 := by
      push_cast
      rw [log_div (by positivity) (by positivity), log_mul hvpos.ne' hvpos.ne',
        log_mul hpos.ne' (by positivity), log_pow, log_div hvpos.ne' hpos.ne']
      ring
    have hxpos : (0 : ℝ) < (v * v : ℕ) / (scaledOne * 2 ^ place : ℕ) := hv'pos.trans_le hlow
    have hbelow := log_le_log hv'pos hlow
    have habove := log_le_of_lt_add_one hle hxpos hhigh
    rw [hsquare] at hbelow habove
    rw [log_div hv'pos.ne' hpos.ne']
    constructor <;> linarith
  have hlow : scaledOne ≤ v * v / scaledOne := by
    rw [Nat.le_div_iff_mul_le hS]
    exact Nat.mul_le_mul hv hv
  have hhigh : v * v / scaledOne < 4 * scaledOne := by
    rw [Nat.div_lt_iff_lt_mul hS]
    nlinarith
  by_cases h : 2 * scaledOne ≤ v * v / scaledOne
  · refine ⟨1, v * v / scaledOne / 2, by omega, by omega, fun count acc => ?_, ?_⟩
    · rw [logPlaces]
      exact if_pos h
    · exact hreal 1 _ (by omega) (by rw [Nat.div_div_eq_div_mul, pow_one])
  · refine ⟨0, v * v / scaledOne, hlow, by omega, fun count acc => ?_, ?_⟩
    · rw [logPlaces]
      exact if_neg h
    · exact hreal 0 _ hlow (by rw [pow_zero, mul_one])

/-- The binary places that are found, and by how much the logarithm is more. -/
theorem logPlaces_spec (count : ℕ) : ∀ (acc : ℕ) {v : ℕ}, scaledOne ≤ v → v < 2 * scaledOne →
    ∃ d, logPlaces count v acc = acc * 2 ^ count + d ∧
      d * log 2 ≤ 2 ^ count * log (v / scaledOne) ∧
      2 ^ count * log (v / scaledOne) ≤ (d + 1) * log 2 + (2 ^ count - 1) / scaledOne := by
  have hpos := cast_scaledOne_pos
  induction count with
  | zero =>
    intro acc v hv hv'
    have hv : (1 : ℝ) ≤ v / scaledOne := (one_le_div hpos).mpr (Nat.cast_le.mpr hv)
    have hv' : (v : ℝ) / scaledOne ≤ 2 := (div_le_iff₀ hpos).mpr (by exact_mod_cast hv'.le)
    have hlog : log (v / scaledOne) ≤ log 2 := log_le_log (by linarith) hv'
    refine ⟨0, by simp [logPlaces], ?_, ?_⟩
    · simpa using log_nonneg hv
    · simpa using hlog
  | succ count ih =>
    intro acc v hv hv'
    obtain ⟨place, v', hlow, hhigh, hstep, hbelow, habove⟩ := logPlaces_step hv hv'
    obtain ⟨d, hd, hdbelow, hdabove⟩ := ih (2 * acc + place) hlow hhigh
    have hcount : (0 : ℝ) < 2 ^ count := by positivity
    refine ⟨place * 2 ^ count + d, by rw [hstep, hd]; ring, ?_, ?_⟩
    · have := mul_le_mul_of_nonneg_left hbelow hcount.le
      push_cast
      rw [pow_succ]
      linarith
    · have := mul_le_mul_of_nonneg_left habove hcount.le
      have herror : ((2 : ℝ) ^ count * 2 - 1) / scaledOne =
          (2 ^ count - 1) / scaledOne + 2 ^ count * (1 / scaledOne) := by
        ring
      push_cast
      rw [pow_succ, herror]
      linarith

/-- The binary logarithm is cut off behind its last place, but for a smaller error. -/
theorem logTwo_spec {n : ℕ} (hn : 0 < n) :
    logTwo n / 2 ^ 160 * log 2 ≤ log n ∧ log n ≤ logTwo n / 2 ^ 160 * log 2 + 1 / 2 ^ 160 := by
  have hpos := cast_scaledOne_pos
  have hn' : (0 : ℝ) < n := Nat.cast_pos.mpr hn
  have htwo : twoTo n.log2 = 2 ^ n.log2 := rfl
  -- the number, scaled to lie between one and two
  have hlow : scaledOne ≤ n * scaledOne / twoTo n.log2 := by
    rw [htwo, Nat.le_div_iff_mul_le (by positivity), mul_comm]
    exact Nat.mul_le_mul_right _ (Nat.log2_self_le hn.ne')
  have hhigh : n * scaledOne / twoTo n.log2 < 2 * scaledOne := by
    rw [htwo, Nat.div_lt_iff_lt_mul (by positivity)]
    have := Nat.mul_lt_mul_of_pos_right (Nat.lt_log2_self (n := n)) scaledOne_pos
    rw [pow_succ] at this
    linarith
  obtain ⟨d, hd, hbelow, habove⟩ := logPlaces_spec logBits n.log2 hlow hhigh
  have hd : logTwo n = n.log2 * 2 ^ logBits + d := hd
  obtain ⟨hcut, hcut'⟩ := cast_div_bounds (n * scaledOne) (twoTo_pos n.log2)
  have hvpos : (0 : ℝ) < (n * scaledOne / twoTo n.log2 : ℕ) := hpos.trans_le (Nat.cast_le.mpr hlow)
  have hlog : log ((n * scaledOne : ℕ) / (twoTo n.log2 : ℕ)) =
      log n + log scaledOne - n.log2 * log 2 := by
    push_cast
    rw [cast_twoTo, log_div (by positivity) (by positivity), log_mul hn'.ne' hpos.ne', log_pow]
  have hcutbelow := log_le_log hvpos hcut
  have hcutabove := log_le_of_lt_add_one hlow (hvpos.trans_le hcut) hcut'
  rw [hlog] at hcutbelow hcutabove
  rw [log_div hvpos.ne' hpos.ne', logBits] at hbelow habove
  have herror : ((2 : ℝ) ^ 160 - 1) / scaledOne + 2 ^ 160 * (1 / scaledOne) ≤ 3 / 10 := by
    rw [cast_scaledOne]
    norm_num
  have htwoLog := log_two_lt
  have hlogTwo : (logTwo n : ℝ) * log 2 = 2 ^ 160 * (n.log2 * log 2) + d * log 2 := by
    rw [hd, logBits]
    push_cast
    ring
  rw [div_mul_eq_mul_div, hlogTwo, ← add_div, div_le_iff₀ (by positivity),
    le_div_iff₀ (by positivity)]
  constructor
  · linarith
  · linarith

/-! ### The exponential -/

/-- The scaled sum of a series for the logarithm of two, of which each term is cut off. -/
theorem abs_lnTwoSum_sub_sum_le (k : ℕ) :
    |(lnTwoSum k : ℝ) / scaledOne - ∑ i ∈ Finset.range k, (1 / 2 : ℝ) ^ (i + 1) / (i + 1)| ≤
      k / scaledOne := by
  have hpos := cast_scaledOne_pos
  induction k with
  | zero => simp [lnTwoSum]
  | succ k ih =>
    have hterm : (scaledOne : ℝ) / ((k + 1) * twoTo (k + 1) : ℕ) =
        scaledOne * ((1 / 2 : ℝ) ^ (k + 1) / (k + 1)) := by
      push_cast
      rw [cast_twoTo, one_div, inv_pow]
      field_simp
    obtain ⟨hlow, hhigh⟩ :=
      scaled_div_bounds (Nat.mul_pos (Nat.succ_pos k) (twoTo_pos (k + 1))) hterm
    rw [lnTwoSum, Finset.sum_range_succ]
    rw [abs_le] at ih ⊢
    push_cast
    rw [add_div, add_div]
    constructor <;> linarith

theorem abs_lnTwoSum_sub_log_two_le :
    |(lnTwoSum scaleBits : ℝ) / scaledOne - log 2| ≤ 1 / 2 ^ 190 := by
  have hsum := abs_lnTwoSum_sub_sum_le scaleBits
  have hhalf : |(1 / 2 : ℝ)| < 1 := by norm_num [abs_of_pos]
  have hseries := abs_log_sub_add_sum_range_le hhalf scaleBits
  have hlog : log (1 - 1 / 2 : ℝ) = - log 2 := by
    rw [← log_inv]
    norm_num
  rw [hlog] at hseries
  have herror : ((scaleBits : ℕ) : ℝ) / scaledOne +
      |(1 / 2 : ℝ)| ^ (scaleBits + 1) / (1 - |1 / 2|) ≤ 1 / 2 ^ 190 := by
    rw [cast_scaledOne, scaleBits, abs_of_pos (by norm_num)]
    norm_num
  rw [abs_le] at hsum hseries ⊢
  constructor <;> linarith

theorem expSeries_zero (t h : ℕ) : expSeries t 0 h = h := rfl

theorem expSeries_succ (t k h : ℕ) :
    expSeries t (k + 1) h = expSeries t k (scaledOne + t * h / ((k + 1) * scaledOne)) := by
  delta expSeries
  rfl

/-- Summed from the inside, the terms of the exponential series are cut off one by one. -/
theorem abs_expSeries_sub_le {t : ℕ} (ht : t ≤ scaledOne) (k h : ℕ) :
    |(expSeries t k h : ℝ) / scaledOne -
        (∑ i ∈ Finset.range k, ((t : ℝ) / scaledOne) ^ i / i.factorial +
          (t / scaledOne) ^ k / k.factorial * (h / scaledOne))| ≤ k / scaledOne := by
  have hpos := cast_scaledOne_pos
  induction k generalizing h with
  | zero => simp [expSeries_zero]
  | succ k ih =>
    have hy : (t : ℝ) / scaledOne ≤ 1 := (div_le_one hpos).mpr (Nat.cast_le.mpr ht)
    generalize hdef : (t : ℝ) / scaledOne = y at hy ih ⊢
    have hy0 : 0 ≤ y := hdef ▸ by positivity
    have hquot : ((t * h : ℕ) : ℝ) / ((k + 1) * scaledOne : ℕ) =
        scaledOne * (y / (k + 1) * (h / scaledOne)) := by
      push_cast
      rw [← hdef]
      field_simp
    obtain ⟨hlow, hhigh⟩ := scaled_div_bounds (Nat.mul_pos (Nat.succ_pos k) scaledOne_pos) hquot
    rw [expSeries_succ]
    generalize t * h / ((k + 1) * scaledOne) = q at hlow hhigh ⊢
    have hterm : y ^ (k + 1) / ((k + 1).factorial : ℝ) * (h / scaledOne) =
        y ^ k / k.factorial * (y / (k + 1) * (h / scaledOne)) := by
      rw [pow_succ, Nat.factorial_succ]
      push_cast
      field_simp
    have hc0 : 0 ≤ y ^ k / k.factorial := by positivity
    have hc1 : y ^ k / k.factorial ≤ 1 := by
      refine div_le_one_of_le₀ ((pow_le_one₀ hy0 hy).trans ?_) (Nat.cast_nonneg _)
      exact_mod_cast Nat.succ_le_of_lt k.factorial_pos
    have hnext := ih (scaledOne + q)
    push_cast at hnext ⊢
    rw [add_div, div_self hpos.ne', mul_add, mul_one] at hnext
    rw [Finset.sum_range_succ, hterm, add_div]
    generalize y ^ k / (k.factorial : ℝ) = c at hc0 hc1 hnext ⊢
    -- what is cut off of the inner terms is less than one, and it is not multiplied by more
    have hcut : c * (y / (k + 1) * (h / scaledOne)) ≤ c * (q / scaledOne) + 1 / scaledOne := by
      have := mul_le_mul_of_nonneg_left hhigh hc0
      have := mul_le_of_le_one_left (one_div_pos.mpr hpos).le hc1
      linarith
    have hcut' := mul_le_mul_of_nonneg_left hlow hc0
    rw [abs_le] at hnext ⊢
    constructor <;> linarith

/-- Exponentials of numbers that are close are close, for their size. -/
theorem abs_exp_sub_exp_le {x y ε : ℝ} (h : |x - y| ≤ ε) (hε : ε ≤ 1) :
    |exp x - exp y| ≤ exp y * (2 * ε) := by
  have hone : |exp (x - y) - 1| ≤ 2 * ε :=
    (abs_exp_sub_one_le (h.trans hε)).trans (by linarith)
  have hfactor : exp x - exp y = exp y * (exp (x - y) - 1) := by
    rw [mul_sub, ← exp_add, mul_one, add_sub_cancel]
  rw [hfactor, abs_mul, abs_of_pos (exp_pos y)]
  exact mul_le_mul_of_nonneg_left hone (exp_pos y).le

/-- The scaled exponential of a number of at most one. -/
theorem abs_expSeries_sub_exp_le {t : ℕ} (ht : t ≤ scaledOne) :
    |(expSeries t 60 scaledOne : ℝ) / scaledOne - exp (t / scaledOne)| ≤ 1 / 2 ^ 190 := by
  have hpos := cast_scaledOne_pos
  have hseries := abs_expSeries_sub_le ht 60 scaledOne
  have hy : (t : ℝ) / scaledOne ≤ 1 := (div_le_one hpos).mpr (Nat.cast_le.mpr ht)
  have hy0 : 0 ≤ (t : ℝ) / scaledOne := by positivity
  generalize (t : ℝ) / scaledOne = y at hseries hy hy0 ⊢
  rw [div_self hpos.ne', mul_one, ← Finset.sum_range_succ fun i => y ^ i / (i.factorial : ℝ)]
    at hseries
  have habs : |y| ≤ 1 := by rwa [abs_of_nonneg hy0]
  have hexp := exp_bound habs (show 0 < 60 + 1 by norm_num)
  have htail : |y| ^ (60 + 1) * ((60 + 1).succ / ((60 + 1).factorial * ((60 + 1 : ℕ) : ℝ))) ≤
      1 / 2 ^ 191 := by
    refine (mul_le_of_le_one_left (by positivity) (pow_le_one₀ (abs_nonneg y) habs)).trans ?_
    norm_num [Nat.factorial]
  have hcut : ((60 : ℕ) : ℝ) / scaledOne ≤ 1 / 2 ^ 191 := by
    rw [cast_scaledOne]
    norm_num
  rw [abs_le] at hseries hexp ⊢
  constructor <;> linarith

theorem fraction_bounds {f : ℕ} (hf : f < twoTo logBits) :
    (0 : ℝ) ≤ f / 2 ^ 160 ∧ (f : ℝ) / 2 ^ 160 ≤ 1 := by
  have hf : (f : ℝ) ≤ (twoTo logBits : ℕ) := Nat.cast_le.mpr hf.le
  rw [cast_twoTo, logBits] at hf
  exact ⟨div_nonneg (Nat.cast_nonneg f) (by norm_num), (div_le_one (by norm_num)).mpr hf⟩

/-- The number that the exponential series is summed for. -/
theorem abs_fractionLog_sub_le {f : ℕ} (hf : f < twoTo logBits) :
    |((f * lnTwoSum scaleBits / twoTo logBits : ℕ) : ℝ) / scaledOne - f / 2 ^ 160 * log 2| ≤
      1 / 2 ^ 189 := by
  have hpos := cast_scaledOne_pos
  obtain ⟨hx0, hx1⟩ := fraction_bounds hf
  have hscale : ∀ a b c s : ℝ, s ≠ 0 → a * c / b = s * (a / b * (c / s)) := by
    intro a b c s hs
    field_simp
  have hquot : ((f * lnTwoSum scaleBits : ℕ) : ℝ) / (twoTo logBits : ℕ) =
      scaledOne * (f / 2 ^ 160 * (lnTwoSum scaleBits / scaledOne)) := by
    rw [Nat.cast_mul, cast_twoTo, logBits]
    exact hscale _ _ _ _ hpos.ne'
  obtain ⟨hlow, hhigh⟩ := scaled_div_bounds (twoTo_pos logBits) hquot
  have hproduct : |(f : ℝ) / 2 ^ 160 * (lnTwoSum scaleBits / scaledOne) - f / 2 ^ 160 * log 2| ≤
      1 / 2 ^ 190 := by
    rw [← mul_sub, abs_mul, abs_of_nonneg hx0]
    exact (mul_le_of_le_one_left (abs_nonneg _) hx1).trans abs_lnTwoSum_sub_log_two_le
  have hcut : 1 / (scaledOne : ℝ) ≤ 1 / 2 ^ 190 := by
    rw [cast_scaledOne]
    norm_num
  have hsum : (1 : ℝ) / 2 ^ 190 + 1 / 2 ^ 190 ≤ 1 / 2 ^ 189 := by norm_num
  rw [abs_le] at hproduct ⊢
  constructor <;> linarith

/-- Two to the power of a fraction, but for an error far behind the places that are kept. -/
theorem abs_twoToFraction_sub_le {f : ℕ} (hf : f < twoTo logBits) :
    |(twoToFraction f : ℝ) / scaledOne - exp (f / 2 ^ 160 * log 2)| ≤ 1 / 2 ^ 180 := by
  have hlog := abs_fractionLog_sub_le hf
  have hle : (f : ℝ) / 2 ^ 160 * log 2 ≤ log 2 :=
    mul_le_of_le_one_left (log_nonneg one_le_two) (fraction_bounds hf).2
  rw [twoToFraction]
  generalize f * lnTwoSum scaleBits / twoTo logBits = t at hlog ⊢
  generalize (f : ℝ) / 2 ^ 160 * log 2 = x at hlog hle ⊢
  have ht : t ≤ scaledOne := by
    have hsmall : (1 : ℝ) / 2 ^ 189 ≤ 3 / 10 := by norm_num
    have ht : (t : ℝ) / scaledOne ≤ 1 := by
      have := (abs_le.mp hlog).2
      have := log_two_lt
      linarith
    exact_mod_cast (div_le_one cast_scaledOne_pos).mp ht
  have hseries := abs_expSeries_sub_exp_le ht
  have hexp : |exp (t / scaledOne) - exp x| ≤ 2 * (2 * (1 / 2 ^ 189)) := by
    have hbound : exp x ≤ 2 := (exp_le_exp.mpr hle).trans_eq (exp_log two_pos)
    refine (abs_exp_sub_exp_le hlog (by norm_num)).trans ?_
    exact mul_le_mul_of_nonneg_right hbound (by norm_num)
  have htriangle := abs_sub_le ((expSeries t 60 scaledOne : ℝ) / scaledOne) (exp (t / scaledOne))
    (exp x)
  have htotal : (1 : ℝ) / 2 ^ 190 + 2 * (2 * (1 / 2 ^ 189)) ≤ 1 / 2 ^ 180 := by norm_num
  linarith

end Estimate

end ExactAlgebra
