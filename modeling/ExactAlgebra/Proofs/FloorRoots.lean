import ExactAlgebra.Number.Root
import Mathlib.Analysis.SpecialFunctions.Pow.NthRootLemmas
import Mathlib.Tactic.Ring

/-!
# Roots rounded down

Newton's iteration in integers starts above the root that it looks for and goes on while it falls.
No estimate that it comes to is below the root, so none is zero and no pass divides by zero; where
an estimate does not fall any more it is the root, rounded down (`newton_comesTo`).

The iteration is given a number of steps. `ComesTo` says what a run is without that number: the
passes that fall, and the estimate at which they end. From it follow the estimate at which the
iteration stands after some passes (`ComesTo.newton_add`) and its outcome for any number of steps
(`ComesTo.newton_eq`). The number that `floorRoot` gives is enough (`floorRoot_spec`), and
`floorRoot_exact` says all of this at once.
-/

namespace ExactAlgebra.Root

/-! ### Passes -/

/-- What the iteration divides by at the estimate `x`. -/
def slope (r x : ℤ) : ℤ := intPow x (r - 1).toNat

/-- The estimate after `x`. -/
def next (n r x : ℤ) : ℤ := ((r - 1) * x + n.fdiv (slope r x)).fdiv r

theorem newton_succ (n r : ℤ) (steps : ℕ) (x : ℤ) :
    newton n r (steps + 1) x =
      if slope r x = 0 then .error .divisionByZero
      else if x ≤ next n r x then .ok x
      else newton n r steps (next n r x) :=
  rfl

/-- The iteration from `x` falls for so many passes and comes to `y`, from which it does not fall any
more. No pass divides by zero. -/
structure ComesTo (n r : ℤ) (passes : ℕ) (x y : ℤ) : Prop where
  iterate_passes : (next n r)^[passes] x = y
  falls : ∀ i < passes, (next n r)^[i + 1] x < (next n r)^[i] x
  le_next : y ≤ next n r y
  slope_ne_zero : ∀ i ≤ passes, slope r ((next n r)^[i] x) ≠ 0

namespace ComesTo

variable {n r x y : ℤ} {passes : ℕ}

theorem self (hslope : slope r x ≠ 0) (h : x ≤ next n r x) : ComesTo n r 0 x x where
  iterate_passes := rfl
  falls := fun i hi => absurd hi (Nat.not_lt_zero i)
  le_next := h
  slope_ne_zero := by
    intro i hi
    obtain rfl := Nat.le_zero.mp hi
    exact hslope

/-- A pass that falls, in front of a run. -/
theorem step (hslope : slope r x ≠ 0) (h : next n r x < x)
    (hrun : ComesTo n r passes (next n r x) y) : ComesTo n r (passes + 1) x y where
  iterate_passes := hrun.iterate_passes
  falls := by
    intro i hi
    cases i with
    | zero => exact h
    | succ i => exact hrun.falls i (by omega)
  le_next := hrun.le_next
  slope_ne_zero := by
    intro i hi
    cases i with
    | zero => exact hslope
    | succ i => exact hrun.slope_ne_zero i (by omega)

theorem le_iterate (h : ComesTo n r passes x y) {i : ℕ} (hi : i ≤ passes) :
    y ≤ (next n r)^[i] x := by
  have hfalls : ∀ k, i + k ≤ passes → (next n r)^[i + k] x ≤ (next n r)^[i] x := by
    intro k
    induction k with
    | zero => exact fun _ => le_rfl
    | succ k ih => exact fun hk => (h.falls (i + k) (by omega)).le.trans (ih (by omega))
  obtain ⟨k, rfl⟩ := Nat.exists_eq_add_of_le hi
  rw [← h.iterate_passes]
  exact hfalls k le_rfl

/-- After `i` passes the iteration stands at the `i`-th estimate. -/
theorem newton_add (h : ComesTo n r passes x y) {i : ℕ} (hi : i ≤ passes) (steps : ℕ) :
    newton n r (i + steps) x = newton n r steps ((next n r)^[i] x) := by
  induction i generalizing steps with
  | zero =>
    rw [Nat.zero_add]
    rfl
  | succ i ih =>
    have hfall : ¬ (next n r)^[i] x ≤ next n r ((next n r)^[i] x) := by
      rw [← Function.iterate_succ_apply' (next n r), not_le]
      exact h.falls i hi
    rw [Nat.succ_add_eq_add_succ, ih (by omega), newton_succ, if_neg (h.slope_ne_zero i (by omega)),
      if_neg hfall, Function.iterate_succ_apply']

/-- The outcome is the same for any number of steps that is enough. It takes one pass more to see
that the iteration does not fall any more. -/
theorem newton_eq (h : ComesTo n r passes x y) (steps : ℕ) :
    newton n r steps x = if passes < steps then .ok y else .error .outOfSteps := by
  split_ifs with hsteps
  · obtain ⟨k, rfl⟩ := Nat.exists_eq_add_of_lt hsteps
    have hslope := h.slope_ne_zero passes le_rfl
    rw [h.iterate_passes] at hslope
    rw [Nat.add_assoc, h.newton_add le_rfl, h.iterate_passes, newton_succ, if_neg hslope,
      if_pos h.le_next]
  · exact h.newton_add (not_lt.mp hsteps) 0

end ComesTo

/-! ### Estimates -/

/-- The estimate after `x`, looking for the root of `n` for the index `k + 1`. -/
def nextEstimate (n k x : ℕ) : ℕ := (n / x ^ k + k * x) / (k + 1)

theorem slope_natCast (k x : ℕ) : slope ((k + 1 : ℕ) : ℤ) x = (x ^ k : ℕ) := by
  rw [slope, intPow_eq, show (((k + 1 : ℕ) : ℤ) - 1).toNat = k by omega, Nat.cast_pow]
  rfl

theorem next_natCast (n k x : ℕ) : next n ((k + 1 : ℕ) : ℤ) x = (nextEstimate n k x : ℕ) := by
  rw [next, slope_natCast, Int.fdiv_eq_ediv_of_nonneg _ (by omega),
    Int.fdiv_eq_ediv_of_nonneg _ (by omega), nextEstimate]
  push_cast
  congr 1
  ring

/-- An estimate that does not get smaller is not above the root. -/
theorem pow_le_of_le_nextEstimate {n k x : ℕ} (h : x ≤ nextEstimate n k x) : x ^ (k + 1) ≤ n := by
  rw [nextEstimate, Nat.le_div_iff_mul_le (by omega)] at h
  have hx : x ≤ n / x ^ k := by
    rw [Nat.mul_comm x, Nat.succ_mul] at h
    omega
  rw [pow_succ, Nat.mul_comm]
  exact Nat.mul_le_of_le_div _ _ _ hx

/-- From an estimate that is not below the root the iteration comes to the root, rounded down. -/
theorem newton_comesTo {n k x : ℕ} (hn : 1 ≤ n) (habove : n < (x + 1) ^ (k + 1)) :
    ∃ y passes : ℕ, ComesTo n ((k + 1 : ℕ) : ℤ) passes x y ∧ passes ≤ x ∧
      y ^ (k + 1) ≤ n ∧ n < (y + 1) ^ (k + 1) := by
  induction x using Nat.strong_induction_on with
  | _ x ih =>
    have hx : x ≠ 0 := by
      rintro rfl
      rw [Nat.zero_add, one_pow] at habove
      omega
    have hslope : slope ((k + 1 : ℕ) : ℤ) x ≠ 0 := by
      rw [slope_natCast]
      exact_mod_cast pow_ne_zero k hx
    rcases Nat.lt_or_ge (nextEstimate n k x) x with hfall | hend
    · -- the next estimate is not below the root either
      have habove' : n < (nextEstimate n k x + 1) ^ (k + 1) := Nat.nthRoot.lt_pow_go_succ_aux hx
      obtain ⟨y, passes, hrun, hpasses, hroot⟩ := ih _ hfall habove'
      rw [← next_natCast] at hrun
      refine ⟨y, passes + 1, hrun.step hslope ?_, by omega, hroot⟩
      rw [next_natCast]
      exact_mod_cast hfall
    · refine ⟨x, 0, .self hslope ?_, Nat.zero_le x, pow_le_of_le_nextEstimate hend, habove⟩
      rw [next_natCast]
      exact_mod_cast hend

/-- The iteration starts above the root. -/
theorem lt_start_pow {n r : ℕ} (hn : 1 ≤ n) (hr : 1 ≤ r) :
    ∃ x : ℕ, start n r = x ∧ n < x ^ r := by
  have hstart : start n r = (2 ^ ((n.log2 + r) / r) : ℕ) := by
    have hquot : (bitLength n + (r : ℤ) - 1).fdiv r = (((n.log2 + r) / r : ℕ) : ℤ) := by
      rw [bitLength, if_neg (by omega), Int.natAbs_natCast, Int.fdiv_eq_ediv_of_nonneg _ (by omega)]
      push_cast
      congr 1
      ring
    rw [start, hquot, Int.toNat_natCast]
    rfl
  refine ⟨_, hstart, ?_⟩
  have hbits : n.log2 + 1 ≤ (n.log2 + r) / r * r := by
    have := Nat.div_add_mod (n.log2 + r) r
    have := Nat.mod_lt (n.log2 + r) (show 0 < r by omega)
    rw [Nat.mul_comm]
    omega
  calc n < 2 ^ (n.log2 + 1) := Nat.lt_log2_self
    _ ≤ 2 ^ ((n.log2 + r) / r * r) := Nat.pow_le_pow_right (by omega) hbits
    _ = (2 ^ ((n.log2 + r) / r)) ^ r := pow_mul _ _ _

/-! ### Roots of positive integers -/

/-- The run for the root of a positive integer for a positive index. -/
theorem floorRoot_run {n r : ℕ} (hn : 1 ≤ n) (hr : 1 ≤ r) :
    ∃ x passes : ℕ, floorRoot n r = .ok (x : ℤ) ∧ ComesTo n r passes (start n r) x ∧
      x ^ r ≤ n ∧ n < (x + 1) ^ r := by
  obtain ⟨k, rfl⟩ : ∃ k, r = k + 1 := ⟨r - 1, by omega⟩
  obtain ⟨s, hs, habove⟩ := lt_start_pow hn hr
  have habove' : n < (s + 1) ^ (k + 1) :=
    habove.trans_le (Nat.pow_le_pow_left (Nat.le_succ s) _)
  obtain ⟨x, passes, hrun, hpasses, hroot⟩ := newton_comesTo hn habove'
  rw [← hs] at hrun
  refine ⟨x, passes, ?_, hrun, hroot⟩
  -- every pass that falls takes at least one away from the first estimate
  rw [floorRoot, if_pos (by omega), hrun.newton_eq, if_pos]
  rw [hs]
  omega

/-- The root of a positive integer for a positive index is found, rounded down. -/
theorem floorRoot_spec {n r : ℕ} (hn : 1 ≤ n) (hr : 1 ≤ r) :
    ∃ x : ℕ, floorRoot n r = .ok (x : ℤ) ∧ x ^ r ≤ n ∧ n < (x + 1) ^ r := by
  obtain ⟨x, -, hx, -, hroot⟩ := floorRoot_run hn hr
  exact ⟨x, hx, hroot⟩

/-- The iteration for the root of a positive integer for a positive index ends, however many steps
it is given as long as these are enough, and comes to the root rounded down. It stands at no smaller
estimate before that, so every estimate is positive and what the passes divide by is not zero. -/
theorem floorRoot_exact {n r : ℤ} (hn : 1 ≤ n) (hr : 1 ≤ r) :
    ∃ (x : ℤ) (passes : ℕ), floorRoot n r = .ok x ∧
      1 ≤ x ∧ x ^ r.toNat ≤ n ∧ n < (x + 1) ^ r.toNat ∧
      (∀ steps, newton n r steps (start n r) =
        if passes < steps then .ok x else .error .outOfSteps) ∧
      ∀ i ≤ passes,
        x ≤ (next n r)^[i] (start n r) ∧ slope r ((next n r)^[i] (start n r)) ≠ 0 ∧
          ∀ steps, newton n r (i + steps) (start n r) =
            newton n r steps ((next n r)^[i] (start n r)) := by
  lift n to ℕ using by omega
  lift r to ℕ using by omega
  obtain ⟨x, passes, hroot, hrun, hle, hlt⟩ := floorRoot_run (by omega : 1 ≤ n) (by omega : 1 ≤ r)
  have hx : x ≠ 0 := by
    rintro rfl
    rw [Nat.zero_add, one_pow] at hlt
    omega
  refine ⟨x, passes, hroot, by omega, ?_, ?_, hrun.newton_eq, fun i hi => ?_⟩
  · exact_mod_cast hle
  · exact_mod_cast hlt
  · exact ⟨hrun.le_iterate hi, hrun.slope_ne_zero i hi, hrun.newton_add hi⟩

/-- The cube root of 999: the iteration goes from 16 through 11 and 10 to 9. -/
theorem floorRoot_exact_nine :
    (1 : ℤ) ≤ 999 ∧ (1 : ℤ) ≤ 3 ∧ floorRoot 999 3 = .ok 9 ∧ (9 : ℤ) ^ 3 ≤ 999 ∧
      (999 : ℤ) < (9 + 1) ^ 3 ∧
      (∀ steps, newton 999 3 steps 16 = if 3 < steps then .ok 9 else .error .outOfSteps) ∧
      ∀ i ≤ 3, 9 ≤ (next 999 3)^[i] 16 := by
  have hroot : floorRoot 999 3 = .ok 9 := by decide +kernel
  have hstart : start 999 3 = 16 := by decide +kernel
  have hthree : newton 999 3 3 16 = .error .outOfSteps := by decide +kernel
  have hfour : newton 999 3 4 16 = .ok 9 := by decide +kernel
  obtain ⟨x, passes, hx, -, hle, hlt, hsteps, hestimate⟩ :=
    floorRoot_exact (n := 999) (r := 3) (by decide) (by decide)
  obtain rfl : x = 9 := Except.ok.inj (hx.symm.trans hroot)
  rw [hstart] at hsteps hestimate
  have hpasses : passes = 3 := by
    have hge := hsteps 3
    have hlt := hsteps 4
    rw [hthree] at hge
    rw [hfour] at hlt
    split_ifs at hge hlt
    omega
  rw [hpasses] at hsteps hestimate
  exact ⟨by decide, by decide, hroot, hle, hlt, hsteps, fun i hi => (hestimate i hi).1⟩

end ExactAlgebra.Root
