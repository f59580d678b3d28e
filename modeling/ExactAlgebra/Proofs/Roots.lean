import ExactAlgebra.Number.Estimate
import ExactAlgebra.Proofs.FloorRoots
import Mathlib.Algebra.Order.Field.Rat

/-!
# Roots that are found are right

No search for an integer root of a positive index fails: it ends, with a root or without one, and a
root that it finds is one, whatever the guess is (`exactRoot_spec`). For wide radicands that rests on
`floorRoot_spec`. Which roots are found depends on the guess, for radicands that are neither small
nor wide (`exactRoot_eq_some_iff`).

A rational root is looked for in the numerator and in the denominator. That fails for the even roots
of negative numbers alone (`rationalRoot_eq_error_iff`); `exactRoot_exact` says all of this at once.
-/

namespace ExactAlgebra

namespace Root

/-! ### Exact roots -/

variable (guess : RootGuess)

/-- A search for an integer root of a positive index ends, and a root that it finds is one. -/
theorem exactRoot_spec {n r : ℕ} (hr : 1 ≤ r) :
    ∃ o : Option ℤ, exactRoot guess n r = .ok o ∧ ∀ c, o = some c → 0 ≤ c ∧ c ^ r = n := by
  unfold exactRoot
  split_ifs with hsmall hbits hr' hwide
  · -- zero and one are their own roots
    refine ⟨_, rfl, ?_⟩
    rintro c ⟨⟩
    have hn : n = 0 ∨ n = 1 := by omega
    rcases hn with rfl | rfl
    · exact ⟨le_rfl, zero_pow (by omega)⟩
    · exact ⟨by omega, one_pow r⟩
  · exact ⟨_, rfl, nofun⟩
  · omega
  · obtain ⟨x, hx, -⟩ := floorRoot_spec (n := n) (by omega) hr
    refine ⟨_, by rw [hx]; rfl, fun c hc => ?_⟩
    split_ifs at hc with h
    obtain rfl := Option.some.inj hc
    rw [intPow_eq] at h
    exact ⟨by omega, h⟩
  · refine ⟨_, rfl, fun c hc => ?_⟩
    obtain ⟨m, hm, rfl⟩ := Option.map_eq_some_iff.mp hc
    have h := List.find?_some hm
    refine ⟨Int.natCast_nonneg m, ?_⟩
    rw [Int.toNat_natCast, Int.toNat_natCast, decide_eq_true_eq] at h
    exact (Nat.cast_pow m r).symm.trans (congrArg Nat.cast h)

/-- The root `c` of an integer is found: the integer is below two, too wide for a guess, or the root
is the guess or next to it. -/
def IsFound (n r c : ℕ) : Prop :=
  n < 2 ∨ guessedBits < bitLength n ∨ (c ≤ guess n r + 1 ∧ guess n r ≤ c + 1)

instance (n r c : ℕ) : Decidable (IsFound guess n r c) :=
  inferInstanceAs (Decidable (_ ∨ _ ∨ _))

theorem mem_candidates_iff {g c : ℕ} : c ∈ candidates g ↔ c ≤ g + 1 ∧ g ≤ c + 1 := by
  cases g with
  | zero | succ =>
    simp only [candidates, List.mem_cons, List.not_mem_nil, or_false]
    omega

variable {guess} in
theorem guessedRoot?_eq_some_iff {n r c : ℕ} (hr : 1 ≤ r) :
    guessedRoot? guess n r = some c ↔ c ^ r = n ∧ c ≤ guess n r + 1 ∧ guess n r ≤ c + 1 := by
  rw [← mem_candidates_iff, guessedRoot?]
  have hpow : ∀ x : ℕ, decide (x.pow r = n) ↔ x ^ r = n := fun x => decide_eq_true_iff
  have hfound : ∀ x : ℕ, (candidates (guess n r)).find? (fun x => x.pow r = n) = some x →
      x ^ r = n := by
    intro x h
    have hx := List.find?_some h
    exact (hpow x).mp hx
  constructor
  · intro h
    exact ⟨hfound c h, List.mem_of_find?_eq_some h⟩
  · rintro ⟨hc, hmem⟩
    -- whichever candidate comes first, it is the only root
    cases h : (candidates (guess n r)).find? fun x => x.pow r = n with
    | none => exact absurd ((hpow c).mpr hc) (List.find?_eq_none.mp h c hmem)
    | some x =>
      rw [Nat.pow_left_injective (by omega) ((hfound x h).trans hc.symm)]

/-- A power of at least two has more bits than its exponent says. -/
theorem lt_bitLength_pow {c r : ℕ} (hr : 1 ≤ r) (h : 2 ≤ c ^ r) : r < bitLength (c ^ r : ℕ) := by
  have hc : 2 ≤ c := by
    by_contra hc
    obtain rfl | rfl : c = 0 ∨ c = 1 := by omega
    · rw [zero_pow (by omega)] at h
      omega
    · rw [one_pow] at h
      omega
  have hlog : r ≤ (c ^ r).log2 := (Nat.le_log2 (by omega)).mpr (Nat.pow_le_pow_left hc r)
  rw [bitLength, if_neg (by omega), Int.natAbs_natCast]
  omega

/-- A root that is exact is the root rounded down. -/
theorem eq_of_pow_between {n r c x : ℕ} (hr : 1 ≤ r) (hle : x ^ r ≤ n) (hlt : n < (x + 1) ^ r)
    (hc : c ^ r = n) : c = x := by
  subst hc
  have hxc : x ≤ c := (Nat.pow_le_pow_iff_left (by omega)).mp hle
  have hcx : c < x + 1 := (Nat.pow_lt_pow_iff_left (by omega)).mp hlt
  omega

/-- A root of a positive index is looked up exactly if it is one and it is found. -/
theorem exactRoot_eq_some_iff {n r c : ℕ} (hr : 1 ≤ r) :
    exactRoot guess n r = .ok (some (c : ℤ)) ↔ c ^ r = n ∧ IsFound guess n r c := by
  unfold exactRoot
  by_cases hsmall : n < 2
  · -- zero and one are their own roots
    have hroot : c ^ r = n ↔ n = c := by
      obtain rfl | rfl : n = 0 ∨ n = 1 := by omega
      · rw [pow_eq_zero_iff (by omega), eq_comm]
      · rw [Nat.pow_eq_one, or_iff_left (by omega), eq_comm]
    rw [if_pos (by exact_mod_cast hsmall), Except.ok.injEq, Option.some.injEq, Nat.cast_inj, hroot]
    exact (and_iff_left (Or.inl hsmall)).symm
  rw [if_neg (by exact_mod_cast hsmall), IsFound, or_iff_right hsmall]
  by_cases hbits : (bitLength n : ℤ) ≤ r
  · rw [if_pos hbits]
    refine iff_of_false (by simp) ?_
    rintro ⟨rfl, -⟩
    have := lt_bitLength_pow hr (not_lt.mp hsmall)
    omega
  rw [if_neg hbits, if_neg (by omega)]
  by_cases hwide : guessedBits < bitLength n
  · obtain ⟨x, hx, hle, hlt⟩ := floorRoot_spec (n := n) (by omega) hr
    have hpow : intPow (x : ℤ) r = n ↔ x ^ r = n := by
      rw [intPow_eq]
      show (x : ℤ) ^ r = n ↔ _
      norm_cast
    rw [if_pos hwide, hx, and_iff_left (Or.inl hwide)]
    show Except.ok (if intPow (x : ℤ) r = n then some (x : ℤ) else none) = .ok (some (c : ℤ)) ↔ _
    rw [Except.ok.injEq]
    constructor
    · intro h
      split_ifs at h with hxr
      rw [← hpow.mp hxr, ← Int.natCast_inj.mp (Option.some.inj h)]
    · intro hc
      obtain rfl := eq_of_pow_between hr hle hlt hc
      rw [if_pos (hpow.mpr hc)]
  · rw [if_neg hwide, or_iff_right hwide, Int.toNat_natCast, Int.toNat_natCast, Except.ok.injEq,
      ← guessedRoot?_eq_some_iff hr]
    simp

/-- The root of the magnitude of a numerator, with the sign of the numerator, is its root. -/
theorem signed_root_pow {q : Rat} {r : ℕ} {n : ℤ} (hreal : ¬ (q < 0 ∧ r % 2 = 0))
    (hn : n ^ r = q.num.natAbs) : (if q.num < 0 then -n else n) ^ r = q.num := by
  split_ifs with hneg
  · have hodd : Odd r := by
      rw [← Nat.not_even_iff_odd, Nat.even_iff]
      exact fun h => hreal ⟨Rat.num_neg.mp hneg, h⟩
    rw [hodd.neg_pow, hn]
    omega
  · rw [hn]
    omega

/-- The roots of the magnitude of a numerator and of a denominator make a root of the number. -/
theorem quotient_root_pow {q : Rat} {r : ℕ} (hr : 1 ≤ r) (hreal : ¬ (q < 0 ∧ r % 2 = 0)) {n d : ℤ}
    (hn : 0 ≤ n) (hnr : n ^ r = q.num.natAbs) (hd : 0 < d) (hdr : d ^ r = q.den) :
    Rat.divInt (if q.num < 0 then -n else n) d ^ r = q ∧
      (0 < q → 0 < Rat.divInt (if q.num < 0 then -n else n) d) := by
  rw [Rat.divInt_eq_div]
  constructor
  · rw [div_pow, ← Int.cast_pow, ← Int.cast_pow, signed_root_pow hreal hnr, hdr]
    exact Rat.num_div_den q
  · intro hq
    rw [if_neg (not_lt.mpr (Rat.num_pos.mpr hq).le)]
    have hn0 : n ≠ 0 := by
      rintro rfl
      rw [zero_pow (by omega)] at hnr
      exact hq.ne' (Rat.num_eq_zero.mp (Int.natAbs_eq_zero.mp (by exact_mod_cast hnr.symm)))
    exact div_pos (by exact_mod_cast lt_of_le_of_ne hn hn0.symm) (by exact_mod_cast hd)

/-- A search for a rational root of a positive index ends unless it is for an even root of a
negative number, and a root that it finds is one. -/
theorem rationalRoot_of_real {q : Rat} {r : ℕ} (hr : 1 ≤ r) (hreal : ¬ (q < 0 ∧ r % 2 = 0)) :
    ∃ o : Option Rat, rationalRoot guess q r = .ok o ∧
      ∀ v, o = some v → v ^ r = q ∧ (0 < q → 0 < v) := by
  obtain ⟨num, hnum, hnum'⟩ := exactRoot_spec guess (n := q.num.natAbs) hr
  obtain ⟨den, hden, hden'⟩ := exactRoot_spec guess (n := q.den) hr
  have hreal' : ¬ (q.num < 0 ∧ (r : ℤ) % 2 = 0) := by
    rintro ⟨hq, hr⟩
    exact hreal ⟨Rat.num_neg.mp hq, by omega⟩
  rw [rationalRoot, if_neg hreal', hnum, hden]
  cases num with
  | none => exact ⟨none, rfl, nofun⟩
  | some n =>
    cases den with
    | none => exact ⟨none, rfl, nofun⟩
    | some d =>
      obtain ⟨hn, hnr⟩ := hnum' n rfl
      obtain ⟨hd, hdr⟩ := hden' d rfl
      have hd0 : d ≠ 0 := by
        rintro rfl
        rw [zero_pow (by omega)] at hdr
        exact q.den_nz (by exact_mod_cast hdr.symm)
      refine ⟨some (Rat.divInt (if q.num < 0 then -n else n) d), ?_, ?_⟩
      · show some <$> Rational.ofInts _ d = _
        rw [Rational.ofInts_eq_ok_iff.mpr ⟨hd0, rfl⟩]
        rfl
      · rintro v ⟨⟩
        exact quotient_root_pow hr hreal hn hnr (lt_of_le_of_ne hd hd0.symm) hdr

theorem rationalRoot_spec {q : Rat} {r : ℕ} (hr : 1 ≤ r) (hparity : 0 < q ∨ r % 2 = 1) :
    ∃ o : Option Rat, rationalRoot guess q r = .ok o ∧
      ∀ v, o = some v → v ^ r = q ∧ (0 < q → 0 < v) := by
  refine rationalRoot_of_real guess hr ?_
  rintro ⟨hq, heven⟩
  rcases hparity with h | h
  · exact absurd hq (not_lt.mpr h.le)
  · omega

/-- The search fails for an even root of a negative number, and for no other root. -/
theorem rationalRoot_eq_error_iff {q : Rat} {r : ℕ} (hr : 1 ≤ r) {err : Error} :
    rationalRoot guess q r = .error err ↔
      (q < 0 ∧ r % 2 = 0) ∧ err = .undefined (.noRealRoot r q) := by
  by_cases hreal : q < 0 ∧ r % 2 = 0
  · have hreal' : q.num < 0 ∧ (r : ℤ) % 2 = 0 := ⟨Rat.num_neg.mpr hreal.1, by omega⟩
    rw [rationalRoot, if_pos hreal', and_iff_right hreal, Except.error.injEq]
    exact eq_comm
  · obtain ⟨o, ho, -⟩ := rationalRoot_of_real guess hr hreal
    rw [ho]
    exact iff_of_false nofun fun h => hreal h.1

/-- A rational root that is found is one. -/
theorem pow_of_rationalRoot {q v : Rat} {r : ℕ} (hr : 1 ≤ r)
    (hv : rationalRoot guess q r = .ok (some v)) : v ^ r = q := by
  by_cases hreal : q < 0 ∧ r % 2 = 0
  · rw [(rationalRoot_eq_error_iff guess hr).mpr ⟨hreal, rfl⟩] at hv
    cases hv
  · obtain ⟨o, ho, hroot⟩ := rationalRoot_of_real guess hr hreal
    rw [ho] at hv
    exact (hroot v (Except.ok.inj hv)).1

/-- No integer root is found where there is none. -/
theorem exactRoot_eq_none {n r : ℕ} (hr : 1 ≤ r) (h : ∀ c : ℕ, c ^ r ≠ n) :
    exactRoot guess n r = .ok none := by
  obtain ⟨o, ho, hroot⟩ := exactRoot_spec guess (n := n) hr
  cases o with
  | none => exact ho
  | some c =>
    obtain ⟨hc, hcr⟩ := hroot c rfl
    lift c to ℕ using hc
    exact absurd (by exact_mod_cast hcr) (h c)

theorem isFound_iff {n r c : ℕ} :
    IsFound guess n r c ↔
      n < 2 ∨ guessedBits < bitLength n ∨ |(guess n r : ℤ) - c| ≤ 1 := by
  have hnear : c ≤ guess n r + 1 ∧ guess n r ≤ c + 1 ↔ |(guess n r : ℤ) - c| ≤ 1 := by
    rw [abs_le]
    omega
  rw [IsFound, hnear]

/-- A search for the root of an integer ends. What it finds is the root, so nothing is found where
there is none. A root that there is, is not given up for its index, which is smaller than the number
of bits; it is found if the integer is below two or wider than 1000 bits, or if the guess, whatever
it is, is at most one away. A search for the root of a rational number fails exactly for the even
roots of negative numbers, and what it finds is the root. -/
theorem exactRoot_exact {r : ℕ} (hr : 1 ≤ r) :
    (∀ n : ℕ, (∃ o, exactRoot guess n r = .ok o) ∧
      (∀ c : ℤ, exactRoot guess n r = .ok (some c) → 0 ≤ c ∧ c ^ r = n) ∧
      ((∀ c : ℕ, c ^ r ≠ n) → exactRoot guess n r = .ok none) ∧
      ∀ c : ℕ, c ^ r = n →
        (2 ≤ n → r < bitLength n) ∧
        (exactRoot guess n r = .ok (some (c : ℤ)) ↔
          n < 2 ∨ guessedBits < bitLength n ∨ |(guess n r : ℤ) - c| ≤ 1)) ∧
    ∀ q : Rat,
      (∀ err, rationalRoot guess q r = .error err ↔
        (q < 0 ∧ r % 2 = 0) ∧ err = .undefined (.noRealRoot r q)) ∧
      ∀ v, rationalRoot guess q r = .ok (some v) → v ^ r = q := by
  constructor
  · intro n
    obtain ⟨o, ho, hroot⟩ := exactRoot_spec guess (n := n) hr
    refine ⟨⟨o, ho⟩, ?_, exactRoot_eq_none guess hr, ?_⟩
    · intro c hc
      exact hroot c (Except.ok.inj (ho.symm.trans hc))
    · rintro c rfl
      refine ⟨lt_bitLength_pow hr, ?_⟩
      rw [exactRoot_eq_some_iff guess hr, and_iff_right rfl, isFound_iff]
  · intro q
    exact ⟨fun err => rationalRoot_eq_error_iff guess hr, fun v => pow_of_rationalRoot guess hr⟩

/-- The cube root of a wide number, and that of a number that is no cube. -/
theorem exactRoot_exact_cubes :
    1 ≤ 3 ∧
      exactRoot Estimate.root ((10 ^ 120) ^ 3 : ℕ) (3 : ℕ) = .ok (some (10 ^ 120 : ℕ)) ∧
      3 < bitLength ((10 ^ 120) ^ 3 : ℕ) ∧
      exactRoot Estimate.root (28 : ℕ) (3 : ℕ) = .ok none ∧
      rationalRoot Estimate.root (-8 / 27) (3 : ℕ) = .ok (some (-2 / 3)) ∧
      (-2 / 3 : Rat) ^ 3 = -8 / 27 := by
  obtain ⟨hinteger, hrational⟩ := exactRoot_exact Estimate.root (show 1 ≤ 3 by decide)
  obtain ⟨-, -, -, hwide⟩ := hinteger ((10 ^ 120) ^ 3)
  obtain ⟨-, -, hnone, -⟩ := hinteger 28
  obtain ⟨hbits, hfound⟩ := hwide (10 ^ 120) rfl
  have hthird : rationalRoot Estimate.root (-8 / 27) (3 : ℕ) = .ok (some (-2 / 3)) := by
    decide +kernel
  refine ⟨by decide, hfound.mpr (Or.inr (Or.inl ?_)), hbits ?_, hnone ?_, hthird, ?_⟩
  · decide +kernel
  · decide +kernel
  · intro c hc
    have hsmall : c < 4 := by
      by_contra hlarge
      have := Nat.pow_le_pow_left (not_lt.mp hlarge) 3
      omega
    have hcubes : ∀ c < 4, c ^ 3 ≠ 28 := by decide
    exact hcubes c hsmall hc
  · exact (hrational (-8 / 27)).2 (-2 / 3) hthird

end Root

end ExactAlgebra
