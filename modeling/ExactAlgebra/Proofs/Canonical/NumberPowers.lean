import ExactAlgebra.Number.Estimate
import ExactAlgebra.Proofs.Canonical.Parts
import Mathlib.Algebra.Order.Field.Power

/-!
# Powers of numbers

A number raised to an exponent comes down to a number or to a power. If it is a number, that is the
real power (`IsPower`), whatever the guess at roots is; if it is a power, its exponent is positive
and the root that it asks for is missing (`simplify_pow_num`).

Where one exponent stands on another, the inner power is worked out first if its root is found, and
otherwise the two exponents are multiplied. For a negative number that is not the same: an even
numerator inside makes the value positive, and the product of the exponents forgets it if the
denominator outside is even. The magnitude is right in both cases, and the sign exactly in those
that `simplify_pow_pow_of_neg` names; `simplify_pow_pow_neg_two` is one of the others.
-/

namespace ExactAlgebra

namespace Rational

/-! ### Real powers of rational numbers -/

/-- The number `v` is the real power of `q` with the exponent `p`. -/
structure IsPower (q p v : ℚ) : Prop where
  pow_den : v ^ p.den = q ^ p.num
  pos : 0 < q → 0 < v
  /-- Negative numbers have no even roots. -/
  odd_den : q < 0 → p.den % 2 = 1

variable {q p s v w : ℚ}

theorem isPower_zero (q : ℚ) : IsPower q 0 1 := by
  constructor <;> simp

theorem isPower_one (q : ℚ) : IsPower q 1 q := by
  constructor <;> simp

/-- A root, raised to the numerator. -/
theorem isPower_of_root {r : ℚ} (hp : 0 < p) (hroot : r ^ p.den = q) (hpos : 0 < q → 0 < r)
    (hodd : q < 0 → p.den % 2 = 1) : IsPower q p (r ^ p.num.toNat) := by
  have hnum : (p.num.toNat : ℤ) = p.num := Int.toNat_of_nonneg (Rat.num_pos.mpr hp).le
  refine ⟨?_, fun hq => pow_pos (hpos hq) _, hodd⟩
  rw [pow_right_comm, hroot, ← zpow_natCast, hnum]

/-- The reciprocal has the same powers, with the opposite exponents. -/
theorem isPower_inv_neg : IsPower q⁻¹ (-p) v ↔ IsPower q p v := by
  have hpow : v ^ (-p).den = q⁻¹ ^ (-p).num ↔ v ^ p.den = q ^ p.num := by
    rw [Rat.neg_den, Rat.neg_num, inv_zpow', neg_neg]
  constructor
  · rintro ⟨h, hpos, hodd⟩
    exact ⟨hpow.mp h, fun hq => hpos (inv_pos.mpr hq), fun hq => hodd (inv_lt_zero.mpr hq)⟩
  · rintro ⟨h, hpos, hodd⟩
    exact ⟨hpow.mpr h, fun hq => hpos (inv_pos.mp hq), fun hq => hodd (inv_lt_zero.mp hq)⟩

/-- A power of a negative number is positive if the numerator of the exponent is even. -/
theorem IsPower.pos_iff (h : IsPower q p v) (hq : q < 0) : 0 < v ↔ p.num % 2 = 0 := by
  have hden : Odd p.den := Nat.odd_iff.mpr (h.odd_den hq)
  rw [← hden.pow_pos_iff, h.pow_den]
  rcases Int.even_or_odd p.num with heven | hodd
  · exact iff_of_true (heven.zpow_pos hq.ne) (Int.even_iff.mp heven)
  · rw [hodd.zpow_pos_iff]
    refine iff_of_false (not_lt.mpr hq.le) ?_
    have := Int.odd_iff.mp hodd
    omega

theorem IsPower.abs_pow_den (h : IsPower q p v) : |v| ^ p.den = |q| ^ p.num := by
  rw [← abs_pow, ← abs_zpow, h.pow_den]

/-- But for the sign, a power of a power has the product of the exponents. -/
theorem IsPower.abs_pow_den_mul (h : IsPower q p v) (h' : IsPower v s w) :
    |w| ^ (s * p).den = |q| ^ (s * p).num := by
  have hv : |v| ^ (p.den : ℤ) = |q| ^ p.num := by
    rw [zpow_natCast, h.abs_pow_den]
  have hw : |w| ^ (s.den : ℤ) = |v| ^ s.num := by
    rw [zpow_natCast, h'.abs_pow_den]
  -- the product of the exponents may have been reduced: compare powers of both denominators
  have hfactor : (|w| ^ (s * p).den) ^ (s.den * p.den) =
      (|q| ^ (s * p).num) ^ (s.den * p.den) := by
    simp only [← zpow_natCast, Nat.cast_mul]
    calc (|w| ^ ((s * p).den : ℤ)) ^ ((s.den : ℤ) * p.den)
        = (|w| ^ (s.den : ℤ)) ^ ((p.den : ℤ) * (s * p).den) := by
          rw [← zpow_mul, ← zpow_mul]
          ring_nf
      _ = (|v| ^ (p.den : ℤ)) ^ (s.num * (s * p).den) := by
          rw [hw, ← zpow_mul, ← zpow_mul]
          ring_nf
      _ = |q| ^ (s.num * p.num * (s * p).den) := by
          rw [hv, ← zpow_mul]
          ring_nf
      _ = (|q| ^ (s * p).num) ^ ((s.den : ℤ) * p.den) := by
          rw [← zpow_mul, ← Rat.mul_num_den', mul_assoc]
  have hne : s.den * p.den ≠ 0 := Nat.mul_ne_zero s.den_nz p.den_nz
  exact (pow_left_inj₀ (by positivity) (by positivity) hne).mp hfactor

end Rational

namespace Canonical

open ExactAlgebra.Expr Rational

variable (guess : RootGuess)

/-! ### One exponent on a number -/

theorem simplify_pow_eq_raised (q p : ℚ) :
    (Expr.pow (.num q) p).simplify guess = raised guess (.num q) p := by
  have hq : (Expr.num q).simplify guess = .ok (.num q) := rfl
  exact simplify_pow hq p

/-- Nothing is changed about a power when it is made upright, also below another exponent. -/
theorem isPower_upright_mul {q p v : ℚ} (s : ℚ) :
    IsPower (upright q p).1 (s * (upright q p).2) v ↔ IsPower q (s * p) v := by
  unfold upright
  split_ifs
  · show IsPower q⁻¹ (s * -p) v ↔ _
    rw [mul_neg, isPower_inv_neg]
  · exact Iff.rfl

theorem isPower_upright {q p v : ℚ} :
    IsPower (upright q p).1 (upright q p).2 v ↔ IsPower q p v := by
  simpa using isPower_upright_mul (q := q) (p := p) (v := v) 1

/-- A number other than zero, raised to an exponent, is worked out rightly, or its root is missing
and it is left upright. -/
theorem raised_num_cases {q : ℚ} (hq : q ≠ 0) (p : ℚ) :
    (∃ v, IsPower q p v ∧ (p = 0 ∨ p = 1 ∨ ¬ RootMissing guess q p) ∧
        raised guess (.num q) p = .ok (.num v)) ∨
      (p ≠ 0 ∧ p ≠ 1 ∧ RootMissing guess q p ∧
        raised guess (.num q) p = .ok (.pow (.num (upright q p).1) (upright q p).2)) := by
  by_cases hp1 : p = 1
  · subst hp1
    exact Or.inl ⟨q, isPower_one q, Or.inr (Or.inl rfl), if_pos rfl⟩
  have hraised : raised guess (.num q) p = numberPower guess q p := if_neg hp1
  by_cases hp : p = 0
  · subst hp
    refine Or.inl ⟨1, isPower_zero q, Or.inl rfl, ?_⟩
    rw [hraised, numberPower, if_neg hq, if_pos rfl]
  rw [hraised, numberPower_eq guess hq hp]
  have hmissing := rootMissing_upright guess (p := p) hq
  obtain ⟨hq', hp'⟩ := upright_spec hq hp
  rcases positivePower_cases guess hq' hp' with ⟨r, hroot, hpos, hfound, hn⟩ | ⟨hleft, hn⟩
  · refine Or.inl ⟨_, ?_, Or.inr (Or.inr (mt hmissing.mpr hfound)), hn⟩
    have hodd : (upright q p).1 < 0 → (upright q p).2.den % 2 = 1 := by
      intro hneg
      by_contra heven
      exact hfound (Or.inl ⟨hneg, by omega⟩)
    exact isPower_upright.mp (isPower_of_root hp' hroot hpos hodd)
  · exact Or.inr ⟨hp, hp1, hmissing.mp hleft, hn⟩

/-- A power of a number other than zero is a number again unless its root is missing. -/
theorem raised_num_eq_num_iff {q : ℚ} (hq : q ≠ 0) {p : ℚ} :
    (∃ v, raised guess (.num q) p = .ok (.num v)) ↔ p = 0 ∨ p = 1 ∨ ¬ RootMissing guess q p := by
  rcases raised_num_cases guess hq p with ⟨v, -, hwhen, hn⟩ | ⟨hp, hp1, hmissing, hn⟩
  · exact iff_of_true ⟨v, hn⟩ hwhen
  · rw [hn]
    refine iff_of_false (by simp) ?_
    simp [hp, hp1, hmissing]

end Canonical

namespace Expr

open Canonical Rational

/-! ### Canonical forms -/

/-- A number other than zero, raised to an exponent, has a canonical form. If that is a number it is
the real power; otherwise it is the power, or that of the reciprocal, with a positive exponent. It is
a number if there is nothing to do or the root of the number is found. -/
theorem simplify_pow_num (guess : RootGuess) {q : ℚ} (hq : q ≠ 0) (p : ℚ) :
    ∃ n, (pow (num q) p).simplify guess = .ok n ∧
      (∀ v, n = num v → v ^ p.den = q ^ p.num ∧ (0 < q → 0 < v) ∧ (q < 0 → p.den % 2 = 1)) ∧
      ((∀ v, n ≠ num v) →
        (0 < p ∧ n = pow (num q) p) ∨ (p < 0 ∧ n = pow (num q⁻¹) (-p))) ∧
      ((∃ v, n = num v) ↔ p = 0 ∨ p = 1 ∨ ¬ RootMissing guess q p) := by
  have hwhen := raised_num_eq_num_iff guess hq (p := p)
  rw [simplify_pow_eq_raised]
  rcases raised_num_cases guess hq p with ⟨v, hv, -, hn⟩ | ⟨hp, -, -, hn⟩
  · rw [hn] at hwhen
    refine ⟨num v, hn, ?_, ?_, by simpa using hwhen⟩
    · rintro w ⟨⟩
      exact ⟨hv.pow_den, hv.pos, hv.odd_den⟩
    · intro hne
      exact absurd rfl (hne v)
  · rw [hn] at hwhen
    refine ⟨_, hn, by simp, fun _ => ?_, by simpa using hwhen⟩
    unfold upright
    split_ifs with h
    · exact Or.inr ⟨h, rfl⟩
    · exact Or.inl ⟨lt_of_le_of_ne (not_lt.mp h) hp.symm, rfl⟩

/-- A cube root of a negative number is found, and another one is not. -/
theorem simplify_pow_num_cubeRoots :
    (-8 / 27 : ℚ) ≠ 0 ∧
      (pow (num (-8 / 27)) (-2 / 3)).simplify Estimate.root = .ok (num (9 / 4)) ∧
      (9 / 4 : ℚ) ^ (-2 / 3 : ℚ).den = (-8 / 27) ^ (-2 / 3 : ℚ).num ∧
      (-8 / 25 : ℚ) ≠ 0 ∧
      (pow (num (-8 / 25)) (-2 / 3)).simplify Estimate.root =
        .ok (pow (num (-8 / 25)⁻¹) (-(-2 / 3))) := by
  have hne : (-8 / 27 : ℚ) ≠ 0 := by norm_num
  have hne' : (-8 / 25 : ℚ) ≠ 0 := by norm_num
  obtain ⟨n, hn, hnumber, -⟩ := simplify_pow_num Estimate.root hne (-2 / 3)
  obtain ⟨m, hm, -, hpower, hiff⟩ := simplify_pow_num Estimate.root hne' (-2 / 3)
  have hfound : (pow (num (-8 / 27)) (-2 / 3)).simplify Estimate.root = .ok (num (9 / 4)) := by
    decide +kernel
  have hmissing : RootMissing Estimate.root (-8 / 25) (-2 / 3) := by
    refine Or.inr ?_
    decide +kernel
  obtain rfl : n = num (9 / 4) := Except.ok.inj (hn.symm.trans hfound)
  refine ⟨hne, hfound, (hnumber _ rfl).1, hne', ?_⟩
  have hleft : ∀ v, m ≠ num v := by
    rintro v rfl
    rcases hiff.mp ⟨v, rfl⟩ with h | h | h
    · norm_num at h
    · norm_num at h
    · exact h hmissing
  rcases hpower hleft with ⟨hpos, -⟩ | ⟨-, rfl⟩
  · norm_num at hpos
  · exact hm

/-- A power of a power of a negative number has a canonical form, where the inner exponent has an
even numerator, so that its value is positive. If the form is a number its magnitude is right, and
its sign is, exactly if the root of the inner power is found or the numerator of the product of the
exponents is even. -/
theorem simplify_pow_pow_of_neg (guess : RootGuess) {q p : ℚ} (hq : q < 0) (hp : p ≠ 0)
    (heven : p.num % 2 = 0) (s : ℚ) :
    ∃ n, (pow (pow (num q) p) s).simplify guess = .ok n ∧
      ∀ v, n = num v → |v| ^ (s * p).den = |q| ^ (s * p).num ∧
        (0 < v ↔ ¬ RootMissing guess q p ∨ (s * p).num % 2 = 0) := by
  have hinner := simplify_pow_eq_raised guess q p
  rcases raised_num_cases guess hq.ne p with ⟨v, hv, hwhen, hn⟩ | ⟨-, -, hmissing, hn⟩
  · -- the inner power is worked out, and it is positive
    have hpos : 0 < v := (hv.pos_iff hq).mpr heven
    have hfound : ¬ RootMissing guess q p := by
      rcases hwhen with rfl | rfl | h
      · exact absurd rfl hp
      · exact absurd heven (by decide)
      · exact h
    have hform : (pow (pow (num q) p) s).simplify guess = raised guess (num v) s :=
      simplify_pow (hinner.trans hn) s
    rw [hform]
    rcases raised_num_cases guess hpos.ne' s with ⟨w, hw, -, hm⟩ | ⟨-, -, -, hm⟩
    · refine ⟨num w, hm, ?_⟩
      rintro u ⟨⟩
      exact ⟨hv.abs_pow_den_mul hw, iff_of_true (hw.pos hpos) (Or.inl hfound)⟩
    · exact ⟨_, hm, nofun⟩
  · -- the inner power is left, and its exponent is multiplied by the outer one
    have hform : (pow (pow (num q) p) s).simplify guess =
        raised guess (num (upright q p).1) (s * (upright q p).2) :=
      simplify_pow_pow (hinner.trans hn) s
    have hq' : (upright q p).1 ≠ 0 := (upright_spec hq.ne hp).1
    rw [hform]
    rcases raised_num_cases guess hq' (s * (upright q p).2) with ⟨w, hw, -, hm⟩ | ⟨-, -, -, hm⟩
    · rw [isPower_upright_mul] at hw
      refine ⟨num w, hm, ?_⟩
      rintro u ⟨⟩
      refine ⟨hw.abs_pow_den, ?_⟩
      rw [hw.pos_iff hq, or_iff_right (not_not.mpr hmissing)]
    · exact ⟨_, hm, nofun⟩

/-- The root of the inner power is not found, and the product of the exponents has an even
numerator. -/
theorem simplify_pow_pow_of_neg_half :
    (-1 / 2 : ℚ) < 0 ∧ (-2 / 3 : ℚ) ≠ 0 ∧ (-2 / 3 : ℚ).num % 2 = 0 ∧
      (pow (pow (num (-1 / 2)) (-2 / 3)) 3).simplify Estimate.root = .ok (num 4) ∧
      |(4 : ℚ)| ^ (3 * (-2 / 3) : ℚ).den = |(-1 / 2 : ℚ)| ^ (3 * (-2 / 3) : ℚ).num ∧
      (0 < (4 : ℚ) ↔ ¬ RootMissing Estimate.root (-1 / 2) (-2 / 3) ∨
        (3 * (-2 / 3) : ℚ).num % 2 = 0) := by
  have hq : (-1 / 2 : ℚ) < 0 := by norm_num
  have hp : (-2 / 3 : ℚ) ≠ 0 := by norm_num
  have heven : (-2 / 3 : ℚ).num % 2 = 0 := by decide +kernel
  have hfour : (pow (pow (num (-1 / 2)) (-2 / 3)) 3).simplify Estimate.root = .ok (num 4) := by
    decide +kernel
  obtain ⟨n, hn, hnumber⟩ := simplify_pow_pow_of_neg Estimate.root hq hp heven 3
  obtain rfl : n = num 4 := Except.ok.inj (hn.symm.trans hfour)
  exact ⟨hq, hp, heven, hfour, hnumber 4 rfl⟩

/-- With the exponent two thirds inside and three halves outside, minus eight comes to eight, since its
cube root is found, and minus two comes to itself. -/
theorem simplify_pow_pow_neg_two :
    (-2 : ℚ) < 0 ∧ (2 / 3 : ℚ).num % 2 = 0 ∧ (2 / 3 : ℚ).den % 2 = 1 ∧
      (pow (pow (num (-8)) (2 / 3)) (3 / 2)).simplify Estimate.root = .ok (num 8) ∧
      (pow (pow (num (-2)) (2 / 3)) (3 / 2)).simplify Estimate.root = .ok (num (-2)) ∧
      ¬ 0 < (-2 : ℚ) := by
  refine ⟨?_, ?_, ?_, ?_, ?_, ?_⟩ <;> decide +kernel

end Expr

end ExactAlgebra
