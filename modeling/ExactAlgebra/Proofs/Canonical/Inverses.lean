import ExactAlgebra.Number.Estimate
import ExactAlgebra.Proofs.Canonical.Differences
import ExactAlgebra.Proofs.Canonical.Quotients

/-!
# Inverses

An expression is taken away from itself unless its form is a sum or the negative of one, and divided
by itself unless its form is zero, a product, the reciprocal of a product or a power of a number
(`simplify_inverses`). The exceptions are those of a pass that neither multiplies a number into a
sum nor raises the factors of a product one by one (`simplify_inverses_ne`).
-/

namespace ExactAlgebra

namespace Expr

open Canonical

variable {guess : RootGuess}

/-- A form that its reciprocal cancels: not zero, and neither a product, nor the reciprocal of one,
nor a power of a number. -/
structure Cancels (n : Expr) : Prop where
  ne_zero : n ≠ num 0
  ne_prod : ∀ fs, n ≠ prod fs
  ne_inverse : ∀ fs, n ≠ pow (prod fs) (-1)
  ne_root : ∀ q p, n ≠ pow (num q) p

theorem not_cancels_cases {n : Expr} (h : ¬ n.Cancels) :
    n = num 0 ∨ (∃ fs, n = prod fs ∨ n = pow (prod fs) (-1)) ∨ ∃ q p, n = pow (num q) p := by
  by_contra hnone
  simp only [not_or, not_exists] at hnone
  exact h ⟨hnone.1, fun fs => (hnone.2.1 fs).1, fun fs => (hnone.2.1 fs).2, hnone.2.2⟩

/-- The quotient of an expression and itself is one if its form cancels. -/
theorem simplify_quotient_eq_one {e n : Expr} (hn : e.simplify guess = .ok n)
    (h : Reduced guess n) (hcancels : n.Cancels) :
    (e.times e.inverted).simplify guess = .ok (num 1) := by
  obtain ⟨m, hm, hquotient⟩ := simplify_quotient hn
  rw [hquotient]
  by_cases hrat : n.kind = .rational
  · obtain ⟨q, rfl⟩ := kind_eq_rational_iff.mp hrat
    have hq : q ≠ 0 := fun hq => hcancels.ne_zero (congrArg num hq)
    exact productForm_num_inverse hq hm
  · refine productForm_inverse h ?_ ?_ hm
    · cases n with
      | pow b p =>
        intro hb
        obtain ⟨q, rfl⟩ := kind_eq_rational_iff.mp hb
        exact hcancels.ne_root q p rfl
      | num | sym | prod | sum => exact hrat
    · intro hprod
      cases n with
      | pow b p =>
        constructor
        · rintro rfl
          have hb : b.kind = .rational := h.nodes.1.base_of_one b rfl
          exact absurd (hb.symm.trans hprod) (by simp)
        · rintro rfl
          cases b with
          | prod fs => exact hcancels.ne_inverse fs rfl
          | num | sym | pow | sum => cases hprod
      | prod fs => exact absurd rfl (hcancels.ne_prod fs)
      | num | sym | sum => cases hprod

/-- The quotient of an expression and itself is one only if its form cancels. -/
theorem cancels_of_simplify_quotient {e n : Expr} (hn : e.simplify guess = .ok n)
    (h : Irreducible guess n) (hone : (e.times e.inverted).simplify guess = .ok (num 1)) :
    n.Cancels := by
  obtain ⟨m, hm, hquotient⟩ := simplify_quotient hn
  rw [hquotient] at hone
  by_contra hcancels
  rcases not_cancels_cases hcancels with rfl | ⟨fs, hprod⟩ | ⟨q, p, rfl⟩
  · have hzero : constantFactor ((num 0).factors ++ m.factors) = 0 :=
      (constantFactor_num_cons 0 m.factors).trans (zero_mul _)
    rw [productForm_of_zero ?_ hzero] at hone
    · cases hone
    · exact List.forall_mem_append.mpr
        ⟨h.reduced.reduced_factors, (reduced_of_power h.reduced hm).reduced_factors⟩
  · have hfs : Irreducible guess (prod fs) := by
      rcases hprod with rfl | rfl
      · exact h
      · exact h.base
    rw [productForm_of_product hm hfs hprod] at hone
    cases hone
  · rw [(power_inverse_of_root h).1] at hm
    rw [← Except.ok.inj hm] at hone
    exact productForm_roots_ne_one h hone

/-- An expression without exponent zero has a form; taken away from itself, it comes to zero unless
its form is a sum or the negative of one, and divided by itself, to one exactly if its form cancels.
Forms with powers of exponent one are left aside, but for those that cancel. -/
theorem simplify_inverses (guess : RootGuess) {e : Expr} (he : ZeroFree e) :
    ∃ n, e.simplify guess = .ok n ∧
      (n.OneFree → ((ofTerms [e, e.negated]).simplify guess = .ok (num 0) ↔
        ∀ ts, n ≠ sum ts ∧ n ≠ prod [num (-1), sum ts])) ∧
      (n.Cancels → (e.times e.inverted).simplify guess = .ok (num 1)) ∧
      (n.OneFree → (e.times e.inverted).simplify guess = .ok (num 1) → n.Cancels) := by
  obtain ⟨n, hn⟩ := exists_simplify_eq_ok guess he
  have h := reduced_of_yields (yields_of_simplifyTraced hn)
  refine ⟨n, hn, ?_, ?_, ?_⟩
  · intro hone
    exact simplify_difference_eq_zero_iff hn ⟨h, hone⟩
  · exact simplify_quotient_eq_one hn h
  · intro hone
    exact cancels_of_simplify_quotient hn ⟨h, hone⟩

/-- A sum of two letters. -/
def twoTerms : Expr :=
  sum [sym ⟨'e', by decide⟩, sym ⟨'g', by decide⟩]

/-- A product of two letters. -/
def twoFactors : Expr :=
  prod [sym ⟨'e', by decide⟩, sym ⟨'g', by decide⟩]

/-- The square of a sum is taken away from itself, and divided by itself. -/
theorem simplify_inverses_square :
    ZeroFree (pow twoTerms 2) ∧
      (ofTerms [pow twoTerms 2, negated (pow twoTerms 2)]).simplify Estimate.root = .ok (num 0) ∧
      (times (pow twoTerms 2) (inverted (pow twoTerms 2))).simplify Estimate.root =
        .ok (num 1) := by
  have hzero : ZeroFree (pow twoTerms 2) := by
    simp [ZeroFree, twoTerms]
  obtain ⟨n, hn, hdifference, hquotient, -⟩ := simplify_inverses Estimate.root hzero
  have hself : (pow twoTerms 2).simplify Estimate.root = .ok (pow twoTerms 2) := by
    decide +kernel
  obtain rfl : pow twoTerms 2 = n := Except.ok.inj (hself.symm.trans hn)
  refine ⟨hzero, (hdifference ?_).mpr ?_, hquotient ?_⟩
  · simp [oneFree_iff, twoTerms]
  · simp
  · constructor <;> simp [twoTerms]

/-- A sum is not taken away from itself, and neither a product nor a root of a number is divided by
itself. -/
theorem simplify_inverses_ne :
    (ZeroFree twoTerms ∧ (ofTerms [twoTerms, negated twoTerms]).simplify Estimate.root =
        .ok (sum [prod [num (-1), twoTerms], sym ⟨'e', by decide⟩, sym ⟨'g', by decide⟩]) ∧
        sum [prod [num (-1), twoTerms], sym ⟨'e', by decide⟩, sym ⟨'g', by decide⟩] ≠ num 0) ∧
      (ZeroFree twoFactors ∧ twoFactors.simplify Estimate.root = .ok twoFactors ∧
        (times twoFactors (inverted twoFactors)).simplify Estimate.root =
          .ok (prod [pow twoFactors (-1), sym ⟨'e', by decide⟩, sym ⟨'g', by decide⟩]) ∧
        prod [pow twoFactors (-1), sym ⟨'e', by decide⟩, sym ⟨'g', by decide⟩] ≠ num 1) ∧
      ZeroFree (pow (num 2) (1 / 2)) ∧
        (pow (num 2) (1 / 2)).simplify Estimate.root = .ok (pow (num 2) (1 / 2)) ∧
        (times (pow (num 2) (1 / 2)) (inverted (pow (num 2) (1 / 2)))).simplify Estimate.root =
          .ok (prod [pow (num (1 / 2)) (1 / 2), pow (num 2) (1 / 2)]) ∧
        prod [pow (num (1 / 2)) (1 / 2), pow (num 2) (1 / 2)] ≠ num 1 := by
  refine ⟨⟨?_, ?_, by simp⟩, ⟨?_, ?_, ?_, by simp⟩, ?_, ?_, ?_, by simp⟩
  · simp [ZeroFree, twoTerms]
  · decide +kernel
  · simp [ZeroFree, twoFactors]
  · decide +kernel
  · decide +kernel
  · simp [ZeroFree]
  · decide +kernel
  · decide +kernel

end Expr

end ExactAlgebra
