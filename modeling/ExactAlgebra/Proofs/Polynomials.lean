import ExactAlgebra.Proofs.FormalSums
import Mathlib.Algebra.MvPolynomial.Basic

/-!
# Expressions as polynomials

An expression with natural exponents denotes a polynomial in the letters with rational coefficients.
Powers are taken as products of equal factors, so a power of exponent zero is one, and the reading
is lawful (`lawful_polynomial`).

Polynomials are the formal sums whose exponents are natural numbers (`polynomialHom`). A sum of
monomials denotes the same as a polynomial and as a formal sum, where it denotes a polynomial at all
(`polynomialHom_polynomial`).
-/

namespace ExactAlgebra

open MvPolynomial (C X)

/-- The reading in polynomials, for powers with natural exponents. -/
noncomputable def Reading.polynomial : Reading (MvPolynomial Letter ℚ) where
  num q := C q
  letter x := X x
  pow a p := a ^ p.num.toNat
  IsNum _ := True
  IsPow _ p := ∃ n : ℕ, p = n
  IsValue _ := True

namespace Reading

theorem polynomial_pow_natCast (a : MvPolynomial Letter ℚ) (n : ℕ) : polynomial.pow a n = a ^ n := by
  show a ^ (n : ℚ).num.toNat = a ^ n
  rw [Rat.num_natCast, Int.toNat_natCast]

theorem lawful_polynomial : polynomial.Lawful where
  num_zero := map_zero C
  num_one := map_one C
  isNum_one := trivial
  isNum_zero _ := trivial
  num_add {a b} _ _ := ⟨trivial, map_add C a b⟩
  num_mul {a b} _ _ := ⟨trivial, map_mul C a b⟩
  isValue_num _ := trivial
  isValue_letter _ := trivial
  isValue_pow _ := trivial
  isValue_mul _ _ := trivial
  pow_one {a} _ := ⟨⟨1, Nat.cast_one.symm⟩, pow_one a⟩
  pow_zero {a} _ := pow_zero a
  pow_add {a p q} hp hq := by
    obtain ⟨m, rfl⟩ := hp
    obtain ⟨n, rfl⟩ := hq
    rw [← Nat.cast_add, polynomial_pow_natCast, polynomial_pow_natCast, polynomial_pow_natCast]
    exact ⟨⟨m + n, rfl⟩, pow_add a m n⟩
  pow_pow {a p q} hp hq := by
    obtain ⟨m, rfl⟩ := hp
    obtain ⟨n, rfl⟩ := hq
    rw [← Nat.cast_mul, polynomial_pow_natCast, polynomial_pow_natCast, polynomial_pow_natCast,
      mul_comm]
    exact ⟨⟨m * n, rfl⟩, pow_mul a m n⟩
  zero_pow {p} _ hp hp0 := by
    obtain ⟨n, rfl⟩ := hp
    rw [polynomial_pow_natCast]
    show C 0 ^ n = C 0
    rw [map_zero, zero_pow (Nat.cast_ne_zero.mp hp0)]
  inv_pow {q p} _ _ hneg hp := by
    obtain ⟨n, rfl⟩ := hp
    exact absurd hneg (not_lt.mpr (Nat.cast_nonneg n))
  root_pow {q p v} _ _ hp hv _ := by
    obtain ⟨n, rfl⟩ := hp
    rw [Rat.den_natCast, pow_one] at hv
    rw [polynomial_pow_natCast, Rat.num_natCast, Int.toNat_natCast, hv]
    exact ⟨trivial, map_pow C q n⟩

end Reading

/-! ### Polynomials among the formal sums -/

/-- A polynomial as a formal sum. -/
noncomputable def polynomialHom : MvPolynomial Letter ℚ →+* FormalSum :=
  AddMonoidAlgebra.mapDomainRingHom ℚ (Finsupp.mapRange.addMonoidHom (Nat.castAddMonoidHom ℚ))

theorem polynomialHom_monomial (v : Letter →₀ ℕ) (c : ℚ) :
    polynomialHom (MvPolynomial.monomial v c) =
      AddMonoidAlgebra.single (v.mapRange Nat.cast Nat.cast_zero) c :=
  AddMonoidAlgebra.mapDomain_single

theorem polynomialHom_injective : Function.Injective polynomialHom := by
  refine AddMonoidAlgebra.mapDomain_injective ?_
  exact Finsupp.mapRange_injective _ Nat.cast_zero Nat.cast_injective

theorem polynomialHom_C (q : ℚ) : polynomialHom (C q) = Reading.formal.num q := by
  rw [MvPolynomial.C_apply, polynomialHom_monomial, Finsupp.mapRange_zero]
  rfl

theorem polynomialHom_X_pow (x : Letter) (n : ℕ) :
    polynomialHom (X x ^ n) = Reading.formal.pow (Reading.formal.letter x) n := by
  rw [MvPolynomial.X_pow_eq_monomial, polynomialHom_monomial, Finsupp.mapRange_single]
  show _ = Reading.formal.pow (AddMonoidAlgebra.single _ 1) n
  rw [Reading.formal_pow_single, Finsupp.smul_single, smul_eq_mul, mul_one]

theorem polynomialHom_X (x : Letter) : polynomialHom (X x) = Reading.formal.letter x := by
  rw [MvPolynomial.X, polynomialHom_monomial, Finsupp.mapRange_single, Nat.cast_one]
  rfl

namespace Expr

/-- The polynomial that an expression with natural exponents denotes. -/
noncomputable def polynomial (e : Expr) : MvPolynomial Letter ℚ :=
  e.value Reading.polynomial

theorem polynomialHom_of_isMonomial {e : Expr} (h : e.IsMonomial)
    (hadm : e.Admissible Reading.polynomial) : polynomialHom e.polynomial = e.formalSum := by
  induction h with
  | num q => exact polynomialHom_C q
  | sym x => exact polynomialHom_X x
  | pow x =>
    obtain ⟨n, rfl⟩ := hadm.1
    rw [polynomial, value_pow, Reading.polynomial_pow_natCast]
    exact polynomialHom_X_pow x n
  | prod _ ih =>
    have hfs := admissible_prod_iff.mp hadm
    rw [polynomial, value_prod, map_list_prod, List.map_map, formalSum, value_prod]
    exact congrArg List.prod (List.map_congr_left fun f hf => ih f hf (hfs f hf))

/-- A sum of monomials with natural exponents denotes the formal sum that its polynomial is. -/
theorem polynomialHom_polynomial {e : Expr} (h : e.IsMonomialSum)
    (hadm : e.Admissible Reading.polynomial) : polynomialHom e.polynomial = e.formalSum := by
  induction h with
  | monomial h => exact polynomialHom_of_isMonomial h hadm
  | sum _ ih =>
    have hts := (everywhere_sum.mp hadm).2
    rw [polynomial, value_sum, map_list_sum, List.map_map, formalSum, value_sum]
    exact congrArg List.sum (List.map_congr_left fun t ht => ih t ht (hts t ht))

end Expr

end ExactAlgebra
