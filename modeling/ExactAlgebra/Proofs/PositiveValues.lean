import ExactAlgebra.Proofs.Values
import Mathlib.Algebra.Order.Positive.Field
import Mathlib.Algebra.Ring.WithZero
import Mathlib.Analysis.SpecialFunctions.Pow.Real

/-!
# Values without zero

Expressions in which all numbers are positive are read in a semifield without zero, such as the
positive real numbers, in which every element has every rational power (`RootSemifield`). Exponents
may then be any rational numbers.

A reading is in a semiring, so a zero is added: the value of the sum without terms, and of numbers
that are not positive. No well formed expression of positive numbers comes to it
(`exists_value_positive`). The reading is lawful (`lawful_positive`): of the laws of powers it takes
no more than that exponents are added when powers of one base are multiplied, and multiplied when a
power is raised to a power.
-/

namespace ExactAlgebra

/-- A commutative semifield without zero, with the positive rational numbers in it and a power of
every element for every rational exponent. -/
class RootSemifield (S : Type) extends CommGroup S, AddCommSemigroup S, Distrib S where
  ofRat : ℚ → S
  ofRat_add : ∀ {p q : ℚ}, 0 < p → 0 < q → ofRat (p + q) = ofRat p + ofRat q
  ofRat_mul : ∀ {p q : ℚ}, 0 < p → 0 < q → ofRat (p * q) = ofRat p * ofRat q
  rpow : S → ℚ → S
  rpow_one : ∀ a, rpow a 1 = a
  rpow_add : ∀ a p q, rpow a (p + q) = rpow a p * rpow a q
  rpow_mul : ∀ a p q, rpow a (p * q) = rpow (rpow a p) q

namespace RootSemifield

variable {S : Type} [RootSemifield S]

/-! ### Powers -/

theorem rpow_zero (a : S) : rpow a 0 = 1 := by
  have h := rpow_add a 0 1
  rw [zero_add, rpow_one] at h
  exact mul_eq_right.mp h.symm

theorem rpow_natCast (a : S) (n : ℕ) : rpow a n = a ^ n := by
  induction n with
  | zero => simp [rpow_zero]
  | succ n ih => rw [Nat.cast_succ, rpow_add, ih, rpow_one, pow_succ]

theorem rpow_neg_one (a : S) : rpow a (-1) = a⁻¹ := by
  have h := rpow_add a (-1) 1
  rw [neg_add_cancel, rpow_zero, rpow_one] at h
  exact eq_inv_of_mul_eq_one_left h.symm

/-! ### Numbers -/

theorem ofRat_one : (ofRat 1 : S) = 1 := by
  have h : (ofRat (1 * 1) : S) = ofRat 1 * ofRat 1 := ofRat_mul one_pos one_pos
  rw [mul_one] at h
  exact mul_eq_left.mp h.symm

theorem ofRat_inv {q : ℚ} (hq : 0 < q) : (ofRat q⁻¹ : S) = (ofRat q)⁻¹ := by
  have h : (ofRat (q⁻¹ * q) : S) = ofRat q⁻¹ * ofRat q := ofRat_mul (inv_pos.mpr hq) hq
  rw [inv_mul_cancel₀ hq.ne', ofRat_one] at h
  exact eq_inv_of_mul_eq_one_left h.symm

theorem ofRat_pow {q : ℚ} (hq : 0 < q) (n : ℕ) : (ofRat (q ^ n) : S) = ofRat q ^ n := by
  induction n with
  | zero => rw [pow_zero, pow_zero, ofRat_one]
  | succ n ih => rw [pow_succ, pow_succ, ofRat_mul (pow_pos hq n) hq, ih]

/-! ### With a zero -/

instance : CommSemiring (WithZero S) :=
  { (inferInstance : AddCommMonoid (WithZero S)),
    (inferInstance : CommMonoidWithZero (WithZero S)),
    (inferInstance : Distrib (WithZero S)) with }

/-- A sum is zero only if both its terms are. -/
theorem add_ne_zero {a : WithZero S} (ha : a ≠ 0) (b : WithZero S) : a + b ≠ 0 := by
  obtain ⟨s, rfl⟩ := WithZero.ne_zero_iff_exists.mp ha
  cases b with
  | zero => simp
  | coe t =>
    rw [← WithZero.coe_add]
    exact WithZero.coe_ne_zero

theorem sum_ne_zero {as : List (WithZero S)} (hlen : 0 < as.length) (h : ∀ a ∈ as, a ≠ 0) :
    as.sum ≠ 0 := by
  cases as with
  | nil => exact absurd hlen (lt_irrefl 0)
  | cons a as =>
    rw [List.sum_cons]
    exact add_ne_zero (h a List.mem_cons_self) _

end RootSemifield

open RootSemifield

namespace Reading

variable {S : Type} [RootSemifield S]

/-- The reading of positive numbers in a semifield without zero. -/
def positive (σ : Letter → S) : Reading (WithZero S) where
  num q := if 0 < q then (ofRat q : S) else 0
  letter x := σ x
  pow a p := Option.map (fun s => rpow s p) a
  IsNum q := 0 < q
  IsPow a _ := a ≠ 0
  IsValue a := a ≠ 0

variable {σ : Letter → S}

theorem num_positive {q : ℚ} (hq : 0 < q) : (positive σ).num q = (ofRat q : S) :=
  if_pos hq

theorem pow_positive (s : S) (p : ℚ) : (positive σ).pow s p = (rpow s p : S) := rfl

theorem lawful_positive (σ : Letter → S) : (positive σ).Lawful where
  num_zero := by
    show (if (0 : ℚ) < 0 then ((ofRat 0 : S) : WithZero S) else 0) = 0
    exact if_neg (lt_irrefl 0)
  num_one := by rw [num_positive one_pos, ofRat_one, WithZero.coe_one]
  isNum_one := one_pos
  isNum_zero h := absurd rfl h
  num_add {p q} hp hq := by
    have hp : 0 < p := hp
    have hq : 0 < q := hq
    refine ⟨add_pos hp hq, ?_⟩
    rw [num_positive (add_pos hp hq), num_positive hp, num_positive hq, ofRat_add hp hq,
      WithZero.coe_add]
  num_mul {p q} hp hq := by
    have hp : 0 < p := hp
    have hq : 0 < q := hq
    refine ⟨mul_pos hp hq, ?_⟩
    rw [num_positive (mul_pos hp hq), num_positive hp, num_positive hq, ofRat_mul hp hq,
      WithZero.coe_mul]
  isValue_num {q} hq := by
    rw [num_positive hq]
    exact WithZero.coe_ne_zero
  isValue_letter x := WithZero.coe_ne_zero
  isValue_pow {a p} ha := by
    obtain ⟨s, rfl⟩ := WithZero.ne_zero_iff_exists.mp ha
    exact WithZero.coe_ne_zero
  isValue_mul {a b} ha hb := mul_ne_zero ha hb
  pow_one {a} ha := by
    obtain ⟨s, rfl⟩ := WithZero.ne_zero_iff_exists.mp ha
    exact ⟨ha, by rw [pow_positive, rpow_one]⟩
  pow_zero {a} ha := by
    obtain ⟨s, rfl⟩ := WithZero.ne_zero_iff_exists.mp ha
    rw [pow_positive, rpow_zero, WithZero.coe_one]
  pow_add {a p q} ha _ := by
    obtain ⟨s, rfl⟩ := WithZero.ne_zero_iff_exists.mp ha
    exact ⟨ha, by rw [pow_positive, pow_positive, pow_positive, rpow_add, WithZero.coe_mul]⟩
  pow_pow {a p q} ha _ := by
    obtain ⟨s, rfl⟩ := WithZero.ne_zero_iff_exists.mp ha
    exact ⟨ha, by rw [pow_positive, pow_positive, pow_positive, mul_comm, rpow_mul]⟩
  zero_pow {p} h0 := absurd h0 (lt_irrefl 0)
  inv_pow {q p} hq _ _ _ := by
    have hq : 0 < q := hq
    refine ⟨inv_pos.mpr hq, ?_, ?_⟩
    · rw [num_positive (inv_pos.mpr hq)]
      exact WithZero.coe_ne_zero
    · rw [num_positive (inv_pos.mpr hq), num_positive hq, pow_positive, pow_positive, ofRat_inv hq,
        ← rpow_neg_one, ← rpow_mul, neg_mul_neg, one_mul]
  root_pow {q p v} hq hp _ hv hpos := by
    have hq : 0 < q := hq
    have hv0 : 0 < v := hpos hq
    have hnum : ((p.num.toNat : ℕ) : ℚ) = p.den * p := by
      rw [Rat.den_mul_eq_num, ← Int.cast_natCast, Int.toNat_of_nonneg (Rat.num_nonneg.mpr hp.le)]
    refine ⟨pow_pos hv0 _, ?_⟩
    rw [num_positive (pow_pos hv0 _), num_positive hq, pow_positive, ← hv, ofRat_pow hv0,
      ofRat_pow hv0, ← rpow_natCast, ← rpow_natCast, ← rpow_mul, hnum]

end Reading

namespace Expr

variable {S : Type} [RootSemifield S]

/-- All numbers in the expression are positive, those in exponents aside. -/
def PositiveNumbers (e : Expr) : Prop :=
  e.Everywhere fun d => ∀ q, d = num q → 0 < q

/-- The reading makes sense of well formed expressions of positive numbers, and none of them is
zero. -/
theorem admissible_positive (σ : Letter → S) {e : Expr} (hwf : e.WellFormed)
    (h : e.PositiveNumbers) : e.Admissible (Reading.positive σ) := by
  have hr := Reading.lawful_positive σ
  induction e with
  | num q => exact h q rfl
  | sym x => exact trivial
  | pow b p ih =>
    have hb := ih hwf h.2
    exact ⟨hb.isValue hr, hb⟩
  | prod fs ih =>
    have hfs := (everywhere_prod.mp h).2
    exact admissible_prod_iff.mpr fun f hf => ih f hf (allWellFormed_iff.mp hwf.2.2 f hf) (hfs f hf)
  | sum ts ih =>
    have hts := (everywhere_sum.mp h).2
    have ih := fun t ht => ih t ht (allWellFormed_iff.mp hwf.2.2 t ht) (hts t ht)
    refine everywhere_sum.mpr ⟨?_, ih⟩
    show (sum ts).value (Reading.positive σ) ≠ 0
    rw [value_sum]
    refine sum_ne_zero ?_ (List.forall_mem_map.mpr fun t ht => (ih t ht).isValue hr)
    have hlen := hwf.1
    rw [List.length_map]
    omega

theorem positiveNumbers_of_admissible {σ : Letter → S} {e : Expr}
    (h : e.Admissible (Reading.positive σ)) : e.PositiveNumbers := by
  refine Everywhere.mono ?_ h
  rintro _ hd q rfl
  exact hd

/-- An admissible expression has a value in the semifield. -/
theorem exists_value_positive {σ : Letter → S} {e : Expr}
    (h : e.Admissible (Reading.positive σ)) : ∃ s : S, e.value (Reading.positive σ) = s := by
  obtain ⟨s, hs⟩ := WithZero.ne_zero_iff_exists.mp (h.isValue (Reading.lawful_positive σ))
  exact ⟨s, hs.symm⟩

end Expr

/-! ### Positive real numbers -/

/-- The positive real numbers, with the usual powers. -/
noncomputable instance : RootSemifield {x : ℝ // 0 < x} where
  ofRat q := if h : 0 < q then ⟨q, Rat.cast_pos.mpr h⟩ else 1
  ofRat_add {p q} hp hq := by
    rw [dif_pos (add_pos hp hq), dif_pos hp, dif_pos hq]
    exact Subtype.ext (Rat.cast_add p q)
  ofRat_mul {p q} hp hq := by
    rw [dif_pos (mul_pos hp hq), dif_pos hp, dif_pos hq]
    exact Subtype.ext (Rat.cast_mul p q)
  rpow x p := ⟨(x : ℝ) ^ (p : ℝ), Real.rpow_pos_of_pos x.2 p⟩
  rpow_one x := Subtype.ext (by
    show (x : ℝ) ^ ((1 : ℚ) : ℝ) = x
    rw [Rat.cast_one, Real.rpow_one])
  rpow_add x p q := Subtype.ext (by
    show (x : ℝ) ^ ((p + q : ℚ) : ℝ) = (x : ℝ) ^ (p : ℝ) * (x : ℝ) ^ (q : ℝ)
    rw [Rat.cast_add, Real.rpow_add x.2])
  rpow_mul x p q := Subtype.ext (by
    show (x : ℝ) ^ ((p * q : ℚ) : ℝ) = ((x : ℝ) ^ (p : ℝ)) ^ (q : ℝ)
    rw [Rat.cast_mul, Real.rpow_mul x.2.le])

end ExactAlgebra
