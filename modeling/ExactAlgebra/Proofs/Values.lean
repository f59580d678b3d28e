import ExactAlgebra.Canonical.Parts
import ExactAlgebra.Proofs.Nodes
import Mathlib.Algebra.BigOperators.Group.List.Basic
import Mathlib.Algebra.Order.Field.Rat
import Mathlib.Algebra.Order.Ring.Cast
import Mathlib.Algebra.Order.Ring.Int

/-!
# The value of an expression

An expression is read in a commutative semiring, once it is said what numbers, letters and powers
stand for (`Reading`). A reading need not make sense of every number and every power; an expression
of which it makes sense throughout is admissible.

`Reading.Lawful` collects what the rewriting of expressions uses of a reading, and
`Reading.Additive` that part of it which serves to put like terms and like factors together. The
reading in rational numbers, for powers with integer exponents, is lawful (`lawful_rational`); its
power of exponent zero is one, of every base.
-/

namespace ExactAlgebra

/-- What numbers, letters and powers stand for, and of which of them sense is made. -/
structure Reading (K : Type) where
  num : Rat → K
  letter : Letter → K
  pow : K → Rat → K
  IsNum : Rat → Prop
  IsPow : K → Rat → Prop
  IsValue : K → Prop

namespace Expr

variable {K : Type} [CommSemiring K] (r : Reading K)

/-! ### Values -/

mutual

/-- The value of the expression. -/
def value : Expr → K
  | num q => r.num q
  | sym x => r.letter x
  | pow b p => r.pow b.value p
  | prod fs => valueProd fs
  | sum ts => valueSum ts

/-- The product of the values of some expressions. -/
def valueProd : List Expr → K
  | [] => 1
  | e :: es => e.value * valueProd es

/-- The sum of the values of some expressions. -/
def valueSum : List Expr → K
  | [] => 0
  | e :: es => e.value + valueSum es

end

@[simp] theorem value_num (q : Rat) : (num q).value r = r.num q := rfl

@[simp] theorem value_sym (x : Letter) : (sym x).value r = r.letter x := rfl

@[simp] theorem value_pow (b : Expr) (p : Rat) : (pow b p).value r = r.pow (b.value r) p := rfl

@[simp] theorem value_prod (fs : List Expr) : (prod fs).value r = (fs.map (value r)).prod := by
  show valueProd r fs = _
  induction fs with
  | nil => rfl
  | cons f fs ih => rw [valueProd, ih, List.map_cons, List.prod_cons]

@[simp] theorem value_sum (ts : List Expr) : (sum ts).value r = (ts.map (value r)).sum := by
  show valueSum r ts = _
  induction ts with
  | nil => rfl
  | cons t ts ih => rw [valueSum, ih, List.map_cons, List.sum_cons]

@[simp] theorem value_ofFactors (fs : List Expr) :
    (ofFactors fs).value r = (fs.map (value r)).prod := by
  rw [ofFactors, value_prod]
  exact ((sort_perm fs).map _).prod_eq

@[simp] theorem value_ofTerms (ts : List Expr) : (ofTerms ts).value r = (ts.map (value r)).sum := by
  rw [ofTerms, value_sum]
  exact ((sort_perm ts).map _).sum_eq

/-- The factors of an expression make up its value. -/
theorem prod_value_factors (u : Expr) : (u.factors.map (value r)).prod = u.value r := by
  cases u with
  | prod fs => exact (value_prod r fs).symm
  | num | sym | pow | sum => simp [factors]

/-! ### Admissible expressions -/

/-- The reading makes sense of the node at the root. -/
def AdmissibleNode : Expr → Prop
  | num q => r.IsNum q
  | sym _ => True
  | pow b p => r.IsPow (b.value r) p
  | prod _ => True
  | sum ts => r.IsValue ((sum ts).value r)

/-- The reading makes sense of the expression. -/
def Admissible (e : Expr) : Prop :=
  e.Everywhere (AdmissibleNode r)

end Expr

/-! ### Lawful readings -/

/-- What collecting uses of a reading: numbers are added and multiplied as such, and exponents of one
base add up. -/
structure Reading.Additive {K : Type} [CommSemiring K] (r : Reading K) : Prop where
  num_zero : r.num 0 = 0
  num_one : r.num 1 = 1
  isNum_one : r.IsNum 1
  num_add : ∀ {a b}, r.IsNum a → r.IsNum b → r.IsNum (a + b) ∧ r.num (a + b) = r.num a + r.num b
  num_mul : ∀ {a b}, r.IsNum a → r.IsNum b → r.IsNum (a * b) ∧ r.num (a * b) = r.num a * r.num b
  pow_zero : ∀ {a}, r.IsPow a 0 → r.pow a 0 = 1
  pow_add : ∀ {a p q}, r.IsPow a p → r.IsPow a q →
    r.IsPow a (p + q) ∧ r.pow a (p + q) = r.pow a p * r.pow a q

/-- What the rewriting of expressions uses of a reading. -/
structure Reading.Lawful {K : Type} [CommSemiring K] (r : Reading K) : Prop extends r.Additive where
  isNum_zero : r.IsValue 0 → r.IsNum 0
  isValue_num : ∀ {q}, r.IsNum q → r.IsValue (r.num q)
  isValue_letter : ∀ x, r.IsValue (r.letter x)
  isValue_pow : ∀ {a p}, r.IsPow a p → r.IsValue (r.pow a p)
  isValue_mul : ∀ {a b}, r.IsValue a → r.IsValue b → r.IsValue (a * b)
  pow_one : ∀ {a}, r.IsValue a → r.IsPow a 1 ∧ r.pow a 1 = a
  pow_pow : ∀ {a p q}, r.IsPow a p → r.IsPow (r.pow a p) q →
    r.IsPow a (q * p) ∧ r.pow a (q * p) = r.pow (r.pow a p) q
  zero_pow : ∀ {p}, r.IsNum 0 → r.IsPow (r.num 0) p → p ≠ 0 → r.pow (r.num 0) p = r.num 0
  inv_pow : ∀ {q p}, r.IsNum q → q ≠ 0 → p < 0 → r.IsPow (r.num q) p →
    r.IsNum q⁻¹ ∧ r.IsPow (r.num q⁻¹) (-p) ∧ r.pow (r.num q⁻¹) (-p) = r.pow (r.num q) p
  root_pow : ∀ {q p v}, r.IsNum q → 0 < p → r.IsPow (r.num q) p → v ^ p.den = q →
    (0 < q → 0 < v) → r.IsNum (v ^ p.num.toNat) ∧ r.num (v ^ p.num.toNat) = r.pow (r.num q) p

namespace Expr

variable {K : Type} [CommSemiring K] {r : Reading K}

theorem Admissible.child {e d : Expr} (he : e.Admissible r) (hne : e.kind ≠ .power)
    (hd : d ∈ e.children) : d.Admissible r := by
  cases e with
  | num | sym => cases hd
  | pow => exact absurd rfl hne
  | prod fs => exact (everywhere_prod.mp he).2 d hd
  | sum ts => exact (everywhere_sum.mp he).2 d hd

theorem admissible_prod_iff {fs : List Expr} :
    (prod fs).Admissible r ↔ ∀ f ∈ fs, f.Admissible r := by
  rw [Admissible, everywhere_prod]
  exact ⟨fun h => h.2, fun h => ⟨trivial, h⟩⟩

theorem admissible_factors_iff {u : Expr} : (∀ f ∈ u.factors, f.Admissible r) ↔ u.Admissible r := by
  cases u with
  | prod fs => exact admissible_prod_iff.symm
  | num | sym | pow | sum => exact List.forall_mem_singleton

theorem admissible_ofFactors_iff {fs : List Expr} :
    (ofFactors fs).Admissible r ↔ ∀ f ∈ fs, f.Admissible r := by
  rw [ofFactors, admissible_prod_iff]
  exact forall_congr' fun f => by rw [mem_sort]

theorem admissible_ofTerms_iff {ts : List Expr} :
    (ofTerms ts).Admissible r ↔
      r.IsValue ((ofTerms ts).value r) ∧ ∀ t ∈ ts, t.Admissible r := by
  rw [ofTerms, Admissible, everywhere_sum]
  exact and_congr Iff.rfl (forall_congr' fun t => by rw [mem_sort]; rfl)

/-- The value of an admissible expression is one of the reading. -/
theorem Admissible.isValue (hr : r.Lawful) {e : Expr} (he : e.Admissible r) :
    r.IsValue (e.value r) := by
  induction e with
  | num q => exact hr.isValue_num he
  | sym x => exact hr.isValue_letter x
  | pow b p => exact hr.isValue_pow he.1
  | prod fs ih =>
    rw [admissible_prod_iff] at he
    rw [value_prod]
    refine List.prod_induction r.IsValue (fun _ _ => hr.isValue_mul) ?_ ?_
    · rw [← hr.num_one]
      exact hr.isValue_num hr.isNum_one
    · exact List.forall_mem_map.mpr fun f hf => ih f hf (he f hf)
  | sum ts => exact he.1

end Expr

/-! ### Values in rational numbers -/

/-- The reading in rational numbers, for powers with integer exponents; a negative one is for bases
other than zero. -/
def Reading.rational (σ : Letter → ℚ) : Reading ℚ where
  num q := q
  letter := σ
  pow a p := a ^ p.num
  IsNum _ := True
  IsPow a p := p.den = 1 ∧ (p < 0 → a ≠ 0)
  IsValue _ := True

namespace Reading

variable {σ : Letter → ℚ}

theorem exists_int_of_isPow {a p : ℚ} (h : (rational σ).IsPow a p) :
    ∃ m : ℤ, p = m ∧ (m < 0 → a ≠ 0) := by
  have hp : ((p.num : ℤ) : ℚ) = p := (Rat.den_eq_one_iff p).mp h.1
  exact ⟨p.num, hp.symm, fun hneg => h.2 (Rat.num_neg.mp hneg)⟩

theorem isPow_intCast {a : ℚ} {m : ℤ} (h : m < 0 → a ≠ 0) : (rational σ).IsPow a m :=
  ⟨Rat.den_intCast m, fun hneg => h (Int.cast_lt_zero.mp hneg)⟩

theorem pow_intCast (a : ℚ) (m : ℤ) : (rational σ).pow a m = a ^ m := by
  show a ^ (m : ℚ).num = a ^ m
  rw [Rat.num_intCast]

theorem lawful_rational (σ : Letter → ℚ) : (rational σ).Lawful where
  num_zero := rfl
  num_one := rfl
  isNum_one := trivial
  isNum_zero _ := trivial
  num_add _ _ := ⟨trivial, rfl⟩
  num_mul _ _ := ⟨trivial, rfl⟩
  isValue_num _ := trivial
  isValue_letter _ := trivial
  isValue_pow _ := trivial
  isValue_mul _ _ := trivial
  pow_one {a} _ := ⟨⟨rfl, fun h => absurd h (by decide)⟩, zpow_one a⟩
  pow_zero {a} _ := zpow_zero a
  pow_add {a p q} hp hq := by
    obtain ⟨m, rfl, hm⟩ := exists_int_of_isPow hp
    obtain ⟨k, rfl, hk⟩ := exists_int_of_isPow hq
    rw [← Int.cast_add, pow_intCast, pow_intCast, pow_intCast]
    constructor
    · refine isPow_intCast fun hneg => ?_
      by_cases h : m < 0
      · exact hm h
      · exact hk (by omega)
    · by_cases ha : a = 0
      · -- neither exponent is negative
        have hm : ¬ m < 0 := fun h => hm h ha
        have hk : ¬ k < 0 := fun h => hk h ha
        exact zpow_add' (by omega)
      · exact zpow_add₀ ha m k
  pow_pow {a p q} hp hq := by
    obtain ⟨m, rfl, hm⟩ := exists_int_of_isPow hp
    rw [pow_intCast] at hq ⊢
    obtain ⟨k, rfl, hk⟩ := exists_int_of_isPow hq
    rw [← Int.cast_mul, pow_intCast, pow_intCast, mul_comm, zpow_mul]
    refine ⟨isPow_intCast fun hneg ha => ?_, rfl⟩
    rcases mul_neg_iff.mp hneg with ⟨hpos, hk0⟩ | ⟨hm0, -⟩
    · exact hk hk0 (by rw [ha, zero_zpow m hpos.ne'])
    · exact hm hm0 ha
  zero_pow {p} _ hp hp0 := by
    obtain ⟨m, rfl, -⟩ := exists_int_of_isPow hp
    rw [pow_intCast]
    exact zero_zpow m fun h => hp0 (by rw [h, Int.cast_zero])
  inv_pow {q p} _ hq _ h := by
    obtain ⟨m, rfl, -⟩ := exists_int_of_isPow h
    rw [← Int.cast_neg, pow_intCast, pow_intCast]
    exact ⟨trivial, isPow_intCast fun _ => inv_ne_zero hq, by
      show q⁻¹ ^ (-m) = q ^ m
      rw [inv_zpow, zpow_neg, inv_inv]⟩
  root_pow {q p v} _ hp h hv _ := by
    obtain ⟨m, rfl, -⟩ := exists_int_of_isPow h
    rw [Rat.den_intCast, pow_one] at hv
    rw [pow_intCast, Rat.num_intCast, hv]
    have hm : ((m.toNat : ℕ) : ℤ) = m := Int.toNat_of_nonneg (Int.cast_pos.mp hp).le
    refine ⟨trivial, ?_⟩
    show q ^ m.toNat = q ^ m
    rw [← zpow_natCast, hm]

end Reading

namespace Expr

/-- All exponents of the expression are integers. -/
def IntegerExponents (e : Expr) : Prop :=
  e.Everywhere fun d => ∀ b p, d = pow b p → p.den = 1

/-- No power of negative exponent in the expression has a base of the value zero. -/
def DefinedAt (σ : Letter → ℚ) (e : Expr) : Prop :=
  e.Everywhere fun d => ∀ b p, d = pow b p → p < 0 → b.value (Reading.rational σ) ≠ 0

theorem admissible_rational_iff {σ : Letter → ℚ} {e : Expr} :
    e.Admissible (Reading.rational σ) ↔ e.IntegerExponents ∧ e.DefinedAt σ := by
  rw [IntegerExponents, DefinedAt, ← everywhere_and]
  refine ⟨Everywhere.mono fun d hd => ?_, Everywhere.mono fun d hd => ?_⟩
  · constructor
    · rintro b p rfl
      exact hd.1
    · rintro b p rfl
      exact hd.2
  · cases d with
    | pow b p => exact ⟨hd.1 b p rfl, hd.2 b p rfl⟩
    | num | sym | prod | sum => trivial

end Expr

end ExactAlgebra
