import ExactAlgebra.Proofs.Values
import Mathlib.Algebra.Field.Rat
import Mathlib.Algebra.MonoidAlgebra.MapDomain
import Mathlib.Data.Finsupp.SMul
import Mathlib.GroupTheory.GroupAction.Ring

/-!
# Sums of monomials as formal sums

A monomial is made of numbers, letters and powers of letters by multiplication, and sums of monomials
are made of monomials by addition. Such an expression denotes a finite formal sum: a coefficient for
each vector of exponents, which may be any rational numbers. Formal sums are added and multiplied as
polynomials are.

The reading in formal sums (`Reading.formal`) takes powers of nothing but products of letters. It is
not lawful, since a number or a sum has no first power in it, but like terms and like factors may be
put together (`additive_formal`).
-/

namespace ExactAlgebra

open AddMonoidAlgebra (single mapDomain)

/-- Finite formal sums: a coefficient for each vector of exponents of the letters. -/
abbrev FormalSum := AddMonoidAlgebra ℚ (Letter →₀ ℚ)

/-- The reading in formal sums, for powers of products of letters. -/
noncomputable def Reading.formal : Reading FormalSum where
  num q := single 0 q
  letter x := single (Finsupp.single x 1) 1
  pow a p := mapDomain (fun v => p • v) a
  IsNum _ := True
  IsPow a _ := ∃ v, a = single v 1
  IsValue _ := True

namespace Reading

theorem formal_pow_single (v : Letter →₀ ℚ) (c p : ℚ) :
    formal.pow (single v c) p = single (p • v) c :=
  AddMonoidAlgebra.mapDomain_single

theorem additive_formal : formal.Additive where
  num_zero := AddMonoidAlgebra.single_zero 0
  num_one := rfl
  isNum_one := trivial
  num_add {a b} _ _ := ⟨trivial, AddMonoidAlgebra.single_add 0 a b⟩
  num_mul {a b} _ _ := by
    refine ⟨trivial, ?_⟩
    show single 0 (a * b) = single 0 a * single 0 b
    rw [AddMonoidAlgebra.single_mul_single, add_zero]
  pow_zero {a} h := by
    obtain ⟨v, rfl⟩ := h
    rw [formal_pow_single, zero_smul]
    rfl
  pow_add {a p q} h _ := by
    refine ⟨h, ?_⟩
    obtain ⟨v, rfl⟩ := h
    simp only [formal_pow_single]
    rw [AddMonoidAlgebra.single_mul_single, add_smul, one_mul]

end Reading

namespace Expr

/-! ### Monomials -/

/-- A product of numbers, letters and powers of letters, however nested. -/
inductive IsMonomial : Expr → Prop
  | num (q : Rat) : IsMonomial (num q)
  | sym (x : Letter) : IsMonomial (sym x)
  | pow (x : Letter) {p : Rat} (hp : p ≠ 0) : IsMonomial (pow (sym x) p)
  | prod {fs : List Expr} (h : ∀ f ∈ fs, IsMonomial f) : IsMonomial (prod fs)

/-- A sum of monomials, however nested. -/
inductive IsMonomialSum : Expr → Prop
  | monomial {e : Expr} (h : e.IsMonomial) : IsMonomialSum e
  | sum {ts : List Expr} (h : ∀ t ∈ ts, IsMonomialSum t) : IsMonomialSum (sum ts)

theorem isMonomial_prod_iff {fs : List Expr} :
    (prod fs).IsMonomial ↔ ∀ f ∈ fs, f.IsMonomial := by
  constructor
  · rintro ⟨⟩
    assumption
  · exact IsMonomial.prod

theorem isMonomial_factors_iff {u : Expr} : (∀ f ∈ u.factors, f.IsMonomial) ↔ u.IsMonomial := by
  cases u with
  | prod fs => exact isMonomial_prod_iff.symm
  | num | sym | pow | sum => exact List.forall_mem_singleton

theorem isMonomial_ofFactors_iff {fs : List Expr} :
    (ofFactors fs).IsMonomial ↔ ∀ f ∈ fs, f.IsMonomial := by
  rw [ofFactors, isMonomial_prod_iff]
  simp only [mem_sort]

theorem isMonomialSum_sum_iff {ts : List Expr} :
    (sum ts).IsMonomialSum ↔ ∀ t ∈ ts, t.IsMonomialSum := by
  constructor
  · intro h
    cases h with
    | monomial h => cases h
    | sum h => exact h
  · exact IsMonomialSum.sum

theorem isMonomialSum_ofTerms_iff {ts : List Expr} :
    (ofTerms ts).IsMonomialSum ↔ ∀ t ∈ ts, t.IsMonomialSum := by
  rw [ofTerms, isMonomialSum_sum_iff]
  simp only [mem_sort]

theorem IsMonomialSum.isMonomial {e : Expr} (h : e.IsMonomialSum) (hkind : e.kind ≠ .sum) :
    e.IsMonomial := by
  cases h with
  | monomial h => exact h
  | sum => exact absurd rfl hkind

theorem IsMonomial.child {u d : Expr} (h : u.IsMonomial) (hkind : u.kind ≠ .power)
    (hd : d ∈ u.children) : d.IsMonomial := by
  cases h with
  | num | sym => cases hd
  | pow => exact absurd rfl hkind
  | prod h => exact h d hd

theorem IsMonomialSum.child {u d : Expr} (h : u.IsMonomialSum) (hkind : u.kind ≠ .power)
    (hd : d ∈ u.children) : d.IsMonomialSum := by
  cases h with
  | monomial h => exact .monomial (h.child hkind hd)
  | sum h => exact h d hd

/-- A factor that is no number and no product is a letter or a power of one. -/
theorem IsMonomial.cases_factor {u : Expr} (h : u.IsMonomial) (hrat : u.kind ≠ .rational)
    (hprod : u.kind ≠ .product) : ∃ x, u.base = .sym x := by
  cases h with
  | num => exact absurd rfl hrat
  | sym x => exact ⟨x, rfl⟩
  | pow x => exact ⟨x, rfl⟩
  | prod => exact absurd rfl hprod

theorem IsMonomial.kind_ne_sum {u : Expr} (h : u.IsMonomial) : u.kind ≠ .sum := by
  cases h <;> simp [kind]

/-- The formal sum that a sum of monomials denotes. -/
noncomputable def formalSum (e : Expr) : FormalSum :=
  e.value Reading.formal

theorem IsMonomial.admissible {e : Expr} (h : e.IsMonomial) : e.Admissible Reading.formal := by
  induction h with
  | num | sym => trivial
  | pow x => exact ⟨⟨_, rfl⟩, trivial⟩
  | prod _ ih => exact admissible_prod_iff.mpr ih

theorem IsMonomialSum.admissible {e : Expr} (h : e.IsMonomialSum) :
    e.Admissible Reading.formal := by
  induction h with
  | monomial h => exact h.admissible
  | sum _ ih => exact everywhere_sum.mpr ⟨trivial, ih⟩

end Expr

end ExactAlgebra
