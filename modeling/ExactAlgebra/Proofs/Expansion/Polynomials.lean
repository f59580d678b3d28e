import ExactAlgebra.Number.Estimate
import ExactAlgebra.Proofs.Canonical.Uniqueness
import ExactAlgebra.Proofs.Expansion.Value
import ExactAlgebra.Proofs.Polynomials
import Mathlib.Data.Nat.Choose.Sum

/-!
# Expansion and canonical form decide equality of polynomials

Of an expression that is built by products, natural powers and outer sums from monomials and sums of
monomials, the expansion is a sum of monomials (`isMonomialSum_expand`). So its canonical form is
unique, and two such expressions come down to the same exactly if they denote the same polynomial
(`simplify_expand_eq_iff`).

What carries this is that a step of multiplying out makes a flat sum of monomials of two of them
(`isFlat_distribute`), also when a power multiplies out its expanded base once more.

The powers of a binomial are an instance: what they come down to is written down as `binomialSum`.
-/

namespace ExactAlgebra

theorem Reading.stepwise_polynomial : Reading.polynomial.Stepwise where
  isPow_residue {a p} hp h := by
    obtain ⟨n, rfl⟩ := h
    exact ⟨1, by rw [Expr.residue_natCast (Nat.cast_ne_zero.mp hp), Nat.cast_one]⟩

namespace Expr

open MvPolynomial (C X)

/-! ### Factored expressions -/

/-- Built from numbers and letters by products and natural powers. -/
inductive IsPowerProduct : Expr → Prop
  | num (q : Rat) : IsPowerProduct (num q)
  | sym (x : Letter) : IsPowerProduct (sym x)
  | pow {b : Expr} (n : ℕ) (h : IsPowerProduct b) : IsPowerProduct (pow b n)
  | prod {fs : List Expr} (h : ∀ f ∈ fs, IsPowerProduct f) : IsPowerProduct (prod fs)

/-- Built by products and natural powers from monomials and from sums of monomials. -/
inductive IsFactored : Expr → Prop
  | monomial {e : Expr} (h : e.IsPowerProduct) : IsFactored e
  | sum {ts : List Expr} (h : ∀ t ∈ ts, t.IsPowerProduct) : IsFactored (sum ts)
  | pow {b : Expr} (n : ℕ) (h : IsFactored b) : IsFactored (pow b n)
  | prod {fs : List Expr} (h : ∀ f ∈ fs, IsFactored f) : IsFactored (prod fs)

/-- A sum of factored expressions, however nested. -/
inductive IsFactoredSum : Expr → Prop
  | factored {e : Expr} (h : e.IsFactored) : IsFactoredSum e
  | sum {ts : List Expr} (h : ∀ t ∈ ts, IsFactoredSum t) : IsFactoredSum (sum ts)

theorem IsPowerProduct.admissible {e : Expr} (h : e.IsPowerProduct) :
    e.Admissible Reading.polynomial := by
  induction h with
  | num | sym => trivial
  | pow n _ ih => exact ⟨⟨n, rfl⟩, ih⟩
  | prod _ ih => exact admissible_prod_iff.mpr ih

theorem IsFactored.admissible {e : Expr} (h : e.IsFactored) : e.Admissible Reading.polynomial := by
  induction h with
  | monomial h => exact h.admissible
  | sum h => exact everywhere_sum.mpr ⟨trivial, fun t ht => (h t ht).admissible⟩
  | pow n _ ih => exact ⟨⟨n, rfl⟩, ih⟩
  | prod _ ih => exact admissible_prod_iff.mpr ih

theorem IsFactoredSum.admissible {e : Expr} (h : e.IsFactoredSum) :
    e.Admissible Reading.polynomial := by
  induction h with
  | factored h => exact h.admissible
  | sum _ ih => exact everywhere_sum.mpr ⟨trivial, ih⟩

/-! ### Monomials multiplied out -/

theorem isMonomial_times {a b : Expr} (ha : a.IsMonomial) (hb : b.IsMonomial) :
    (times a b).IsMonomial := by
  rw [times, isMonomial_ofFactors_iff]
  simp [ha, hb]

theorem isMonomial_distribute {a b : Expr} (first : Bool) (ha : a.IsMonomial) (hb : b.IsMonomial) :
    (distribute a b first).IsMonomial := by
  rw [distribute_of_plain first ha.kind_ne_sum hb.kind_ne_sum, isMonomial_ofFactors_iff]
  exact forall_mem_joined first ha (isMonomial_factors_iff.mpr ha) hb

theorem isMonomial_multiplyOut {us : List Expr} (h : ∀ u ∈ us, u.IsMonomial) :
    (multiplyOut us).IsMonomial :=
  multiplyOut_keeps (.num 1) (fun first => isMonomial_distribute first) h

theorem isMonomial_multipliedOut {e : Expr} (h : e.IsMonomial) : e.multipliedOut.IsMonomial := by
  induction h with
  | num q => exact .num q
  | sym x => exact .sym x
  | pow x hp => exact .pow x hp
  | prod _ ih =>
    rw [multipliedOut_prod]
    exact isMonomial_multiplyOut (List.forall_mem_map.mpr ih)

/-! ### Flat sums multiplied out -/

/-- A monomial, or a sum all of whose terms are monomials. -/
def IsFlat (e : Expr) : Prop :=
  ∀ t ∈ e.summands, t.IsMonomial

theorem IsMonomial.isFlat {e : Expr} (h : e.IsMonomial) : e.IsFlat := by
  rw [IsFlat, summands_of_ne h.kind_ne_sum]
  exact List.forall_mem_singleton.mpr h

theorem IsFlat.isMonomial {e : Expr} (h : e.IsFlat) (hkind : e.kind ≠ .sum) : e.IsMonomial := by
  rw [IsFlat, summands_of_ne hkind] at h
  exact List.forall_mem_singleton.mp h

theorem isFlat_ofTerms {ts : List Expr} (h : ∀ t ∈ ts, t.IsMonomial) : (ofTerms ts).IsFlat := by
  intro t ht
  exact h t (mem_sort.mp ht)

theorem IsFlat.isMonomialSum {e : Expr} (h : e.IsFlat) : e.IsMonomialSum := by
  cases e with
  | sum ts => exact .sum fun t ht => .monomial (h t ht)
  | num | sym | pow | prod => exact .monomial (h.isMonomial (by simp [kind]))

/-- A step makes a flat sum of monomials of two of them. -/
theorem isFlat_distribute {a b : Expr} (first : Bool) (ha : a.IsFlat) (hb : b.IsFlat) :
    (distribute a b first).IsFlat := by
  by_cases h : a.kind = .sum ∨ b.kind = .sum
  · rw [distribute_of_sum first h]
    apply isFlat_ofTerms
    intro c hc
    obtain ⟨x, hx, y, hy, rfl⟩ := mem_crossTerms.mp hc
    exact isMonomial_times (ha x hx) (hb y hy)
  · rw [not_or] at h
    exact (isMonomial_distribute first (ha.isMonomial h.1) (hb.isMonomial h.2)).isFlat

theorem isFlat_multiplyOut {us : List Expr} (h : ∀ u ∈ us, u.IsFlat) : (multiplyOut us).IsFlat :=
  multiplyOut_keeps (IsMonomial.num 1).isFlat (fun first => isFlat_distribute first) h

theorem isFlat_multipliedOut {e : Expr} (h : e.IsFlat) : e.multipliedOut.IsFlat := by
  by_cases hsum : e.kind = .sum
  · cases e with
    | sum ts =>
      rw [multipliedOut_sum]
      apply isFlat_ofTerms
      exact List.forall_mem_map.mpr fun t ht => isMonomial_multipliedOut (h t ht)
    | num | sym | pow | prod => cases hsum
  · exact (isMonomial_multipliedOut (h.isMonomial hsum)).isFlat

/-! ### Expansions -/

/-- What multiplying out keeps, a natural power keeps. -/
theorem expandPower_keeps {I : Expr → Prop} (hone : I (num 1))
    (hmultiply : ∀ {us : List Expr}, (∀ u ∈ us, I u) → I (multiplyOut us)) {b : Expr} (hb : I b)
    (hb' : I b.multipliedOut) (n : ℕ) : I (expandPower b n) := by
  rw [expandPower_natCast]
  split_ifs
  · exact hb
  · exact hone
  · apply hmultiply
    intro u hu
    rw [List.eq_of_mem_replicate hu]
    exact hb'

theorem isMonomial_expand {e : Expr} (h : e.IsPowerProduct) : e.expand.IsMonomial := by
  induction h with
  | num q => exact .num q
  | sym x => exact .sym x
  | pow n _ ih =>
    rw [expand_pow]
    exact expandPower_keeps (.num 1) isMonomial_multiplyOut ih (isMonomial_multipliedOut ih) n
  | prod _ ih =>
    rw [expand_prod]
    exact isMonomial_multiplyOut (List.forall_mem_map.mpr ih)

theorem isFlat_expand {e : Expr} (h : e.IsFactored) : e.expand.IsFlat := by
  induction h with
  | monomial h => exact (isMonomial_expand h).isFlat
  | sum h =>
    rw [expand_sum]
    exact isFlat_ofTerms (List.forall_mem_map.mpr fun t ht => isMonomial_expand (h t ht))
  | pow n _ ih =>
    rw [expand_pow]
    exact expandPower_keeps (IsMonomial.num 1).isFlat isFlat_multiplyOut ih
      (isFlat_multipliedOut ih) n
  | prod _ ih =>
    rw [expand_prod]
    exact isFlat_multiplyOut (List.forall_mem_map.mpr ih)

/-- The expansion of a sum of factored expressions is a sum of monomials. -/
theorem isMonomialSum_expand {e : Expr} (h : e.IsFactoredSum) : e.expand.IsMonomialSum := by
  induction h with
  | factored h => exact (isFlat_expand h).isMonomialSum
  | sum _ ih =>
    rw [expand_sum]
    exact isMonomialSum_ofTerms_iff.mpr (List.forall_mem_map.mpr ih)

variable {guess : RootGuess}

open Canonical

/-- An expansion has a canonical form, which denotes the polynomial of the expression. -/
theorem exists_simplify_expand (guess : RootGuess) {e : Expr} (h : e.IsFactoredSum) :
    ∃ n, e.expand.simplify guess = .ok n ∧ Reduced guess n ∧ n.IsMonomialSum ∧
      n.formalSum = polynomialHom e.polynomial := by
  have hexpand := isMonomialSum_expand h
  obtain ⟨hadm, hvalue⟩ := value_expand_of_lawful Reading.lawful_polynomial
    Reading.stepwise_polynomial h.admissible
  obtain ⟨n, hn, hreduced, hsum, hformal⟩ := exists_simplify_of_isMonomialSum guess hexpand
  refine ⟨n, hn, hreduced, hsum, ?_⟩
  rw [hformal, ← polynomialHom_polynomial hexpand hadm]
  exact congrArg polynomialHom hvalue

theorem simplify_expand_eq_iff_polynomial_eq (guess : RootGuess) {d e : Expr} (hd : d.IsFactoredSum)
    (he : e.IsFactoredSum) :
    ∃ m n, d.expand.simplify guess = .ok m ∧ e.expand.simplify guess = .ok n ∧
      (m = n ↔ d.polynomial = e.polynomial) := by
  obtain ⟨m, hm, hmreduced, hmsum, hmvalue⟩ := exists_simplify_expand guess hd
  obtain ⟨n, hn, hnreduced, hnsum, hnvalue⟩ := exists_simplify_expand guess he
  refine ⟨m, n, hm, hn, ?_⟩
  rw [← polynomialHom_injective.eq_iff, ← hmvalue, ← hnvalue]
  constructor
  · rintro rfl
    rfl
  · exact eq_of_formalSum_eq hmreduced hmsum hnreduced hnsum

/-! ### Powers of a binomial -/

/-- A letter raised to an exponent that is not zero, in canonical form. -/
def letterTo (x : Letter) (k : ℕ) : Expr :=
  if k = 1 then sym x else pow (sym x) k

/-- A binomial coefficient times the power of a letter, in canonical form. -/
def binomialTerm (x : Letter) (n k : ℕ) : Expr :=
  if k = 0 then num 1 else withCoefficient (n.choose k) (letterTo x k)

/-- The sum of the binomial coefficients of `n` times the powers of a letter. -/
def binomialSum (x : Letter) (n : ℕ) : Expr :=
  ofTerms ((List.range (n + 1)).map (binomialTerm x n))

theorem isStem_letterTo (x : Letter) {k : ℕ} (hk : k ≠ 0) : IsStem guess (letterTo x k) := by
  rw [letterTo]
  split_ifs with h1
  · exact ⟨reduced_sym x, by simp [kind], List.forall_mem_singleton.mpr (by simp [kind])⟩
  · have hreduced : Reduced guess (pow (sym x) k) := by
      refine reduced_pow (reduced_sym x) ⟨by simp [kind], Nat.cast_ne_zero.mpr hk, nofun⟩ nofun ?_
      intro h
      exact absurd (Nat.cast_eq_one.mp h) h1
    exact ⟨hreduced, by simp [kind], List.forall_mem_singleton.mpr (by simp [kind])⟩

theorem isMonomial_binomialTerm (x : Letter) (n k : ℕ) : (binomialTerm x n k).IsMonomial := by
  rw [binomialTerm, letterTo]
  split_ifs with hk
  · exact .num 1
  · exact (IsMonomial.sym x).withCoefficient _
  · exact (IsMonomial.pow x (Nat.cast_ne_zero.mpr hk)).withCoefficient _

theorem isTerm_binomialTerm (x : Letter) {n k : ℕ} (h : k ≤ n) :
    IsTerm guess (binomialTerm x n k) := by
  have hmonomial := isMonomial_binomialTerm x n k
  rw [binomialTerm] at hmonomial ⊢
  split_ifs at hmonomial ⊢ with hk
  · exact ⟨reduced_num 1, hmonomial, by simp⟩
  · have hstem : IsStem guess (letterTo x k) := isStem_letterTo x hk
    have hchoose : (n.choose k : ℚ) ≠ 0 := Nat.cast_ne_zero.mpr (Nat.choose_pos h).ne'
    refine ⟨hstem.reduced_withCoefficient hchoose, hmonomial, ?_⟩
    intro hzero
    exact hstem.kind_withCoefficient_ne_rational (n.choose k) (by rw [hzero]; rfl)

theorem polynomial_letterTo (x : Letter) (k : ℕ) :
    (letterTo x k).Admissible Reading.polynomial ∧ (letterTo x k).polynomial = X x ^ k := by
  rw [letterTo]
  split_ifs with h1
  · rw [h1, pow_one]
    exact ⟨trivial, rfl⟩
  · exact ⟨⟨⟨k, rfl⟩, trivial⟩, Reading.polynomial_pow_natCast (X x) k⟩

theorem polynomial_binomialTerm (x : Letter) (n k : ℕ) :
    (binomialTerm x n k).Admissible Reading.polynomial ∧
      (binomialTerm x n k).polynomial = C (n.choose k : ℚ) * X x ^ k := by
  rw [binomialTerm]
  split_ifs with hk
  · refine ⟨trivial, ?_⟩
    rw [hk, Nat.choose_zero_right, Nat.cast_one, pow_zero, mul_one]
    rfl
  · obtain ⟨hadm, hvalue⟩ := polynomial_letterTo x k
    constructor
    · by_cases hc : (n.choose k : ℚ) = 1
      · rw [withCoefficient, if_pos hc]
        exact hadm
      · exact (admissible_withCoefficient_iff hc).mpr ⟨trivial, hadm⟩
    · rw [← hvalue]
      exact value_withCoefficient Reading.lawful_polynomial.toAdditive _ _

theorem formalSum_binomialTerm (x : Letter) (n k : ℕ) :
    (binomialTerm x n k).formalSum = polynomialHom (C (n.choose k : ℚ) * X x ^ k) := by
  obtain ⟨hadm, hvalue⟩ := polynomial_binomialTerm x n k
  rw [← hvalue, polynomialHom_of_isMonomial (isMonomial_binomialTerm x n k) hadm]

theorem degrees_binomialTerm {x : Letter} {n k : ℕ} (hterm : IsTerm guess (binomialTerm x n k)) :
    (binomialTerm x n k).degrees = Finsupp.single x (k : ℚ) := by
  apply hterm.degrees_eq
  rw [formalSum_binomialTerm, MvPolynomial.C_mul_X_pow_eq_monomial, polynomialHom_monomial,
    Finsupp.mapRange_single]

theorem sum_formalSum_binomialTerm (x : Letter) (n : ℕ) :
    (((List.range (n + 1)).map (binomialTerm x n)).map formalSum).sum =
      polynomialHom ((X x + 1) ^ n) := by
  calc (((List.range (n + 1)).map (binomialTerm x n)).map formalSum).sum
      = ((List.range (n + 1)).map fun k => polynomialHom (C (n.choose k : ℚ) * X x ^ k)).sum := by
        rw [List.map_map]
        exact congrArg List.sum (List.map_congr_left fun k _ => formalSum_binomialTerm x n k)
    _ = ∑ k ∈ Finset.range (n + 1), polynomialHom (C (n.choose k : ℚ) * X x ^ k) := rfl
    _ = polynomialHom ((X x + 1) ^ n) := by
        rw [add_pow, map_sum]
        refine Finset.sum_congr rfl fun k _ => ?_
        rw [one_pow, mul_one, mul_comm, map_natCast]

/-- A power of a letter and one comes down to the sum of its binomial coefficients times the powers
of the letter. -/
theorem simplify_expand_binomial (guess : RootGuess) (x : Letter) {n : ℕ} (hn : 1 ≤ n) :
    (pow (ofTerms [sym x, num 1]) n).expand.simplify guess = .ok (binomialSum x n) := by
  have hbinomial : (pow (ofTerms [sym x, num 1]) n).IsFactoredSum := by
    refine .factored (.pow n (.sum fun t ht => ?_))
    rcases List.mem_pair.mp (mem_sort.mp ht) with rfl | rfl
    · exact .sym x
    · exact .num 1
  have hpolynomial : (pow (ofTerms [sym x, num 1]) n).polynomial = (X x + 1) ^ n := by
    rw [polynomial, value_pow, Reading.polynomial_pow_natCast, value_ofTerms]
    show (X x + (C 1 + 0)) ^ n = _
    rw [map_one, add_zero]
  obtain ⟨m, hm, hreduced, hsum, hvalue⟩ := exists_simplify_expand guess hbinomial
  have hterm : ∀ k ∈ List.range (n + 1), IsTerm guess (binomialTerm x n k) := fun k hk =>
    isTerm_binomialTerm x (Nat.lt_succ_iff.mp (List.mem_range.mp hk))
  have htotal : total ((List.range (n + 1)).map (binomialTerm x n)) = .ok m := by
    refine total_eq_of_formalSum (List.forall_mem_map.mpr hterm) ?_ hreduced hsum ?_
    · rw [List.map_map]
      refine List.Nodup.map_on ?_ List.nodup_range
      intro k hk l hl h
      rw [Function.comp_apply, Function.comp_apply, degrees_binomialTerm (hterm k hk),
        degrees_binomialTerm (hterm l hl)] at h
      exact Nat.cast_injective (Finsupp.single_injective x h)
    · rw [hvalue, hpolynomial, sum_formalSum_binomialTerm]
  rw [total_of_two_le (by simpa using hn)] at htotal
  rw [hm, ← Except.ok.inj htotal, binomialSum]

/-- Canonical forms of expansions decide whether two sums of factored expressions denote the same
polynomial. For a power of a letter and one it is the binomial sum. -/
theorem simplify_expand_eq_iff (guess : RootGuess) :
    (∀ d e : Expr, d.IsFactoredSum → e.IsFactoredSum →
      ∃ m n, d.expand.simplify guess = .ok m ∧ e.expand.simplify guess = .ok n ∧
        (m = n ↔ d.polynomial = e.polynomial)) ∧
    ∀ (x : Letter) (n : ℕ), 1 ≤ n →
      (pow (ofTerms [sym x, num 1]) n).expand.simplify guess = .ok (binomialSum x n) :=
  ⟨fun _ _ hd he => simplify_expand_eq_iff_polynomial_eq guess hd he,
    fun x _ hn => simplify_expand_binomial guess x hn⟩

/-- The product of a letter and one with the letter and minus one. -/
def conjugateFactors : Expr :=
  prod [sum [num (-1), sym ⟨'h', by decide⟩], sum [num 1, sym ⟨'h', by decide⟩]]

/-- The square of a letter less one. -/
def squareLessOne : Expr :=
  sum [num (-1), pow (sym ⟨'h', by decide⟩) (2 : ℕ)]

theorem simplify_expand_eq_iff_conjugateFactors :
    conjugateFactors.IsFactoredSum ∧ squareLessOne.IsFactoredSum ∧
      conjugateFactors.expand.simplify Estimate.root = squareLessOne.expand.simplify Estimate.root ∧
      conjugateFactors.polynomial = squareLessOne.polynomial ∧
      (pow (ofTerms [sym ⟨'h', by decide⟩, num 1]) (3 : ℕ)).expand.simplify Estimate.root =
        .ok (binomialSum ⟨'h', by decide⟩ 3) := by
  have hfactors : conjugateFactors.IsFactoredSum := by
    refine .factored (.prod (List.forall_mem_cons.mpr ⟨.sum ?_,
      List.forall_mem_singleton.mpr (.sum ?_)⟩))
    · simp [IsPowerProduct.num, IsPowerProduct.sym]
    · simp [IsPowerProduct.num, IsPowerProduct.sym]
  have hsquare : squareLessOne.IsFactoredSum := by
    refine .factored (.sum (List.forall_mem_cons.mpr ⟨.num (-1), ?_⟩))
    exact List.forall_mem_singleton.mpr (.pow 2 (.sym _))
  have h : conjugateFactors.expand.simplify Estimate.root =
      squareLessOne.expand.simplify Estimate.root := by decide +kernel
  obtain ⟨hdecides, hbinomial⟩ := simplify_expand_eq_iff Estimate.root
  obtain ⟨m, n, hm, hn, hiff⟩ := hdecides conjugateFactors squareLessOne hfactors hsquare
  refine ⟨hfactors, hsquare, h, hiff.mp ?_, hbinomial _ 3 (by decide)⟩
  rw [hm, hn] at h
  exact Except.ok.inj h

end Expr

end ExactAlgebra
