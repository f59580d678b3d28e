import ExactAlgebra.Proofs.Expansion.Distribution
import ExactAlgebra.Proofs.PositiveValues

/-!
# Expansions keep values

In a lawful reading an expansion has the value of the expression, if a power may be taken in the two
steps in which an expansion writes it: first its numerator, as a product, and then what is left of
the exponent (`Reading.Stepwise`). An admissible expression has an admissible expansion
(`value_expand_of_lawful`).

A step of multiplying out is worth the product of its two expressions (`value_distribute`), since a
product of sums is the sum of the products of their terms. The run is then worth the product of its
factors.

Both the reading in rational numbers, for integer exponents, and the readings in semifields without
zero, for positive numbers and any exponents, are stepwise (`value_expand`).
-/

namespace ExactAlgebra

/-! ### Powers in two steps -/

namespace Expr

/-- The sign of the numerator of an exponent. -/
def residueSign (p : Rat) : ℤ :=
  if 0 < p.num then 1 else -1

theorem num_residue (p : Rat) : (residue p).num = residueSign p := by
  rw [residue_eq]
  rfl

theorem den_residue (p : Rat) : (residue p).den = p.den := by
  rw [residue_eq]

/-- An exponent is what is left of it times the magnitude of its numerator. -/
theorem residue_mul_natAbs (p : Rat) : residue p * p.num.natAbs = p := by
  have hsign : residueSign p * (p.num.natAbs : ℤ) = p.num := by
    rw [residueSign]
    split_ifs <;> omega
  calc residue p * p.num.natAbs
      = (residueSign p * (p.num.natAbs : ℤ) : ℤ) / p.den := by
        rw [← Rat.num_div_den (residue p), num_residue, den_residue, Int.cast_mul, Int.cast_natCast,
          div_mul_eq_mul_div]
    _ = p := by rw [hsign, Rat.num_div_den]

theorem residue_neg_iff {p : Rat} (hp : p ≠ 0) : residue p < 0 ↔ p < 0 := by
  rw [← Rat.num_neg, num_residue, ← Rat.num_neg, residueSign]
  have := Rat.num_ne_zero.mpr hp
  split_ifs <;> omega

end Expr

open ExactAlgebra.Expr

/-- Where a power is made sense of, its numerator may be taken first and the rest after it. -/
structure Reading.Stepwise {K : Type} [CommSemiring K] (r : Reading K) : Prop where
  isPow_residue : ∀ {a : K} {p : Rat}, p ≠ 0 → r.IsPow a p →
    r.IsPow (a ^ p.num.natAbs) (residue p)

namespace Reading

variable {K : Type} [CommSemiring K] {r : Reading K}

/-- A power with a natural exponent is a product of equal factors. -/
theorem Lawful.pow_natSucc (hr : r.Lawful) {a : K} (ha : r.IsValue a) (n : ℕ) :
    r.IsPow a (n + 1 : ℕ) ∧ r.pow a (n + 1 : ℕ) = a ^ (n + 1) := by
  obtain ⟨hpow1, hone⟩ := hr.pow_one ha
  induction n with
  | zero => simpa using ⟨hpow1, hone⟩
  | succ n ih =>
    obtain ⟨hpow, hvalue⟩ := hr.pow_add ih.1 hpow1
    rw [Nat.cast_succ (n + 1)]
    exact ⟨hpow, by rw [hvalue, ih.2, hone, ← pow_succ]⟩

/-- A power is its numerator's power, raised to what is left of the exponent. -/
theorem Lawful.pow_residue (hr : r.Lawful) (hs : r.Stepwise) {a : K} {p : Rat} (hp : p ≠ 0)
    (ha : r.IsValue a) (h : r.IsPow a p) :
    r.IsPow (a ^ p.num.natAbs) (residue p) ∧
      r.pow (a ^ p.num.natAbs) (residue p) = r.pow a p := by
  have hstep := hs.isPow_residue hp h
  obtain ⟨n, hn⟩ := Nat.exists_eq_succ_of_ne_zero
    (mt Int.natAbs_eq_zero.mp (Rat.num_ne_zero.mpr hp))
  obtain ⟨hpow, hvalue⟩ := hr.pow_natSucc ha n
  refine ⟨hstep, ?_⟩
  rw [← Nat.succ_eq_add_one, ← hn] at hpow hvalue
  rw [← hvalue] at hstep ⊢
  rw [← (hr.pow_pow hpow hstep).2, residue_mul_natAbs]

theorem stepwise_rational (σ : Letter → ℚ) : (rational σ).Stepwise where
  isPow_residue {a p} hp h := by
    refine ⟨(den_residue p).trans h.1, fun hneg => pow_ne_zero _ (h.2 ?_)⟩
    exact (residue_neg_iff hp).mp hneg

theorem stepwise_positive {S : Type} [RootSemifield S] (σ : Letter → S) :
    (positive σ).Stepwise where
  isPow_residue _ ha := pow_ne_zero _ ha

end Reading

namespace Expr

variable {K : Type} [CommSemiring K] {r : Reading K}

/-! ### One step -/

/-- The terms of an expression make up its value. -/
theorem sum_value_summands (u : Expr) : (u.summands.map (value r)).sum = u.value r := by
  cases u with
  | sum ts => exact (value_sum r ts).symm
  | num | sym | pow | prod => simp [summands]

theorem admissible_summands {u : Expr} (h : u.Admissible r) : ∀ t ∈ u.summands, t.Admissible r := by
  cases u with
  | sum ts => exact (everywhere_sum.mp h).2
  | num | sym | pow | prod => exact List.forall_mem_singleton.mpr h

theorem value_times (a b : Expr) : (times a b).value r = a.value r * b.value r := by
  rw [times, value_ofFactors]
  simp

/-- The products of the terms of two expressions make up the product of their values. -/
theorem sum_value_crossTerms (a b : Expr) :
    ((crossTerms a b).map (value r)).sum = a.value r * b.value r := by
  rw [← sum_value_summands a, crossTerms]
  induction a.summands with
  | nil => simp
  | cons x xs ih =>
    have hx : ((b.summands.map fun y => times x y).map (value r)).sum = x.value r * b.value r := by
      rw [← sum_value_summands b, ← List.sum_map_mul_left, List.map_map]
      exact congrArg List.sum (List.map_congr_left fun y _ => value_times x y)
    rw [List.flatMap_cons, List.map_append, List.sum_append, hx, ih, List.map_cons, List.sum_cons,
      add_mul]

theorem prod_value_joined (a b : Expr) (first : Bool) :
    (((if first then [a] else a.factors) ++ [b]).map (value r)).prod = a.value r * b.value r := by
  rw [List.map_append, List.prod_append, List.map_singleton, List.prod_singleton]
  cases first with
  | true => simp
  | false => exact congrArg (· * b.value r) (prod_value_factors r a)

section

variable (hr : r.Lawful)

include hr

/-- A step is worth the product of its two expressions. -/
theorem value_distribute {a b : Expr} (first : Bool) (ha : a.Admissible r) (hb : b.Admissible r) :
    (distribute a b first).Admissible r ∧
      (distribute a b first).value r = a.value r * b.value r := by
  by_cases h : a.kind = .sum ∨ b.kind = .sum
  · have hvalue : (ofTerms (crossTerms a b)).value r = a.value r * b.value r := by
      rw [value_ofTerms, sum_value_crossTerms]
    rw [distribute_of_sum first h]
    refine ⟨admissible_ofTerms_iff.mpr ⟨?_, fun c hc => ?_⟩, hvalue⟩
    · rw [hvalue]
      exact hr.isValue_mul (ha.isValue hr) (hb.isValue hr)
    · obtain ⟨x, hx, y, hy, rfl⟩ := mem_crossTerms.mp hc
      exact admissible_ofFactors_iff.mpr (List.forall_mem_cons.mpr ⟨admissible_summands ha x hx,
        List.forall_mem_singleton.mpr (admissible_summands hb y hy)⟩)
  · rw [not_or] at h
    rw [distribute_of_plain first h.1 h.2, value_ofFactors, prod_value_joined]
    refine ⟨admissible_ofFactors_iff.mpr ?_, rfl⟩
    exact forall_mem_joined first ha (admissible_factors_iff.mpr ha) hb

/-! ### The whole run -/

theorem value_multiplyOut {us : List Expr} (h : ∀ u ∈ us, u.Admissible r) :
    (multiplyOut us).Admissible r ∧ (multiplyOut us).value r = (us.map (value r)).prod := by
  rw [List.prod_eq_foldl]
  exact multiplyOut_run one_mul ⟨hr.isNum_one, hr.num_one⟩ (value_distribute hr) h

/-- A pass over some factors that keeps their values keeps that of their product. -/
theorem value_multiplyOut_map {f : Expr → Expr} {fs : List Expr}
    (h : ∀ u ∈ fs, (f u).Admissible r ∧ (f u).value r = u.value r) :
    (multiplyOut (fs.map f)).Admissible r ∧
      (multiplyOut (fs.map f)).value r = (prod fs).value r := by
  obtain ⟨hadm, hvalue⟩ := value_multiplyOut hr (List.forall_mem_map.mpr fun u hu => (h u hu).1)
  refine ⟨hadm, hvalue.trans ?_⟩
  rw [value_prod, List.map_map]
  exact congrArg List.prod (List.map_congr_left fun u hu => (h u hu).2)

omit hr in
/-- A pass over some terms that keeps their values keeps that of their sum. -/
theorem value_ofTerms_map {f : Expr → Expr} {ts : List Expr} (hsum : (sum ts).Admissible r)
    (h : ∀ u ∈ ts, (f u).Admissible r ∧ (f u).value r = u.value r) :
    (ofTerms (ts.map f)).Admissible r ∧ (ofTerms (ts.map f)).value r = (sum ts).value r := by
  have hvalue : (ofTerms (ts.map f)).value r = (sum ts).value r := by
    rw [value_ofTerms, value_sum, List.map_map]
    exact congrArg List.sum (List.map_congr_left fun u hu => (h u hu).2)
  refine ⟨admissible_ofTerms_iff.mpr ⟨?_, List.forall_mem_map.mpr fun u hu => (h u hu).1⟩, hvalue⟩
  rw [hvalue]
  exact hsum.1

theorem value_multipliedOut {e : Expr} (h : e.Admissible r) :
    e.multipliedOut.Admissible r ∧ e.multipliedOut.value r = e.value r := by
  induction e with
  | num | sym => exact ⟨h, rfl⟩
  | pow b p ih =>
    obtain ⟨hadm, hvalue⟩ := ih h.2
    have hp : r.IsPow (b.multipliedOut.value r) p := hvalue ▸ h.1
    exact ⟨⟨hp, hadm⟩, congrArg (r.pow · p) hvalue⟩
  | prod fs ih =>
    rw [multipliedOut_prod]
    exact value_multiplyOut_map hr fun f hf => ih f hf (admissible_prod_iff.mp h f hf)
  | sum ts ih =>
    rw [multipliedOut_sum]
    exact value_ofTerms_map h fun t ht => ih t ht ((everywhere_sum.mp h).2 t ht)

/-! ### Powers and expansions -/

/-- Copies of an expression multiplied out are worth its power. -/
theorem value_repeated {b : Expr} (h : b.Admissible r) (n : ℕ) :
    (multiplyOut (List.replicate n b.multipliedOut)).Admissible r ∧
      (multiplyOut (List.replicate n b.multipliedOut)).value r = b.value r ^ n := by
  obtain ⟨hadm, hvalue⟩ := value_multipliedOut hr h
  have hcopies : ∀ u ∈ List.replicate n b.multipliedOut, u.Admissible r := fun u hu =>
    List.eq_of_mem_replicate hu ▸ hadm
  obtain ⟨hadm, hprod⟩ := value_multiplyOut hr hcopies
  refine ⟨hadm, hprod.trans ?_⟩
  rw [List.map_replicate, List.prod_replicate, hvalue]

theorem value_expandPower (hs : r.Stepwise) {b : Expr} {p : Rat} (hb : b.Admissible r)
    (hp : r.IsPow (b.value r) p) :
    (expandPower b p).Admissible r ∧ (expandPower b p).value r = r.pow (b.value r) p := by
  have hvalue := hb.isValue hr
  obtain ⟨hadm, hrepeated⟩ := value_repeated hr hb p.num.natAbs
  rw [expandPower]
  split_ifs with h1 h0 hlt hres
  · rw [h1]
    exact ⟨hb, (hr.pow_one hvalue).2.symm⟩
  · rw [h0] at hp ⊢
    exact ⟨hr.isNum_one, hr.num_one.trans (hr.pow_zero hp).symm⟩
  · obtain ⟨-, hpow⟩ := hr.pow_residue hs h0 hvalue hp
    refine ⟨hadm, ?_⟩
    rw [← hpow, hres, ← hrepeated]
    exact (hr.pow_one (hadm.isValue hr)).2.symm
  · obtain ⟨hstep, hpow⟩ := hr.pow_residue hs h0 hvalue hp
    rw [← hrepeated] at hstep hpow
    exact ⟨⟨hstep, hadm⟩, hpow⟩
  · exact ⟨⟨hp, hb⟩, rfl⟩

/-- The expansion of an admissible expression is admissible and has its value. -/
theorem value_expand_of_lawful (hs : r.Stepwise) {e : Expr} (h : e.Admissible r) :
    e.expand.Admissible r ∧ e.expand.value r = e.value r := by
  induction e with
  | num | sym => exact ⟨h, rfl⟩
  | pow b p ih =>
    obtain ⟨hb, hvalue⟩ := ih h.2
    have hp : r.IsPow (b.expand.value r) p := hvalue ▸ h.1
    obtain ⟨hadm, hpow⟩ := value_expandPower hr hs hb hp
    exact ⟨hadm, hpow.trans (congrArg (r.pow · p) hvalue)⟩
  | prod fs ih =>
    rw [expand_prod]
    exact value_multiplyOut_map hr fun f hf => ih f hf (admissible_prod_iff.mp h f hf)
  | sum ts ih =>
    rw [expand_sum]
    exact value_ofTerms_map h fun t ht => ih t ht ((everywhere_sum.mp h).2 t ht)

end

/-- The expansion of an expression with integer exponents has integer exponents and, wherever the
expression is defined, is defined and has its value. The expansion of an expression of positive
numbers, with any exponents, has its value in every semifield without zero that has rational powers.
-/
theorem value_expand (e : Expr) :
    (∀ σ : Letter → ℚ, e.IntegerExponents → e.DefinedAt σ →
      e.expand.IntegerExponents ∧ e.expand.DefinedAt σ ∧
        e.expand.value (Reading.rational σ) = e.value (Reading.rational σ)) ∧
    (e.WellFormed → e.PositiveNumbers → e.expand.PositiveNumbers ∧
      ∀ (S : Type) [RootSemifield S] (σ : Letter → S),
        ∃ s : S, e.value (Reading.positive σ) = s ∧ e.expand.value (Reading.positive σ) = s) := by
  constructor
  · intro σ hint hdef
    obtain ⟨hadm, hvalue⟩ := value_expand_of_lawful (Reading.lawful_rational σ)
      (Reading.stepwise_rational σ) (admissible_rational_iff.mpr ⟨hint, hdef⟩)
    obtain ⟨hint', hdef'⟩ := admissible_rational_iff.mp hadm
    exact ⟨hint', hdef', hvalue⟩
  · intro hwf hpos
    have hkeeps : ∀ (S : Type) [RootSemifield S] (σ : Letter → S),
        e.expand.Admissible (Reading.positive σ) ∧
          e.expand.value (Reading.positive σ) = e.value (Reading.positive σ) := by
      intro S _ σ
      exact value_expand_of_lawful (Reading.lawful_positive σ) (Reading.stepwise_positive σ)
        (admissible_positive σ hwf hpos)
    -- the numbers of the expansion do not depend on the semifield, so one of them will do
    refine ⟨positiveNumbers_of_admissible (hkeeps {x : ℝ // 0 < x} 1).1, ?_⟩
    intro S _ σ
    obtain ⟨s, hs⟩ := exists_value_positive (admissible_positive σ hwf hpos)
    exact ⟨s, hs, (hkeeps S σ).2.trans hs⟩

/-- A power of one more than a letter. -/
def binomialPower (p : Rat) : Expr :=
  pow (sum [num 1, sym ⟨'u', by decide⟩]) p

theorem value_expand_binomialPower :
    ((binomialPower (-2)).IntegerExponents ∧ (binomialPower (-2)).DefinedAt (fun _ => 3) ∧
      (binomialPower (-2)).expand.IntegerExponents ∧
      (binomialPower (-2)).expand.DefinedAt (fun _ => 3) ∧
      (binomialPower (-2)).expand.value (Reading.rational fun _ => 3) =
        (binomialPower (-2)).value (Reading.rational fun _ => 3)) ∧
    (binomialPower (3 / 2)).WellFormed ∧ (binomialPower (3 / 2)).PositiveNumbers ∧
      (binomialPower (3 / 2)).expand.PositiveNumbers ∧
      ∃ s : {x : ℝ // 0 < x},
        (binomialPower (3 / 2)).value (Reading.positive fun _ => (1 : {x : ℝ // 0 < x})) = s ∧
        (binomialPower (3 / 2)).expand.value
          (Reading.positive fun _ => (1 : {x : ℝ // 0 < x})) = s := by
  have hint : (binomialPower (-2)).IntegerExponents := by
    simp [binomialPower, IntegerExponents]
  have hdef : (binomialPower (-2)).DefinedAt fun _ => 3 := by
    refine powers_pow.mpr ⟨fun _ => ?_, by simp⟩
    norm_num [Reading.rational]
  have hwf : (binomialPower (3 / 2)).WellFormed :=
    ⟨Nat.le_refl 2, by decide, trivial, trivial, trivial⟩
  have hpos : (binomialPower (3 / 2)).PositiveNumbers := by
    simp [binomialPower, PositiveNumbers]
  obtain ⟨hpos', hvalue⟩ := (value_expand (binomialPower (3 / 2))).2 hwf hpos
  exact ⟨⟨hint, hdef, (value_expand (binomialPower (-2))).1 (fun _ => 3) hint hdef⟩,
    hwf, hpos, hpos', hvalue {x : ℝ // 0 < x} fun _ => 1⟩

end Expr

end ExactAlgebra
