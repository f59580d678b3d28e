import ExactAlgebra.Proofs.Canonical.Value
import ExactAlgebra.Proofs.FormalSums

/-!
# Sums of monomials stay sums of monomials

What the pass makes of a monomial is a monomial, what it makes of a sum of monomials is one, and
they denote the same formal sum (`formalSum_of_yields`).

The terms that are collected are monomials, so none of them is a sum to be unwrapped. The factors
that are gathered are letters and powers of letters, which is why the bases of groups are letters,
and a group that is left is a monomial again.
-/

namespace ExactAlgebra

namespace Expr

theorem IsMonomial.stem {u : Expr} (h : u.IsMonomial) : u.stem.IsMonomial := by
  unfold Expr.stem
  split
  · exact isMonomial_prod_iff.mp h _ (by simp)
  · rw [isMonomial_ofFactors_iff]
    intro f hf
    exact isMonomial_prod_iff.mp h f (List.mem_cons_of_mem _ hf)
  · exact h

theorem IsMonomial.withCoefficient {k : Expr} (h : k.IsMonomial) (c : Rat) :
    (withCoefficient c k).IsMonomial := by
  unfold Expr.withCoefficient
  split_ifs
  · exact h
  · rw [isMonomial_ofFactors_iff, List.forall_mem_cons]
    exact ⟨.num c, isMonomial_factors_iff.mpr h⟩

end Expr

namespace Canonical

open ExactAlgebra.Expr

variable {guess : RootGuess}

/-! ### Powers of letters -/

theorem formalSum_of_power {x : Letter} {p : Rat} {n : Expr} (hp : p ≠ 0)
    (h : power guess (.sym x) p = .ok n) :
    n.IsMonomial ∧ n.formalSum = (Expr.pow (.sym x) p).formalSum := by
  have hraises : Raises guess (.sym x) p n := raises_of_power guess h
  cases hraises with
  | one =>
    refine ⟨.sym x, ?_⟩
    show _ = Reading.formal.pow (AddMonoidAlgebra.single _ 1) 1
    rw [Reading.formal_pow_single, one_smul]
    rfl
  | keep => exact ⟨.pow x hp, rfl⟩

/-! ### Products -/

/-- The factors of a product of monomials, in canonical form, are monomials, and no products. -/
theorem isMonomial_spliced_product {fs : List Expr} {v : Expr → Expr}
    (hv : ∀ f ∈ fs, Yields guess f (v f)) (h : ∀ f ∈ fs, (v f).IsMonomial) :
    ∀ u ∈ spliced .product (fs.map v), u.IsMonomial ∧ u.kind ≠ .product := by
  have hreduced : ∀ f ∈ fs, Reduced guess (v f) := fun f hf => reduced_of_yields (hv f hf)
  have hmonomial : ∀ u ∈ spliced .product (fs.map v), u.IsMonomial :=
    forall_mem_spliced (List.forall_mem_map.mpr h) fun _ hu hk _ hd => hu.child (by simp [hk]) hd
  intro u hu
  exact ⟨hmonomial u hu, kind_ne_of_mem_spliced (by decide) hreduced u hu⟩

/-- A factor that is a monomial and no product is worth its letter, raised to its exponent. -/
theorem powerOfBase_of_isMonomial {u : Expr} (h : u.IsMonomial) (hrat : u.kind ≠ .rational)
    (hprod : u.kind ≠ .product) : PowerOfBase Reading.formal u := by
  cases h with
  | num => exact absurd rfl hrat
  | sym x =>
    refine ⟨trivial, ⟨_, rfl⟩, ?_⟩
    show Reading.formal.pow (AddMonoidAlgebra.single _ 1) 1 = _
    rw [Reading.formal_pow_single, one_smul]
    rfl
  | pow x => exact ⟨trivial, ⟨_, rfl⟩, rfl⟩
  | prod => exact absurd rfl hprod

/-- The groups of such factors are powers of letters. -/
theorem isMonomial_pow_of_mem_live {us : List Expr}
    (h : ∀ u ∈ us, u.IsMonomial ∧ u.kind ≠ .product) :
    ∀ g ∈ live (factorGroups us []), (Expr.pow g.1 g.2).IsMonomial := by
  intro g hg
  have hletters : ∀ g ∈ Groups.collect (factorEntries us), ∃ x, g.1 = .sym x := by
    refine Groups.forall_mem_collect (I := fun b _ => ∃ x, b = .sym x) (fun _ _ _ h _ => h) ?_
    exact forall_mem_factorEntries fun u hu hrat => (h u hu).1.cases_factor hrat (h u hu).2
  obtain ⟨hmem, -⟩ := List.mem_filter.mp hg
  rw [factorGroups_eq] at hmem
  obtain ⟨x, hx⟩ := hletters g hmem
  rw [hx]
  exact .pow x (ne_zero_of_mem_live hg)

/-- What the factors of a product of monomials come down to. -/
theorem formalSum_gathered {fs : List Expr} {v : Expr → Expr} {w : Expr × Rat → Expr} {ps : Powers}
    (he : (Expr.prod fs).IsMonomial) (hv : ∀ f ∈ fs, Yields guess f (v f))
    (ih : ∀ f ∈ fs, f.IsMonomial → (v f).IsMonomial ∧ (v f).formalSum = f.formalSum)
    (ihw : ∀ g ∈ live (factorGroups (spliced .product (fs.map v)) []),
      (Expr.pow g.1 g.2).IsMonomial →
        (w g).IsMonomial ∧ (w g).formalSum = (Expr.pow g.1 g.2).formalSum)
    (hps : ps = gathered w (spliced .product (fs.map v))) :
    (∀ f ∈ ps.factors, f.IsMonomial) ∧
      Reading.formal.num ps.constant * (ps.factors.map formalSum).prod =
        (Expr.prod fs).formalSum := by
  have hfs := isMonomial_prod_iff.mp he
  have hus := isMonomial_spliced_product hv fun f hf => (ih f hf (hfs f hf)).1
  have hgroups := isMonomial_pow_of_mem_live hus
  subst hps
  constructor
  · refine forall_mem_factors_powersOf fun g hg => ?_
    exact isMonomial_factors_iff.mpr (ihw g hg (hgroups g hg)).1
  · obtain ⟨hadm, hprod⟩ := value_spliced_product he.admissible fun f hf _ =>
      ⟨(ih f hf (hfs f hf)).1.admissible, (ih f hf (hfs f hf)).2⟩
    have hbase : ∀ u ∈ spliced .product (fs.map v), u.kind ≠ .rational →
        PowerOfBase Reading.formal u := fun u hu hrat =>
      powerOfBase_of_isMonomial (hus u hu).1 hrat (hus u hu).2
    obtain ⟨-, -, hvalue⟩ := value_gathered Reading.additive_formal hadm hbase fun g hg _ =>
      ⟨(ihw g hg (hgroups g hg)).1.admissible, (ihw g hg (hgroups g hg)).2⟩
    exact hvalue.trans hprod

/-- A result of the pass is a monomial if the expression is, and it denotes the same. -/
theorem formalSum_of_yields_of_isMonomial {e n : Expr} (h : Yields guess e n) (he : e.IsMonomial) :
    n.IsMonomial ∧ n.formalSum = e.formalSum := by
  induction h with
  | num | sym => exact ⟨he, rfl⟩
  | pow hb hn =>
    cases he with
    | pow x hp =>
      cases hb
      exact formalSum_of_power hp hn
  | sum => cases he
  | sumAgain => cases he
  | prodZero v w hv _ hzero ih ihw =>
    obtain ⟨-, hvalue⟩ := formalSum_gathered he hv ih ihw rfl
    rw [hzero, Reading.additive_formal.num_zero, zero_mul] at hvalue
    exact ⟨.num 0, Reading.additive_formal.num_zero.trans hvalue⟩
  | @prod fs ps n v w hv _ hps _ _ hn ih ihw =>
    obtain ⟨hfactors, hvalue⟩ := formalSum_gathered he hv ih ihw hps
    have hall : ∀ f ∈ ps.factors ++ besides ps.constant 1, f.IsMonomial :=
      forall_mem_append_besides hfactors fun _ => .num _
    refine ⟨of_productOr hn (fun _ => .num _) hall fun _ => isMonomial_ofFactors_iff.mpr hall, ?_⟩
    exact (value_of_productOr Reading.additive_formal hn).trans hvalue
  | @prodAgain fs ps d n v w hv _ hps _ _ hd _ ih ihw ihd =>
    obtain ⟨hfactors, hvalue⟩ := formalSum_gathered he hv ih ihw hps
    obtain ⟨-, rfl⟩ := prodOf_eq_ok_iff.mp hd
    have hall : ∀ f ∈ ps.factors ++ [.num ps.constant], f.IsMonomial :=
      List.forall_mem_append.mpr ⟨hfactors, List.forall_mem_singleton.mpr (.num _)⟩
    obtain ⟨hn, hv⟩ := ihd (isMonomial_ofFactors_iff.mpr hall)
    exact ⟨hn, hv.trans ((value_ofFactors_concat ps.factors ps.constant).trans hvalue)⟩

/-! ### Sums -/

/-- The terms of a sum of monomials, in canonical form, are monomials. -/
theorem isMonomial_spliced_sum {ts : List Expr} {v : Expr → Expr}
    (hv : ∀ t ∈ ts, Yields guess t (v t)) (h : ∀ t ∈ ts, (v t).IsMonomialSum) :
    ∀ u ∈ spliced .sum (ts.map v), u.IsMonomial := by
  have hreduced : ∀ t ∈ ts, Reduced guess (v t) := fun t ht => reduced_of_yields (hv t ht)
  have hsum : ∀ u ∈ spliced .sum (ts.map v), u.IsMonomialSum :=
    forall_mem_spliced (List.forall_mem_map.mpr h) fun _ hu hk _ hd => hu.child (by simp [hk]) hd
  intro u hu
  exact (hsum u hu).isMonomial (kind_ne_of_mem_spliced (by decide) hreduced u hu)

/-- Monomials are collected to monomials, and none of them is unwrapped. -/
theorem isMonomial_collectedTerms {us : List Expr} (h : ∀ u ∈ us, u.IsMonomial) :
    (∀ t ∈ collectedTerms us, t.IsMonomial) ∧ unwraps us = false := by
  have hstems : ∀ g ∈ Groups.collect (termEntries us), g.1.IsMonomial := by
    refine Groups.forall_mem_collect (I := fun k _ => k.IsMonomial) (fun _ _ _ h _ => h) ?_
    exact forall_mem_termEntries fun u hu _ => (h u hu).stem
  have hplain : ∀ g ∈ Groups.collect (termEntries us), isUnwrapped g = false := by
    intro g hg
    rw [Bool.eq_false_iff]
    intro hu
    exact (hstems g hg).kind_ne_sum (isUnwrapped_iff.mp hu).1
  constructor
  · refine forall_mem_append_besides (fun t ht => ?_) fun _ => .num _
    obtain ⟨g, hg, ht⟩ := List.mem_flatMap.mp ht
    obtain ⟨-, rfl⟩ := mem_likeTermsOf (hplain g hg) ht
    exact (hstems g hg).withCoefficient g.2
  · simpa [unwraps] using hplain

/-- A result of the pass is a sum of monomials if the expression is, and it denotes the same formal
sum. -/
theorem formalSum_of_yields {e n : Expr} (h : Yields guess e n) (he : e.IsMonomialSum) :
    n.IsMonomialSum ∧ n.formalSum = e.formalSum := by
  induction he generalizing n with
  | monomial he =>
    obtain ⟨hn, hvalue⟩ := formalSum_of_yields_of_isMonomial h he
    exact ⟨.monomial hn, hvalue⟩
  | @sum ts hts ih =>
    have hus : ∀ v : Expr → Expr, (∀ t ∈ ts, Yields guess t (v t)) →
        ∀ u ∈ spliced .sum (ts.map v), u.IsMonomial := fun v hv =>
      isMonomial_spliced_sum hv fun t ht => (ih t ht (hv t ht)).1
    cases h with
    | sum v hv hterms hn =>
      obtain ⟨rfl, -⟩ := eq_of_collected (reduced_spliced_of_yields hv) hterms
      obtain ⟨hcollected, -⟩ := isMonomial_collectedTerms (hus v hv)
      obtain ⟨hadm, hsum⟩ := value_spliced_sum (IsMonomialSum.sum hts).admissible fun t ht _ =>
        ⟨(ih t ht (hv t ht)).1.admissible, (ih t ht (hv t ht)).2⟩
      have hvalue :=
        (value_collectedTerms Reading.additive_formal (reduced_spliced_of_yields hv) hadm).2
      refine ⟨of_total hn (fun _ => .monomial (.num 0)) (fun t ht => .monomial (hcollected t ht))
        fun _ => ?_, ?_⟩
      · exact isMonomialSum_ofTerms_iff.mpr fun t ht => .monomial (hcollected t ht)
      · exact (value_of_total Reading.additive_formal hn).trans (hvalue.trans hsum)
    | sumAgain v hv hterms hd =>
      obtain ⟨hunwraps, -⟩ := eq_of_sumAgain hv hterms hd
      rw [(isMonomial_collectedTerms (hus v hv)).2] at hunwraps
      cases hunwraps

end Canonical

end ExactAlgebra
