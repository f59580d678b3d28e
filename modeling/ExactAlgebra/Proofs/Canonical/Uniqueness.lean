import ExactAlgebra.Number.Estimate
import ExactAlgebra.Proofs.Amounts
import ExactAlgebra.Proofs.Canonical.Failures
import ExactAlgebra.Proofs.Canonical.Monomials

/-!
# The canonical form of a sum of monomials is unique

Sums of monomials have the same canonical form exactly if they denote the same formal sum
(`simplify_eq_simplify_iff`).

A monomial in canonical form is settled by the exponents of its letters (`degrees`) and its number
(`scale`): its bases are pairwise different, so the exponents are those of its factors, and the
factors are in order. In the same way the terms of a canonical form are settled by the coefficients
of the formal sum, as no two of them have the same exponents (`perm_of_sum_single_eq`, for both).
-/

namespace ExactAlgebra

namespace Expr

/-! ### Parts and wholes -/

/-- The terms that an expression is the total of. -/
def terms : Expr → List Expr
  | num q => Canonical.besides q 0
  | sum ts => ts
  | u => [u]

theorem total_terms {n : Expr} (h : n.WellFormed) : total n.terms = .ok n := by
  cases n with
  | num q =>
    rw [terms, Canonical.besides]
    split_ifs with h0
    · rw [h0]
      rfl
    · rfl
  | sum ts => rw [terms, total_of_two_le h.1, ofTerms, sort_eq_self h.2.1]
  | sym | pow | prod => rfl

/-! ### Exponents and numbers of monomials -/

/-- The exponents of the letters in a factor: that of its base, if it is a letter. -/
noncomputable def letterPower (f : Expr) : Letter →₀ ℚ :=
  match f.base with
  | sym x => Finsupp.single x f.exponent
  | _ => 0

/-- The exponents of the letters in a monomial. -/
noncomputable def degrees (u : Expr) : Letter →₀ ℚ :=
  ((nonNumbers u.factors).map letterPower).sum

/-- The number that a monomial is multiplied by. -/
def scale (u : Expr) : Rat :=
  Canonical.constantFactor u.factors

theorem letterPower_of_base {f : Expr} {x : Letter} (h : f.base = sym x) :
    f.letterPower = Finsupp.single x f.exponent := by
  rw [letterPower, h]

/-- Letters and powers of letters denote, multiplied, the sums of their exponents. -/
theorem prod_formalSum {fs : List Expr}
    (h : ∀ f ∈ fs, f.formalSum = AddMonoidAlgebra.single f.letterPower 1) :
    (fs.map formalSum).prod = AddMonoidAlgebra.single (fs.map letterPower).sum 1 := by
  induction fs with
  | nil => rfl
  | cons f fs ih =>
    obtain ⟨hf, hfs⟩ := List.forall_mem_cons.mp h
    rw [List.map_cons, List.prod_cons, hf, ih hfs, AddMonoidAlgebra.single_mul_single, one_mul,
      List.map_cons, List.sum_cons]

end Expr

namespace Canonical

open ExactAlgebra.Expr

variable {guess : RootGuess}

/-- A monomial in canonical form, other than zero. -/
structure IsTerm (guess : RootGuess) (u : Expr) : Prop where
  reduced : Reduced guess u
  monomial : u.IsMonomial
  ne_zero : u ≠ .num 0

namespace IsTerm

variable {u : Expr}

/-! ### Factors of a term -/

theorem base_factor (h : IsTerm guess u) : ∀ f ∈ nonNumbers u.factors, ∃ x, f.base = .sym x := by
  intro f hf
  obtain ⟨hf, hrat⟩ := mem_nonNumbers.mp hf
  have hmonomial : f.IsMonomial := isMonomial_factors_iff.mpr h.monomial f hf
  exact hmonomial.cases_factor hrat (h.reduced.factor_ne_product f hf)

theorem formalSum_factor (h : IsTerm guess u) :
    ∀ f ∈ nonNumbers u.factors, f.formalSum = AddMonoidAlgebra.single f.letterPower 1 := by
  intro f hf
  obtain ⟨x, hx⟩ := h.base_factor f hf
  have hmonomial : f.IsMonomial := isMonomial_factors_iff.mpr h.monomial f (mem_nonNumbers.mp hf).1
  rw [letterPower_of_base hx]
  cases hmonomial with
  | sym y =>
    cases hx
    rfl
  | pow y =>
    cases hx
    show Reading.formal.pow (AddMonoidAlgebra.single _ 1) _ = _
    rw [Reading.formal_pow_single, Finsupp.smul_single, smul_eq_mul, mul_one]
    rfl
  | num | prod => cases hx

/-- A term denotes its number at the exponents of its letters. -/
theorem formalSum_eq_single (h : IsTerm guess u) :
    u.formalSum = AddMonoidAlgebra.single u.degrees u.scale := by
  have hadm : ∀ f ∈ u.factors, f.Admissible Reading.formal :=
    admissible_factors_iff.mpr h.monomial.admissible
  obtain ⟨-, hvalue⟩ := num_constantFactor Reading.additive_formal hadm
  rw [prod_value_factors] at hvalue
  calc u.formalSum
      = AddMonoidAlgebra.single 0 u.scale * ((nonNumbers u.factors).map formalSum).prod :=
        hvalue.symm
    _ = AddMonoidAlgebra.single u.degrees u.scale := by
        rw [prod_formalSum h.formalSum_factor, AddMonoidAlgebra.single_mul_single, zero_add, mul_one]
        rfl

/-- The exponents of a term, as those of its bases. -/
theorem mapDomain_degrees (h : IsTerm guess u) :
    u.degrees.mapDomain Expr.sym =
      ((nonNumbers u.factors).map fun f => Finsupp.single f.base f.exponent).sum := by
  rw [degrees, ← Finsupp.mapDomain.addMonoidHom_apply, map_list_sum, List.map_map]
  refine congrArg List.sum (List.map_congr_left fun f hf => ?_)
  obtain ⟨x, hx⟩ := h.base_factor f hf
  rw [Function.comp_apply, Finsupp.mapDomain.addMonoidHom_apply, letterPower_of_base hx,
    Finsupp.mapDomain_single, hx]

/-- The numbers among the factors of a term: its number, unless that is one and there are other
factors. -/
theorem numbers_factors (h : IsTerm guess u) :
    numbers u.factors =
      if nonNumbers u.factors = [] then [.num u.scale] else besides u.scale 1 := by
  cases u with
  | num q => exact congrArg (fun c => [Expr.num c]) (constantFactor_singleton q).symm
  | sym | pow | sum => rfl
  | prod fs =>
    have hn : NormalProduct fs := h.reduced.normal
    have hne : nonNumbers fs ≠ [] := by
      intro hnil
      have hlen := (nonNumbers_append_numbers_perm fs).length_eq
      rw [hnil, List.nil_append] at hlen
      have htwo := h.reduced.wellFormed.1
      have hone := hn.numbers_le
      omega
    show numbers fs = if nonNumbers fs = [] then _ else _
    rw [if_neg hne]
    exact (besides_constantFactor hn).1.symm

theorem scale_ne_zero (h : IsTerm guess u) : u.scale ≠ 0 := by
  cases u with
  | num q =>
    have hq : scale (.num q) = q := constantFactor_singleton q
    rw [hq]
    rintro rfl
    exact h.ne_zero rfl
  | sym | pow | sum => exact one_ne_zero
  | prod fs =>
    have hn : NormalProduct fs := h.reduced.normal
    exact (besides_constantFactor hn).2

end IsTerm

/-- The exponents of a term can be read off what it denotes. -/
theorem IsTerm.degrees_eq {u : Expr} {v : Letter →₀ ℚ} {c : ℚ} (hu : IsTerm guess u)
    (h : u.formalSum = AddMonoidAlgebra.single v c) : u.degrees = v := by
  rw [hu.formalSum_eq_single, AddMonoidAlgebra.single_inj] at h
  rcases h with ⟨hdegrees, -⟩ | ⟨hzero, -⟩
  · exact hdegrees
  · exact absurd hzero hu.scale_ne_zero

/-! ### Terms are settled by exponents and number -/

/-- A factor in canonical form whose base is no number is settled by its base and exponent. -/
theorem Reduced.eq_power {f : Expr} (h : Reduced guess f) (hbase : f.base.kind ≠ .rational) :
    f = if f.exponent = 1 then f.base else .pow f.base f.exponent := by
  cases f with
  | pow b p =>
    have hp : p ≠ 1 := by
      rintro rfl
      exact hbase (h.nodes.root.base_of_one b rfl)
    exact (if_neg hp).symm
  | num | sym | prod | sum => exact (if_pos rfl).symm

theorem IsTerm.factors_perm {u v : Expr} (hu : IsTerm guess u) (hv : IsTerm guess v)
    (h : u.degrees = v.degrees) : (nonNumbers u.factors).Perm (nonNumbers v.factors) := by
  have hne : ∀ {u}, IsTerm guess u → ∀ f ∈ nonNumbers u.factors, f.exponent ≠ 0 :=
    fun hu f hf => exponent_ne_zero (hu.reduced.reduced_factors f (mem_nonNumbers.mp hf).1)
  -- bases serve as keys in place of letters, since it is they that are known to be different
  refine perm_of_sum_single_eq hu.reduced.nodup_bases hv.reduced.nodup_bases (hne hu) (hne hv) ?_ ?_
  · intro f hf g hg hbase hexp
    have hrat : f.base.kind ≠ .rational := by
      obtain ⟨x, hx⟩ := hu.base_factor f hf
      simp [hx, kind]
    have hf := hu.reduced.reduced_factors f (mem_nonNumbers.mp hf).1
    have hg := hv.reduced.reduced_factors g (mem_nonNumbers.mp hg).1
    rw [hf.eq_power hrat, hg.eq_power (hbase ▸ hrat), hbase, hexp]
  · rw [← hu.mapDomain_degrees, ← hv.mapDomain_degrees, h]

/-- A term is settled by the exponents of its letters and its number. -/
theorem IsTerm.eq_of_degrees {u v : Expr} (hu : IsTerm guess u) (hv : IsTerm guess v)
    (hdegrees : u.degrees = v.degrees) (hscale : u.scale = v.scale) : u = v := by
  have hfactors := hu.factors_perm hv hdegrees
  have hnumbers : numbers u.factors = numbers v.factors := by
    have hnil : nonNumbers u.factors = [] ↔ nonNumbers v.factors = [] := by
      rw [← List.length_eq_zero_iff, hfactors.length_eq, List.length_eq_zero_iff]
    rw [hu.numbers_factors, hv.numbers_factors, hscale]
    simp only [hnil]
  have hperm : u.factors.Perm v.factors := by
    refine (nonNumbers_append_numbers_perm _).symm.trans ?_
    rw [hnumbers]
    exact (hfactors.append_right _).trans (nonNumbers_append_numbers_perm _)
  have hwhole : (Except.ok u : Except Error Expr) = .ok v := by
    rw [← productOr_factors (.num 1) hu.reduced.wellFormed, productOr_eq_of_perm _ hperm,
      productOr_factors _ hv.reduced.wellFormed]
  exact Except.ok.inj hwhole

/-! ### Terms of a canonical form -/

/-- The stem of a term is the term but for its number. -/
theorem IsTerm.stem {u : Expr} (h : IsTerm guess u) (hrat : u.kind ≠ .rational) :
    IsTerm guess u.stem ∧ u.stem.degrees = u.degrees ∧ u.stem.scale = 1 := by
  obtain ⟨hstem, -, -⟩ := h.reduced.stem_spec hrat
  have hplain := hstem.factor_ne_number
  have hfactors := h.reduced.nonNumbers_factors hrat
  refine ⟨⟨hstem.reduced, h.monomial.stem, ?_⟩, ?_, ?_⟩
  · intro hzero
    exact hstem.ne_number (by rw [hzero]; rfl)
  · rw [degrees, degrees, hfactors, nonNumbers_eq_self hplain]
  · rw [scale, ← constantFactor_numbers, numbers_eq_nil hplain]
    rfl

/-- The terms of a canonical form. -/
theorem isTerm_of_mem_terms {n : Expr} (h : Reduced guess n) (hn : n.IsMonomialSum) :
    ∀ t ∈ n.terms, IsTerm guess t := by
  intro t ht
  cases n with
  | num q =>
    obtain ⟨rfl, h0⟩ := mem_besides.mp ht
    exact ⟨reduced_num q, .num q, fun hq => h0 (Expr.num.inj hq)⟩
  | sum ts =>
    have hs : NormalSum ts := h.normal
    refine ⟨h.term t ht, (isMonomialSum_sum_iff.mp hn t ht).isMonomial (hs.ne_sum t ht), ?_⟩
    rintro rfl
    exact hs.number_ne 0 ht rfl
  | sym | pow | prod =>
    rw [List.mem_singleton.mp ht]
    exact ⟨h, hn.isMonomial (by simp [kind]), nofun⟩

/-- Terms with different stems have different exponents, and a number has none. -/
theorem nodup_degrees_of_reduced {ts : List Expr} (h : Reduced guess (.sum ts))
    (hts : ∀ t ∈ ts, IsTerm guess t) : (ts.map degrees).Nodup := by
  have hn : NormalSum ts := h.normal
  have hstem : ∀ t ∈ nonNumbers ts,
      IsTerm guess t.stem ∧ t.stem.degrees = t.degrees ∧ t.stem.scale = 1 := by
    intro t ht
    obtain ⟨ht, hrat⟩ := mem_nonNumbers.mp ht
    exact (hts t ht).stem hrat
  have hlike : ((nonNumbers ts).map degrees).Nodup := by
    have hstems := List.pairwise_map.mp (nodup_stems_of_reduced h)
    refine List.pairwise_map.mpr (hstems.imp_of_mem ?_)
    intro t u ht hu hne hdegrees
    obtain ⟨ht, htd, hts⟩ := hstem t ht
    obtain ⟨hu, hud, hus⟩ := hstem u hu
    exact hne (ht.eq_of_degrees hu (htd.trans (hdegrees.trans hud.symm)) (hts.trans hus.symm))
  have hperm := (nonNumbers_append_numbers_perm ts).map degrees
  rw [← hperm.nodup_iff, List.map_append]
  rcases numbers_cases hn.numbers_le with hnil | ⟨q, hq, -⟩
  · rw [hnil, List.map_nil, List.append_nil]
    exact hlike
  · rw [hq, List.nodup_append]
    refine ⟨hlike, List.nodup_singleton _, ?_⟩
    rintro _ ht _ hq rfl
    obtain ⟨t, ht, hdegrees⟩ := List.mem_map.mp ht
    rw [List.mem_singleton.mp hq] at hdegrees
    obtain ⟨hterm, htd, hscale⟩ := hstem t ht
    have hone : IsTerm guess (.num 1) := ⟨reduced_num 1, .num 1, by simp⟩
    -- a term without exponents would have the stem one, which is no stem
    have hstem := hterm.eq_of_degrees hone (htd.trans hdegrees)
      (hscale.trans (constantFactor_singleton 1).symm)
    obtain ⟨ht, hrat⟩ := mem_nonNumbers.mp ht
    exact ((hts t ht).reduced.stem_spec hrat).1.ne_number (by rw [hstem]; rfl)

theorem nodup_degrees_terms {n : Expr} (h : Reduced guess n) (hn : n.IsMonomialSum) :
    (n.terms.map degrees).Nodup := by
  cases n with
  | num q =>
    rw [terms, besides]
    split_ifs
    · exact List.nodup_nil
    · exact List.nodup_singleton _
  | sum ts => exact nodup_degrees_of_reduced h (isTerm_of_mem_terms h hn)
  | sym | pow | prod => exact List.nodup_singleton _

theorem formalSum_terms (n : Expr) : (n.terms.map formalSum).sum = n.formalSum := by
  cases n with
  | num q =>
    rw [terms, besides]
    split_ifs with h0
    · rw [h0]
      exact Reading.additive_formal.num_zero.symm
    · exact List.sum_singleton
  | sum ts => exact (value_sum Reading.formal ts).symm
  | sym | pow | prod => exact List.sum_singleton

/-- Terms of different exponents that denote a canonical form are the terms of it. -/
theorem total_eq_of_formalSum {ts : List Expr} {n : Expr} (hts : ∀ t ∈ ts, IsTerm guess t)
    (hnodup : (ts.map degrees).Nodup) (hn : Reduced guess n) (hsum : n.IsMonomialSum)
    (h : (ts.map formalSum).sum = n.formalSum) : Expr.total ts = .ok n := by
  have hterms := isTerm_of_mem_terms hn hsum
  have hcoeff : ∀ us : List Expr, (∀ u ∈ us, IsTerm guess u) →
      (us.map formalSum).sum.coeff = (us.map fun u => Finsupp.single u.degrees u.scale).sum := by
    intro us hus
    rw [← AddMonoidAlgebra.coeffAddEquiv_apply, map_list_sum, List.map_map]
    refine congrArg List.sum (List.map_congr_left fun u hu => ?_)
    rw [Function.comp_apply, (hus u hu).formalSum_eq_single]
    rfl
  have hperm : ts.Perm n.terms := by
    refine perm_of_sum_single_eq hnodup (nodup_degrees_terms hn hsum)
      (fun t ht => (hts t ht).scale_ne_zero) (fun t ht => (hterms t ht).scale_ne_zero)
      (fun t ht u hu => (hts t ht).eq_of_degrees (hterms u hu)) ?_
    rw [← hcoeff ts hts, ← hcoeff n.terms hterms, h, formalSum_terms]
  rw [total_eq_of_perm hperm, total_terms hn.wellFormed]

/-- Canonical forms that denote the same formal sum are the same. -/
theorem eq_of_formalSum_eq {m n : Expr} (hm : Reduced guess m) (hmsum : m.IsMonomialSum)
    (hn : Reduced guess n) (hnsum : n.IsMonomialSum) (h : m.formalSum = n.formalSum) : m = n := by
  have htotal : Expr.total m.terms = .ok n := by
    refine total_eq_of_formalSum (isTerm_of_mem_terms hm hmsum) (nodup_degrees_terms hm hmsum) hn
      hnsum ?_
    rw [formalSum_terms, h]
  rw [total_terms hm.wellFormed] at htotal
  exact Except.ok.inj htotal

/-! ### Canonical forms of sums of monomials -/

theorem zeroFree_of_isMonomial {e : Expr} (h : e.IsMonomial) : ZeroFree e := by
  induction h with
  | num | sym => exact nofun
  | pow x hp => exact ⟨fun b hb => hp (Expr.pow.inj hb).2, nofun⟩
  | prod _ ih => exact everywhere_prod.mpr ⟨nofun, ih⟩

theorem zeroFree_of_isMonomialSum {e : Expr} (h : e.IsMonomialSum) : ZeroFree e := by
  induction h with
  | monomial h => exact zeroFree_of_isMonomial h
  | sum _ ih => exact everywhere_sum.mpr ⟨nofun, ih⟩

/-- A sum of monomials has a canonical form, which is one and denotes the same formal sum. -/
theorem exists_simplify_of_isMonomialSum (guess : RootGuess) {e : Expr} (he : e.IsMonomialSum) :
    ∃ n, e.simplify guess = .ok n ∧ Reduced guess n ∧ n.IsMonomialSum ∧
      n.formalSum = e.formalSum := by
  obtain ⟨n, hn⟩ := exists_simplify_eq_ok guess (zeroFree_of_isMonomialSum he)
  have hyields := yields_of_within hn
  obtain ⟨hsum, hvalue⟩ := formalSum_of_yields hyields he
  exact ⟨n, hn, reduced_of_yields hyields, hsum, hvalue⟩

end Canonical

namespace Expr

open Canonical

/-- Sums of monomials have canonical forms, and they have the same exactly if they denote the same
formal sum. -/
theorem simplify_eq_simplify_iff (guess : RootGuess) {d e : Expr} (hd : d.IsMonomialSum)
    (he : e.IsMonomialSum) :
    ∃ m n, d.simplify guess = .ok m ∧ e.simplify guess = .ok n ∧
      (m = n ↔ d.formalSum = e.formalSum) := by
  obtain ⟨m, hm, hmreduced, hmsum, hmvalue⟩ := exists_simplify_of_isMonomialSum guess hd
  obtain ⟨n, hn, hnreduced, hnsum, hnvalue⟩ := exists_simplify_of_isMonomialSum guess he
  refine ⟨m, n, hm, hn, ?_⟩
  rw [← hmvalue, ← hnvalue]
  constructor
  · rintro rfl
    rfl
  · exact eq_of_formalSum_eq hmreduced hmsum hnreduced hnsum

/-- A letter, split into twice its root times its root and its negative. -/
def splitLetter : Expr :=
  sum [prod [num (-1), sym ⟨'p', by decide⟩],
    prod [num 2, pow (sym ⟨'p', by decide⟩) (1 / 2), pow (sym ⟨'p', by decide⟩) (1 / 2)]]

theorem simplify_eq_simplify_iff_splitLetter :
    splitLetter.IsMonomialSum ∧ (sym ⟨'p', by decide⟩).IsMonomialSum ∧
      splitLetter.simplify Estimate.root = .ok (sym ⟨'p', by decide⟩) ∧
      splitLetter.formalSum = (sym ⟨'p', by decide⟩).formalSum := by
  have hsplit : splitLetter.IsMonomialSum := by
    refine .sum (List.forall_mem_cons.mpr ⟨.monomial (.prod ?_),
      List.forall_mem_singleton.mpr (.monomial (.prod ?_))⟩)
    · simp [IsMonomial.num, IsMonomial.sym]
    · simp [IsMonomial.num, IsMonomial.pow]
  have hletter : (sym ⟨'p', by decide⟩).IsMonomialSum := .monomial (.sym _)
  have h : splitLetter.simplify Estimate.root = .ok (sym ⟨'p', by decide⟩) := by decide +kernel
  obtain ⟨m, n, hm, hn, hiff⟩ := simplify_eq_simplify_iff Estimate.root hsplit hletter
  refine ⟨hsplit, hletter, h, hiff.mp ?_⟩
  rw [h] at hm
  have hn' : (sym ⟨'p', by decide⟩).simplify Estimate.root = .ok (sym ⟨'p', by decide⟩) := rfl
  rw [hn'] at hn
  exact (Except.ok.inj hm).symm.trans (Except.ok.inj hn)

end Expr

end ExactAlgebra
