import ExactAlgebra.Proofs.Canonical.Size

/-!
# Irreducible expressions are left alone

A reduced expression without powers of exponent one is irreducible: whatever the pass makes of it,
it is the expression itself (`eq_of_yields`). The terms of such a sum have stems of their own, and
the factors of such a product bases of their own, so taking them apart and putting them together
again changes nothing.
-/

namespace ExactAlgebra.Canonical

open ExactAlgebra.Expr

variable {guess : RootGuess}

/-- A reduced expression that has no power of exponent one. -/
structure Irreducible (guess : RootGuess) (e : Expr) : Prop where
  reduced : Reduced guess e
  oneFree : e.OneFree

theorem irreducible_num (q : Rat) : Irreducible guess (.num q) :=
  ⟨reduced_num q, oneFree_num q⟩

namespace Irreducible

theorem base {b : Expr} {p : Rat} (h : Irreducible guess (.pow b p)) : Irreducible guess b :=
  ⟨h.reduced.base, h.oneFree.2⟩

theorem factor {fs : List Expr} (h : Irreducible guess (.prod fs)) :
    ∀ f ∈ fs, Irreducible guess f :=
  fun f hf => ⟨h.reduced.factor f hf, (everywhere_prod.mp h.oneFree).2 f hf⟩

theorem base_of_factor {f : Expr} (h : Irreducible guess f) : Irreducible guess f.base := by
  cases f with
  | pow b p => exact h.base
  | num | sym | prod | sum => exact h

theorem term {ts : List Expr} (h : Irreducible guess (.sum ts)) :
    ∀ t ∈ ts, Irreducible guess t :=
  fun t ht => ⟨h.reduced.term t ht, (everywhere_sum.mp h.oneFree).2 t ht⟩

end Irreducible

theorem drawnTogether_of_ne {b : Expr} (h : b.kind ≠ .power) (p : Rat) :
    drawnTogether b p = (b, p) := by
  cases b with
  | pow => exact absurd rfl h
  | num | sym | prod | sum => rfl

/-- Children that are left alone, and are not of the kind of the node, are spliced to themselves. -/
theorem spliced_eq_self {kind : Kind} {us : List Expr} {v : Expr → Expr} (hv : ∀ u ∈ us, v u = u)
    (h : ∀ u ∈ us, u.kind ≠ kind) : spliced kind (us.map v) = us := by
  induction us with
  | nil => rfl
  | cons u us ih =>
    obtain ⟨hvu, hvus⟩ := List.forall_mem_cons.mp hv
    obtain ⟨hu, hus⟩ := List.forall_mem_cons.mp h
    rw [List.map_cons, hvu, spliced, List.flatMap_cons, if_neg hu]
    exact congrArg (u :: ·) (ih hvus hus)

/-! ### Powers -/

/-- An irreducible power is what its base and exponent give. -/
theorem power_of_irreducible {b : Expr} {p : Rat} (h : Irreducible guess (.pow b p)) :
    power guess b p = .ok (.pow b p) := by
  have hn : NormalPower b p := h.reduced.normal
  have hp1 : p ≠ 1 := by
    rintro rfl
    exact h.oneFree.root b rfl
  rw [power, drawnTogether_of_ne hn.base_ne_power]
  show raised guess b p = _
  unfold raised
  rw [if_neg hp1]
  cases b with
  | num q =>
    obtain ⟨hq, hp⟩ := hn.upright q rfl
    show numberPower guess q p = _
    rw [numberPower_of_rootMissing guess hq hp.ne' h.reduced.rootMissing, upright_of_pos hp]
  | sym | pow | prod | sum => exact if_neg hn.exponent_ne_zero

/-- An irreducible factor is what its base and exponent give. -/
theorem power_base_exponent {f : Expr} (h : Irreducible guess f) :
    power guess f.base f.exponent = .ok f := by
  by_cases hpow : f.kind = .power
  · cases f with
    | pow b p => exact power_of_irreducible h
    | num | sym | prod | sum => cases hpow
  · obtain ⟨hbase, hexp⟩ := base_of_ne_power hpow
    rw [hbase, hexp, power, drawnTogether_of_ne hpow]
    exact if_pos rfl

theorem exponent_ne_zero {f : Expr} (h : Reduced guess f) : f.exponent ≠ 0 := by
  cases f with
  | pow b p =>
    have hn : NormalPower b p := h.normal
    exact hn.exponent_ne_zero
  | num | sym | prod | sum => exact one_ne_zero

/-! ### Sums -/

theorem constantTerm_numbers (us : List Expr) : constantTerm (numbers us) = constantTerm us := by
  induction us with
  | nil => rfl
  | cons u us ih =>
    cases u with
    | num q => exact congrArg (Rational.add q) ih
    | sym | pow | prod | sum => exact ih

theorem constantFactor_numbers (us : List Expr) :
    constantFactor (numbers us) = constantFactor us := by
  induction us with
  | nil => rfl
  | cons u us ih =>
    cases u with
    | num q => exact congrArg (Rational.multiply q) ih
    | sym | pow | prod | sum => exact ih

theorem numbers_cases {us : List Expr} (h : (numbers us).length ≤ 1) :
    numbers us = [] ∨ ∃ q, numbers us = [.num q] ∧ .num q ∈ us := by
  rcases hus : numbers us with _ | ⟨u, _ | ⟨v, vs⟩⟩
  · exact Or.inl rfl
  · have hu : u ∈ numbers us := by
      rw [hus]
      exact List.mem_cons_self
    obtain ⟨hmem, hrat⟩ := List.mem_filter.mp hu
    obtain ⟨q, rfl⟩ := kind_eq_rational_iff.mp (of_decide_eq_true hrat)
    exact Or.inr ⟨q, rfl, hmem⟩
  · rw [hus] at h
    simp at h

theorem besides_constantTerm {ts : List Expr} (h : NormalSum ts) :
    besides (constantTerm ts) 0 = numbers ts := by
  rw [← constantTerm_numbers]
  rcases numbers_cases h.numbers_le with hq | ⟨q, hq, hmem⟩
  · rw [hq]
    rfl
  · rw [hq, constantTerm_num_cons, constantTerm, add_zero]
    exact if_neg (h.number_ne q hmem)

/-- The terms of a reduced sum have stems of their own. -/
theorem nodup_stems_of_reduced {ts : List Expr} (h : Reduced guess (.sum ts)) :
    ((nonNumbers ts).map stem).Nodup := by
  have hn : NormalSum ts := h.normal
  have hkeys : (nonNumbers ts).map key = ((nonNumbers ts).map stem).map Except.ok := by
    rw [List.map_map]
    exact List.map_congr_left fun t ht =>
      key_of_wellFormed (h.term t (mem_nonNumbers.mp ht).1).wellFormed
  exact List.Nodup.of_map _ (hkeys ▸ hn.nodup_keys)

/-- A reduced term that is no sum, alone under its stem, comes down to itself. -/
theorem likeTermsOf_stem {t : Expr} (h : Reduced guess t) (hrat : t.kind ≠ .rational)
    (hsum : t.kind ≠ .sum) : isUnwrapped (t.stem, t.coefficient) = false ∧
      likeTermsOf (t.stem, t.coefficient) = [t] := by
  obtain ⟨-, h0, hterm⟩ := h.stem_spec hrat
  have hplain : isUnwrapped (t.stem, t.coefficient) = false := by
    rw [Bool.eq_false_iff]
    intro hu
    obtain ⟨hstem, h1⟩ := isUnwrapped_iff.mp hu
    rw [h1, withCoefficient, if_pos rfl] at hterm
    exact hsum (hterm ▸ hstem)
  refine ⟨hplain, ?_⟩
  rw [likeTermsOf_of_plain hplain, if_neg h0, hterm]

/-- Reduced terms that have stems of their own are collected to themselves. -/
theorem collected_of_nodup {ts : List Expr} (hts : ∀ t ∈ ts, Reduced guess t)
    (hsum : ∀ t ∈ ts, t.kind ≠ .sum) (hstems : ((nonNumbers ts).map stem).Nodup) :
    collectedTerms ts = nonNumbers ts ++ besides (constantTerm ts) 0 ∧ unwraps ts = false := by
  have hterm : ∀ t ∈ nonNumbers ts, isUnwrapped (t.stem, t.coefficient) = false ∧
      likeTermsOf (t.stem, t.coefficient) = [t] := by
    intro t ht
    obtain ⟨ht, hrat⟩ := mem_nonNumbers.mp ht
    exact likeTermsOf_stem (hts t ht) hrat (hsum t ht)
  have hgroups : Groups.collect (termEntries ts) = termEntries ts := by
    refine Groups.collect_eq_self ?_
    rw [termEntries, List.map_map]
    exact hstems
  have hlike : (termEntries ts).flatMap likeTermsOf = nonNumbers ts := by
    rw [termEntries, List.flatMap_map, List.flatMap_congr fun t ht => (hterm t ht).2]
    exact List.flatMap_singleton' _
  constructor
  · rw [collectedTerms, hgroups, hlike]
  · rw [unwraps, hgroups, termEntries, List.any_map, List.any_eq_false]
    intro t ht
    simp [(hterm t ht).1]

/-- The terms of a reduced sum are collected to themselves. -/
theorem collected_of_reduced {ts : List Expr} (h : Reduced guess (.sum ts)) :
    (collectedTerms ts).Perm ts ∧ unwraps ts = false := by
  have hn : NormalSum ts := h.normal
  obtain ⟨hcollected, hplain⟩ := collected_of_nodup h.term hn.ne_sum (nodup_stems_of_reduced h)
  refine ⟨?_, hplain⟩
  rw [hcollected, besides_constantTerm h.normal]
  exact nonNumbers_append_numbers_perm ts

/-! ### Products -/

/-- Reduced factors that have bases of their own all leave something. -/
theorem live_factorGroups_of_nodup {fs : List Expr} (hfs : ∀ f ∈ fs, Reduced guess f)
    (hbases : ((nonNumbers fs).map Expr.base).Nodup) :
    live (factorGroups fs []) = factorEntries fs := by
  have hgroups : Groups.collect (factorEntries fs) = factorEntries fs := by
    refine Groups.collect_eq_self ?_
    rw [factorEntries, List.map_map]
    exact hbases
  rw [factorGroups_eq, hgroups]
  refine List.filter_eq_self.mpr (forall_mem_factorEntries fun f hf _ => ?_)
  have := exponent_ne_zero (hfs f hf)
  simpa using this

/-- Reduced factors that have bases of their own are gathered to themselves, if the power of each
base is the factor that it is the base of. -/
theorem gathered_of_nodup {fs : List Expr} {w : Expr × Rat → Expr}
    (hfs : ∀ f ∈ fs, Reduced guess f) (hprod : ∀ f ∈ fs, f.kind ≠ .product)
    (hbases : ((nonNumbers fs).map Expr.base).Nodup)
    (hw : ∀ f ∈ fs, (f.base, f.exponent) ∈ live (factorGroups fs []) →
      w (f.base, f.exponent) = f) :
    (gathered w fs).factors = nonNumbers fs ∧ (gathered w fs).constant = constantFactor fs ∧
      ¬ (gathered w fs).Regroups := by
  have hlive := live_factorGroups_of_nodup hfs hbases
  have hpower : ∀ f ∈ nonNumbers fs, w (f.base, f.exponent) = f := by
    intro f hf
    refine hw f (mem_nonNumbers.mp hf).1 ?_
    rw [hlive]
    exact List.mem_map.mpr ⟨f, hf, rfl⟩
  have hplain : (powersOf w (factorGroups fs [])).fromProduct = false := by
    rw [fromProduct_powersOf, hlive, factorEntries, List.any_map, List.any_eq_false]
    intro f hf
    simp [hpower f hf, hprod f (mem_nonNumbers.mp hf).1]
  have hfactors : (gathered w fs).factors = nonNumbers fs := by
    show (powersOf w (factorGroups fs [])).factors = _
    rw [factors_powersOf_eq_map _ hplain, hlive, factorEntries, List.map_map]
    · exact (List.map_congr_left hpower).trans (List.map_id _)
    · rw [hlive]
      refine List.forall_mem_map.mpr fun f hf => ?_
      rw [hpower f hf]
      exact (mem_nonNumbers.mp hf).2
  have hone : ∀ f ∈ nonNumbers fs, constantOf (w (f.base, f.exponent)) = 1 := by
    intro f hf
    rw [hpower f hf]
    exact constantOf_of_ne (mem_nonNumbers.mp hf).2
  refine ⟨hfactors, ?_, ?_⟩
  · show constantFactor fs * (powersOf w (factorGroups fs [])).constant = _
    rw [constant_powersOf, hlive, factorEntries, List.map_map]
    exact (congrArg (_ * ·) (List.prod_eq_one (List.forall_mem_map.mpr hone))).trans (mul_one _)
  · rw [Powers.Regroups, hfactors, not_or, not_not]
    exact ⟨Bool.eq_false_iff.mp hplain, hbases⟩

theorem besides_constantFactor {fs : List Expr} (h : NormalProduct fs) :
    besides (constantFactor fs) 1 = numbers fs ∧ constantFactor fs ≠ 0 := by
  rw [← constantFactor_numbers]
  rcases numbers_cases h.numbers_le with hq | ⟨q, hq, hmem⟩
  · rw [hq]
    exact ⟨rfl, one_ne_zero⟩
  · obtain ⟨h0, h1⟩ := h.number_ne q hmem
    rw [hq, constantFactor_singleton]
    exact ⟨if_neg h1, h0⟩

/-- What the factors of an irreducible product are gathered to. -/
theorem gathered_of_irreducible {fs : List Expr} {v : Expr → Expr} {w : Expr × Rat → Expr}
    (he : Irreducible guess (.prod fs)) (hv : ∀ f ∈ fs, v f = f)
    (hw : ∀ g ∈ live (factorGroups (spliced .product (fs.map v)) []), Irreducible guess g.1 →
      power guess g.1 g.2 = .ok (w g)) :
    (gathered w (spliced .product (fs.map v))).factors = nonNumbers fs ∧
      (gathered w (spliced .product (fs.map v))).constant = constantFactor fs ∧
      ¬ (gathered w (spliced .product (fs.map v))).Regroups := by
  have hn : NormalProduct fs := he.reduced.normal
  rw [spliced_eq_self hv hn.ne_product] at hw ⊢
  have hpower : ∀ f ∈ fs, (f.base, f.exponent) ∈ live (factorGroups fs []) →
      w (f.base, f.exponent) = f := by
    intro f hf hlive
    have hf := he.factor f hf
    have hpower := hw _ hlive hf.base_of_factor
    rw [power_base_exponent hf] at hpower
    exact (Except.ok.inj hpower).symm
  exact gathered_of_nodup he.reduced.factor hn.ne_product hn.nodup_bases hpower

/-! ### Every irreducible expression -/

/-- What the pass makes of an irreducible expression, or of a power of one. -/
private theorem fixed_of_yields {e n : Expr} (h : Yields guess e n) :
    (Irreducible guess e → n = e) ∧
      ∀ b p, e = .pow b p → Irreducible guess b → power guess b p = .ok n := by
  induction h with
  | num q => exact ⟨fun _ => rfl, by simp⟩
  | sym x => exact ⟨fun _ => rfl, by simp⟩
  | @pow b b' n p _ hn ih =>
    constructor
    · intro he
      rw [ih.1 he.base, power_of_irreducible he] at hn
      exact (Except.ok.inj hn).symm
    · rintro _ _ ⟨⟩ hb
      rw [← ih.1 hb]
      exact hn
  | @sum ts terms n v _ hterms hn ih =>
    refine ⟨fun he => ?_, by simp⟩
    have hs : NormalSum ts := he.reduced.normal
    obtain ⟨hlen, hsorted, -⟩ := he.reduced.wellFormed
    rw [spliced_eq_self (fun t ht => (ih t ht).1 (he.term t ht)) hs.ne_sum] at hterms
    obtain ⟨rfl, -⟩ := eq_of_collected he.reduced.term hterms
    have hperm := (collected_of_reduced he.reduced).1
    rw [← hperm.length_eq] at hlen
    rw [total_of_two_le hlen] at hn
    rw [← Except.ok.inj hn, ofTerms, sort_eq_of_perm hperm, sort_eq_self hsorted]
  | @sumAgain ts terms d n v _ hterms _ _ ih _ =>
    refine ⟨fun he => ?_, by simp⟩
    have hs : NormalSum ts := he.reduced.normal
    rw [spliced_eq_self (fun t ht => (ih t ht).1 (he.term t ht)) hs.ne_sum] at hterms
    have hunwraps := (eq_of_collected he.reduced.term hterms).2
    rw [(collected_of_reduced he.reduced).2] at hunwraps
    cases hunwraps
  | @prodZero fs v w _ _ hzero ih ihw =>
    refine ⟨fun he => ?_, by simp⟩
    have hs : NormalProduct fs := he.reduced.normal
    obtain ⟨-, hconstant, -⟩ := gathered_of_irreducible he
      (fun f hf => (ih f hf).1 (he.factor f hf)) (fun g hg => (ihw g hg).2 _ _ rfl)
    rw [hconstant] at hzero
    exact absurd hzero (besides_constantFactor hs).2
  | @prod fs ps n v w _ _ hps _ _ hn ih ihw =>
    refine ⟨fun he => ?_, by simp⟩
    have hs : NormalProduct fs := he.reduced.normal
    obtain ⟨hlen, hsorted, -⟩ := he.reduced.wellFormed
    obtain ⟨hfactors, hconstant, -⟩ := gathered_of_irreducible he
      (fun f hf => (ih f hf).1 (he.factor f hf)) (fun g hg => (ihw g hg).2 _ _ rfl)
    have hperm := nonNumbers_append_numbers_perm fs
    rw [hps, hfactors, hconstant, (besides_constantFactor hs).1] at hn
    rw [← hperm.length_eq] at hlen
    rw [productOr_of_two_le _ hlen] at hn
    rw [← Except.ok.inj hn, ofFactors, sort_eq_of_perm hperm, sort_eq_self hsorted]
  | @prodAgain fs ps d n v w _ _ hps _ hregroups _ _ ih ihw _ =>
    refine ⟨fun he => ?_, by simp⟩
    obtain ⟨-, -, hplain⟩ := gathered_of_irreducible he
      (fun f hf => (ih f hf).1 (he.factor f hf)) (fun g hg => (ihw g hg).2 _ _ rfl)
    rw [← hps] at hplain
    exact absurd hregroups hplain

/-- Whatever the pass makes of an irreducible expression is the expression itself. -/
theorem eq_of_yields {e n : Expr} (he : Irreducible guess e) (h : Yields guess e n) : n = e :=
  (fixed_of_yields h).1 he

end ExactAlgebra.Canonical
