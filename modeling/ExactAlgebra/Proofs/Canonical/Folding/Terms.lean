import ExactAlgebra.Proofs.Canonical.Folding

/-!
# Folding terms

The folding of a sum (`foldingOfTerms`): a term is entered with its coefficient under its stem, and
a group is lost where its stem is a sum that ends with the coefficient one.
-/

namespace ExactAlgebra

namespace Expr

theorem oneFree_iff {e : Expr} : e.OneFree ↔ e.Exponents fun p => p ≠ 1 :=
  exponents_ne_iff.symm

theorem oneFree_factors_iff {u : Expr} : (∀ f ∈ u.factors, f.OneFree) ↔ u.OneFree := by
  simp only [oneFree_iff]
  cases u with
  | prod fs => exact exponents_prod.symm
  | num | sym | pow | sum => exact List.forall_mem_singleton

theorem oneFree_ofFactors_iff {fs : List Expr} : (ofFactors fs).OneFree ↔ ∀ f ∈ fs, f.OneFree := by
  simp only [oneFree_iff]
  exact exponents_ofFactors

theorem OneFree.stem {u : Expr} (h : u.OneFree) : u.stem.OneFree := by
  unfold Expr.stem
  split
  · exact oneFree_factors_iff.mpr h _ (by simp [factors])
  · refine oneFree_ofFactors_iff.mpr fun f hf => ?_
    exact oneFree_factors_iff.mpr h f (List.mem_cons_of_mem _ hf)
  · exact h

theorem OneFree.withCoefficient {k : Expr} (h : k.OneFree) (c : Rat) :
    (withCoefficient c k).OneFree := by
  rw [Expr.withCoefficient]
  split_ifs
  · exact h
  · rw [oneFree_ofFactors_iff, List.forall_mem_cons]
    exact ⟨oneFree_num c, oneFree_factors_iff.mpr h⟩

end Expr

namespace Canonical

open ExactAlgebra.Expr

variable {guess : RootGuess}

/-! ### What terms are worth -/

/-- What a term is worth: its coefficient under its stem, or the number that it is. -/
noncomputable def termWorth : Expr → (Expr →₀ ℚ) × ℚ
  | .num q => (0, q)
  | u => (Finsupp.single u.stem u.coefficient, 0)

theorem termWorth_of_ne {u : Expr} (h : u.kind ≠ .rational) :
    termWorth u = (Finsupp.single u.stem u.coefficient, 0) := by
  cases u with
  | num => exact absurd rfl h
  | sym | pow | prod | sum => rfl

theorem worthAll_termWorth (us : List Expr) :
    worthAll termWorth us = (Groups.amounts (termEntries us), constantTerm us) := by
  induction us with
  | nil => rfl
  | cons u us ih =>
    rw [worthAll_cons, ih]
    by_cases h : u.kind = .rational
    · obtain ⟨q, rfl⟩ := kind_eq_rational_iff.mp h
      rw [constantTerm_num_cons]
      exact Prod.ext (zero_add _) rfl
    · rw [termWorth_of_ne h, constantTerm_cons_of_ne us h, termEntries_cons_of_ne us h,
        Groups.amounts_cons]
      exact Prod.ext rfl (zero_add _)

theorem constantTerm_append (us vs : List Expr) :
    constantTerm (us ++ vs) = constantTerm us + constantTerm vs := by
  have h := congrArg Prod.snd (worthAll_append termWorth us vs)
  rwa [worthAll_termWorth, worthAll_termWorth, worthAll_termWorth] at h

theorem IsStem.coefficient_withCoefficient {k : Expr} (hk : IsStem guess k) (c : Rat) :
    (withCoefficient c k).coefficient = c :=
  coefficient_withCoefficient_of_wellFormed hk.reduced.wellFormed hk.factor_ne_number c

theorem IsStem.termWorth_withCoefficient {k : Expr} (hk : IsStem guess k) (c : Rat) :
    termWorth (withCoefficient c k) = (Finsupp.single k c, 0) := by
  rw [termWorth_of_ne (hk.kind_withCoefficient_ne_rational c), hk.stem_withCoefficient,
    hk.coefficient_withCoefficient]

/-- Like terms that are not unwrapped are worth their coefficient. -/
theorem IsStem.worth_likeTermsOf {k : Expr} (hk : IsStem guess k) {c : Rat}
    (h : isUnwrapped (k, c) = false) :
    worthAll termWorth (likeTermsOf (k, c)) = (Finsupp.single k c, 0) := by
  rw [likeTermsOf_of_plain h]
  by_cases h0 : c = 0
  · rw [if_pos h0, h0, Finsupp.single_zero]
    rfl
  · rw [if_neg h0, worthAll_singleton, hk.termWorth_withCoefficient]

/-! ### What terms come to -/

section

variable {us : List Expr} (hus : ∀ u ∈ us, Reduced guess u)

include hus

theorem sumForm_of_plain (h : unwraps us = false) :
    sumForm guess us = total (collectedTerms us) := by
  rw [sumForm, Canonical.sum, collected_of_wellFormed fun u hu => (hus u hu).wellFormed, h]
  rfl

theorem sumForm_of_unwraps (h : unwraps us = true) :
    sumForm guess us = (ofTerms (collectedTerms us)).simplify guess := by
  have hlen := two_le_length_collectedTerms hus h
  have hterms := collected_of_wellFormed fun u hu => (hus u hu).wellFormed
  rw [h] at hterms
  rw [sumForm, Canonical.sum, hterms]
  show (Traced.lift (sumOf (collectedTerms us)) >>= simplifyTraced guess).outcome = _
  rw [sumOf_eq_ok_iff.mpr ⟨hlen, rfl⟩]
  rfl

/-- Terms that have stems of their own come to their sum. -/
theorem sumForm_of_nodup (hsum : ∀ u ∈ us, u.kind ≠ .sum)
    (hstems : ((nonNumbers us).map stem).Nodup) :
    sumForm guess us = total (nonNumbers us ++ besides (constantTerm us) 0) := by
  obtain ⟨hcollected, hplain⟩ := collected_of_nodup hus hsum hstems
  rw [sumForm_of_plain hus hplain, hcollected]

theorem reduced_of_sumForm {m : Expr} (h : sumForm guess us = .ok m) : Reduced guess m := by
  cases hplain : unwraps us with
  | true =>
    rw [sumForm_of_unwraps hus hplain] at h
    exact reduced_of_yields (yields_of_simplifyTraced h)
  | false =>
    rw [sumForm_of_plain hus hplain] at h
    have hreduced := reduced_collectedTerms hus
    refine of_total h (fun _ => reduced_num 0) hreduced fun hlen => ?_
    exact reduced_ofTerms hreduced hlen (normalSum_collectedTerms hus hplain)

end

theorem likeTermsOf_zero (k : Expr) : likeTermsOf (k, 0) = [] :=
  if_pos rfl

theorem likeTerms_perm {us vs : List Expr}
    (h : Groups.amounts (termEntries us) = Groups.amounts (termEntries vs)) :
    ((Groups.collect (termEntries us)).flatMap likeTermsOf).Perm
      ((Groups.collect (termEntries vs)).flatMap likeTermsOf) := by
  have hlive := flatMap_live likeTermsOf_zero
  rw [← hlive (Groups.collect (termEntries us)), ← hlive (Groups.collect (termEntries vs))]
  exact (live_collect_perm h).flatMap_right _

theorem unwraps_congr {us vs : List Expr}
    (h : Groups.amounts (termEntries us) = Groups.amounts (termEntries vs)) :
    unwraps us = unwraps vs := by
  have hlive : ∀ us, unwraps us = (live (Groups.collect (termEntries us))).any isUnwrapped := by
    intro us
    rw [unwraps, live, List.any_filter]
    refine congrArg (List.any _) (funext fun g => ?_)
    by_cases hg : isUnwrapped g = true
    · simp [hg, (isUnwrapped_iff.mp hg).2]
    · simp [hg]
  rw [hlive, hlive]
  exact (live_collect_perm h).any_eq

/-- What terms come to is settled by what they are worth. -/
theorem sumForm_congr {us vs : List Expr} (hus : ∀ u ∈ us, Reduced guess u)
    (hvs : ∀ v ∈ vs, Reduced guess v) (h : worthAll termWorth us = worthAll termWorth vs) :
    sumForm guess us = sumForm guess vs := by
  rw [worthAll_termWorth, worthAll_termWorth] at h
  obtain ⟨hamounts, hconstant⟩ := Prod.mk.inj h
  have hperm : (collectedTerms us).Perm (collectedTerms vs) := by
    rw [collectedTerms, collectedTerms, hconstant]
    exact (likeTerms_perm hamounts).append_right _
  have hunwraps := unwraps_congr hamounts
  cases hplain : unwraps vs with
  | true =>
    rw [sumForm_of_unwraps hus (hunwraps.trans hplain), sumForm_of_unwraps hvs hplain, ofTerms,
      ofTerms, sort_eq_of_perm hperm]
  | false =>
    rw [sumForm_of_plain hus (hunwraps.trans hplain), sumForm_of_plain hvs hplain,
      total_eq_of_perm hperm]

/-- A sum comes to what its parts come to, in whatever order they are. -/
theorem simplify_ofTerms {es : List Expr} (hes : ∀ e ∈ es, ∃ n, e.simplify guess = .ok n) :
    (ofTerms es).simplify guess = sumForm guess (parts guess .sum es) := by
  have hsort : ∀ e ∈ sort es, ∃ n, e.simplify guess = .ok n := fun e he => hes e (mem_sort.mp he)
  rw [ofTerms, simplify_sum hsort]
  exact sumForm_congr (reduced_parts hsort .sum) (reduced_parts hes .sum)
    (worthAll_perm termWorth (parts_perm .sum (sort_perm es)))

/-! ### Folding terms once -/

/-- Terms with their groups turned into terms, and their number. -/
def foldedTerms (us : List Expr) : List Expr :=
  (Groups.collect (termEntries us)).flatMap likeTermsOf ++ [.num (constantTerm us)]

theorem worth_collectedTerms (us : List Expr) :
    worthAll termWorth (collectedTerms us) = worthAll termWorth (foldedTerms us) := by
  have hbesides : ∀ c, worthAll termWorth (besides c 0) = worthAll termWorth [.num c] := by
    intro c
    rw [besides]
    split_ifs with h
    · rw [h, worthAll_singleton]
      rfl
    · rfl
  rw [collectedTerms, foldedTerms, worthAll_append, worthAll_append, hbesides]

theorem worth_foldedTerms_congr {us vs : List Expr}
    (h : worthAll termWorth us = worthAll termWorth vs) :
    worthAll termWorth (foldedTerms us) = worthAll termWorth (foldedTerms vs) := by
  rw [worthAll_termWorth us, worthAll_termWorth vs] at h
  obtain ⟨hamounts, hconstant⟩ := Prod.mk.inj h
  rw [foldedTerms, foldedTerms, hconstant]
  exact worthAll_perm termWorth ((likeTerms_perm hamounts).append_right _)

theorem worth_foldedTerms_of_plain {us : List Expr} (hus : ∀ u ∈ us, Reduced guess u)
    (h : unwraps us = false) : worthAll termWorth (foldedTerms us) = worthAll termWorth us := by
  have hplain : ∀ g ∈ Groups.collect (termEntries us), isUnwrapped g = false := by
    simpa [unwraps] using h
  have hgroups : ∀ gs : Groups, (∀ g ∈ gs, IsStem guess g.1 ∧ isUnwrapped g = false) →
      worthAll termWorth (gs.flatMap likeTermsOf) = (Groups.amounts gs, 0) := by
    intro gs hgs
    induction gs with
    | nil => rfl
    | cons g gs ih =>
      obtain ⟨⟨hstem, hg⟩, hgs⟩ := List.forall_mem_cons.mp hgs
      rw [List.flatMap_cons, worthAll_append, ih hgs, hstem.worth_likeTermsOf hg,
        Groups.amounts_cons]
      exact Prod.ext rfl (add_zero _)
  rw [foldedTerms, worthAll_append, worthAll_singleton, worthAll_termWorth us,
    hgroups _ fun g hg => ⟨isStem_of_mem_groups hus g hg, hplain g hg⟩, Groups.amounts_collect]
  exact Prod.ext (add_zero _) (zero_add _)

/-- Terms that are not unwrapped are worth what they come to. -/
theorem worth_sumForm_of_plain {us : List Expr} {m : Expr} (hus : ∀ u ∈ us, Reduced guess u)
    (h : unwraps us = false) (hm : sumForm guess us = .ok m) :
    worthAll termWorth (spliced .sum [m]) = worthAll termWorth us := by
  have hnormal := normalSum_collectedTerms hus h
  rw [sumForm_of_plain hus h] at hm
  rw [← worth_foldedTerms_of_plain hus h, ← worth_collectedTerms, spliced_singleton]
  rcases total_eq_ok hm with ⟨hnil, rfl⟩ | hone | ⟨-, rfl⟩
  · rw [hnil, if_neg (by decide), worthAll_singleton]
    rfl
  · have hmem : m ∈ collectedTerms us := by
      rw [hone]
      exact List.mem_singleton_self m
    rw [hone, if_neg (hnormal.ne_sum m hmem)]
  · exact worthAll_perm termWorth (sort_perm _)

theorem size_foldedTerms_lt {us : List Expr} (hus : ∀ u ∈ us, Reduced guess u)
    (h : unwraps us = true) : sizeAll (foldedTerms us) < sizeAll us := by
  have hsize := size_collectedTerms hus
  rw [collectedTerms, sizeAll_append_besides, h, Bool.toNat_true] at hsize
  rw [foldedTerms, sizeAll_append, sizeAll_cons, size_num, sizeAll_nil]
  omega

section

variable {us : List Expr} (hus : Firm guess .sum us)

include hus

/-- The groups of irreducible terms are groups of stems that are irreducible. -/
theorem Firm.stem_of_mem_groups :
    ∀ g ∈ Groups.collect (termEntries us), IsStem guess g.1 ∧ g.1.OneFree := by
  refine Groups.forall_mem_collect (I := fun k _ => IsStem guess k ∧ k.OneFree)
    (fun _ _ _ h _ => h) ?_
  refine forall_mem_termEntries fun u hu hrat => ?_
  have hu := (hus u hu).1
  exact ⟨(hu.reduced.stem_spec hrat).1, hu.oneFree.stem⟩

theorem firm_foldedTerms : Firm guess .sum (foldedTerms us) := by
  refine List.forall_mem_append.mpr ⟨fun t ht => ?_, List.forall_mem_singleton.mpr ?_⟩
  · obtain ⟨⟨k, c⟩, hg, ht⟩ := List.mem_flatMap.mp ht
    obtain ⟨hk, hone⟩ := hus.stem_of_mem_groups _ hg
    cases hu : isUnwrapped (k, c) with
    | true =>
      rw [likeTermsOf_of_unwrapped hu] at ht
      have hsum := (isUnwrapped_iff.mp hu).1
      have hirreducible : Irreducible guess k := ⟨hk.reduced, hone⟩
      cases k with
      | sum ts =>
        have hn : NormalSum ts := hk.reduced.normal
        exact ⟨hirreducible.term t ht, hn.ne_sum t ht⟩
      | num | sym | pow | prod => cases hsum
    | false =>
      obtain ⟨h0, rfl⟩ := mem_likeTermsOf hu ht
      exact ⟨⟨hk.reduced_withCoefficient h0, hone.withCoefficient c⟩,
        hk.kind_withCoefficient_ne_sum hu⟩
  · exact ⟨irreducible_num _, by simp [kind]⟩

/-- A sum of irreducible terms comes to what its terms come to. -/
theorem simplify_ofTerms_of_firm : (ofTerms us).simplify guess = sumForm guess us := by
  rw [simplify_ofTerms fun t ht => ⟨t, simplify_of_irreducible (hus t ht).1⟩,
    parts_of_irreducible hus]

/-- Terms folded once come to what they came to before. -/
theorem sumForm_foldedTerms : sumForm guess (foldedTerms us) = sumForm guess us := by
  have hreduced : ∀ u ∈ us, Reduced guess u := fun u hu => (hus u hu).1.reduced
  have hfolded := firm_foldedTerms hus
  cases h : unwraps us with
  | false =>
    exact sumForm_congr (fun u hu => (hfolded u hu).1.reduced) hreduced
      (worth_foldedTerms_of_plain hreduced h)
  | true =>
    have hcollected : Firm guess .sum (collectedTerms us) := by
      refine List.forall_mem_append.mpr ⟨(List.forall_mem_append.mp hfolded).1, fun t ht => ?_⟩
      obtain ⟨rfl, -⟩ := mem_besides.mp ht
      exact ⟨irreducible_num _, by simp [kind]⟩
    rw [sumForm_of_unwraps hreduced h, simplify_ofTerms_of_firm hcollected]
    exact sumForm_congr (fun u hu => (hfolded u hu).1.reduced)
      (fun u hu => (hcollected u hu).1.reduced) (worth_collectedTerms us).symm

/-- Stems other than sums have their coefficients added. -/
theorem worth_likeTermsOf_add : ∀ g ∈ termEntries us, ¬ g.1.kind = .sum → ∀ x y,
    worthAll termWorth (likeTermsOf (g.1, x + y)) =
      worthAll termWorth (likeTermsOf (g.1, x)) + worthAll termWorth (likeTermsOf (g.1, y)) := by
  refine forall_mem_termEntries fun u hu hrat hsum x y => ?_
  have hk := ((hus u hu).1.reduced.stem_spec hrat).1
  have hplain : ∀ c, isUnwrapped (u.stem, c) = false := by
    intro c
    rw [Bool.eq_false_iff, ne_eq, isUnwrapped_iff]
    exact fun h => hsum h.1
  rw [hk.worth_likeTermsOf (hplain _), hk.worth_likeTermsOf (hplain _),
    hk.worth_likeTermsOf (hplain _), Finsupp.single_add]
  exact Prod.ext rfl (add_zero 0).symm

/-- A term that a group is turned into has the stem of the group, or is a term of it. -/
theorem stem_of_mem_likeTermsOf :
    ∀ g ∈ Groups.collect (termEntries us), ∀ t ∈ likeTermsOf g, t.kind ≠ .rational →
      t.stem = g.1 ∨ g.1.kind = .sum ∧ t ∈ g.1.children := by
  intro g hg t ht _
  obtain ⟨hk, -⟩ := hus.stem_of_mem_groups g hg
  cases hu : isUnwrapped g with
  | true =>
    rw [likeTermsOf_of_unwrapped hu] at ht
    exact Or.inr ⟨(isUnwrapped_iff.mp hu).1, ht⟩
  | false =>
    obtain ⟨-, rfl⟩ := mem_likeTermsOf hu ht
    exact Or.inl (hk.stem_withCoefficient g.2)

end

/-- Sums fold like terms; a group is lost where a whole sum is unwrapped. -/
noncomputable def foldingOfTerms (guess : RootGuess) : Folding guess ((Expr →₀ ℚ) × ℚ) where
  kind := .sum
  node := ofTerms
  key := stem
  amount := coefficient
  drawn := likeTermsOf
  constant := constantTerm
  form := sumForm guess
  worth := termWorth
  Plain us := unwraps us = false
  Loses k := k.kind = .sum
  kind_ne := by decide
  exists_simplify_node_iff := exists_simplify_ofTerms_iff
  simplify_node := simplify_ofTerms
  worth_constant us vs := by
    rw [constantTerm_append]
    exact Prod.ext (add_zero 0).symm rfl
  drawn_zero := likeTermsOf_zero
  drawn_add := worth_likeTermsOf_add
  key_of_mem_drawn := stem_of_mem_likeTermsOf
  form_congr hus hvs := sumForm_congr (fun u hu => (hus u hu).1) fun v hv => (hvs v hv).1
  worth_folded_congr := worth_foldedTerms_congr
  firm_folded := firm_foldedTerms
  form_folded := sumForm_foldedTerms
  worth_folded_of_plain hus := worth_foldedTerms_of_plain fun u hu => (hus u hu).1
  size_folded_lt hus h := by
    refine size_foldedTerms_lt (fun u hu => (hus u hu).1.reduced) ?_
    simpa using h
  reduced_form hus := reduced_of_sumForm fun u hu => (hus u hu).1
  worth_form_of_plain hus := worth_sumForm_of_plain fun u hu => (hus u hu).1

end Canonical

end ExactAlgebra
