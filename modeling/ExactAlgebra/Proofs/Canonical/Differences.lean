import ExactAlgebra.Proofs.Canonical.Folding.Factors

/-!
# Differences

An expression taken away from itself comes to its form beside the negative of that
(`simplify_difference`), and the two add up to zero unless one of them is a sum. A sum is spliced
into the difference, while its negative stays one term, so they do not meet: a number multiplied
into a sum is not multiplied out. `simplify_difference_eq_zero_iff` says which forms are taken away.
-/

namespace ExactAlgebra

namespace Expr

/-- The negative of a form. -/
def negation : Expr → Expr
  | num q => num (-q)
  | u => withCoefficient (-u.coefficient) u.stem

theorem negation_of_ne {u : Expr} (h : u.kind ≠ .rational) :
    u.negation = withCoefficient (-u.coefficient) u.stem := by
  cases u with
  | num => exact absurd rfl h
  | sym | pow | prod | sum => rfl

end Expr

namespace Canonical

open ExactAlgebra.Expr

variable {guess : RootGuess}

/-! ### Negatives -/

theorem Reduced.constantFactor_factors {u : Expr} (h : Reduced guess u) (hu : u.kind ≠ .rational) :
    constantFactor u.factors = u.coefficient := by
  have hplain := (h.stem_spec hu).1.factor_ne_number
  have hstem : constantFactor u.stem.factors = 1 := by
    rw [← constantFactor_numbers, numbers_eq_nil hplain]
    rfl
  rw [h.factors_eq hu]
  split_ifs with hc
  · rw [hstem, hc]
  · rw [constantFactor_num_cons, hstem, mul_one]

/-- A stem multiplied by a number other than zero. -/
theorem IsStem.productOr_eq {k : Expr} (hk : IsStem guess k) (c : Rat) :
    productOr (.num c) (k.factors ++ besides c 1) = .ok (withCoefficient c k) := by
  rw [besides]
  split_ifs with hc
  · rw [List.append_nil, productOr_factors _ hk.reduced.wellFormed, withCoefficient, if_pos hc]
  · have hperm : (k.factors ++ [Expr.num c]).Perm (.num c :: k.factors) :=
      List.perm_append_singleton _ _
    have hlen : 2 ≤ (Expr.num c :: k.factors).length :=
      Nat.succ_le_succ (List.length_pos_iff.mpr (factors_ne_nil hk.reduced.wellFormed))
    rw [productOr_eq_of_perm _ hperm, productOr_of_two_le _ hlen, withCoefficient, if_neg hc]

theorem simplify_negated {e n : Expr} (hn : e.simplify guess = .ok n) (h : Irreducible guess n) :
    e.negated.simplify guess = .ok n.negation := by
  have hnum : (Expr.num (-1)).simplify guess = .ok (.num (-1)) := rfl
  have hfirm : Firm guess .product (.num (-1) :: n.factors) :=
    List.forall_mem_cons.mpr ⟨⟨irreducible_num _, by simp [kind]⟩, h.firm_factors⟩
  have hes : ∀ d ∈ [Expr.num (-1), e], ∃ m, d.simplify guess = .ok m := by
    simp [hnum, hn]
  have hconstant : constantFactor (.num (-1) :: n.factors) = -constantFactor n.factors := by
    rw [constantFactor_num_cons, neg_one_mul]
  rw [negated, times, simplify_ofFactors hes, parts_cons _ _ hnum, parts_cons _ _ hn,
    spliced_product_singleton, spliced_product_singleton]
  show productForm guess (.num (-1) :: (n.factors ++ [])) = _
  rw [List.append_nil, productForm_of_nodup hfirm h.reduced.nodup_bases, hconstant,
    nonNumbers_num_cons]
  by_cases hrat : n.kind = .rational
  · obtain ⟨q, rfl⟩ := kind_eq_rational_iff.mp hrat
    have hq : constantFactor (Expr.num q).factors = q := constantFactor_singleton q
    rw [hq, show nonNumbers (Expr.num q).factors = [] from rfl, List.nil_append, besides]
    split_ifs with h0 h1
    · rw [negation, h0]
    · rfl
    · rfl
  · obtain ⟨hstem, h0, -⟩ := h.reduced.stem_spec hrat
    rw [h.reduced.constantFactor_factors hrat, h.reduced.nonNumbers_factors hrat,
      if_neg (neg_ne_zero.mpr h0), hstem.productOr_eq, negation_of_ne hrat]

/-! ### Differences -/

/-- The difference of an expression and itself comes to what its form and the negative of that come
to. -/
theorem simplify_difference {e n : Expr} (hn : e.simplify guess = .ok n)
    (h : Irreducible guess n) : (ofTerms [e, e.negated]).simplify guess =
      sumForm guess (spliced .sum [n] ++ spliced .sum [n.negation]) := by
  have hnegated := simplify_negated hn h
  have hes : ∀ d ∈ [e, e.negated], ∃ m, d.simplify guess = .ok m := by
    simp [hnegated, hn]
  rw [simplify_ofTerms hes, parts_cons _ _ hn, parts_cons _ _ hnegated]
  show sumForm guess (_ ++ (_ ++ [])) = _
  rw [List.append_nil]

/-- A sum is a stem. -/
theorem Reduced.isStem_sum {ts : List Expr} (h : Reduced guess (.sum ts)) :
    IsStem guess (.sum ts) :=
  ⟨h, by simp [kind], List.forall_mem_singleton.mpr (by simp [kind])⟩

theorem reduced_negative_cons {ts : List Expr} (h : Reduced guess (.sum ts)) :
    ∀ t ∈ Expr.prod [.num (-1), .sum ts] :: ts, Reduced guess t := by
  have hc := h.isStem_sum.reduced_withCoefficient (c := -1) (by norm_num)
  rw [h.isStem_sum.withCoefficient_eq (by norm_num)] at hc
  exact List.forall_mem_cons.mpr ⟨hc, h.term⟩

/-- The stems of the terms of a sum are smaller than the sum. -/
theorem notMem_stems {ts : List Expr} (h : Reduced guess (.sum ts)) :
    Expr.sum ts ∉ (nonNumbers ts).map stem := by
  intro hmem
  obtain ⟨t, ht, heq⟩ := List.mem_map.mp hmem
  obtain ⟨ht, hrat⟩ := mem_nonNumbers.mp ht
  have hle := le_size_withCoefficient t.coefficient t.stem
  rw [((h.term t ht).stem_spec hrat).2.2, heq, size_sum] at hle
  have := size_le_sizeAll ht
  omega

/-- The terms of a sum, beside the negative of the sum, come to the sum of them all. -/
theorem sumForm_negative_cons {ts : List Expr} (h : Reduced guess (.sum ts)) :
    sumForm guess (.prod [.num (-1), .sum ts] :: ts) =
      .ok (ofTerms (.prod [.num (-1), .sum ts] :: ts)) := by
  have hn : NormalSum ts := h.normal
  have hstems : ((nonNumbers (.prod [.num (-1), .sum ts] :: ts)).map stem).Nodup := by
    rw [nonNumbers_cons_of_ne ts (by simp [kind])]
    exact List.nodup_cons.mpr ⟨notMem_stems h, nodup_stems_of_reduced h⟩
  have hperm : (nonNumbers (.prod [.num (-1), .sum ts] :: ts) ++
      besides (constantTerm (.prod [.num (-1), .sum ts] :: ts)) 0).Perm
        (.prod [.num (-1), .sum ts] :: ts) := by
    rw [nonNumbers_cons_of_ne ts (by simp [kind]), constantTerm_cons_of_ne ts (by simp [kind]),
      besides_constantTerm hn]
    exact (nonNumbers_append_numbers_perm ts).cons _
  have hlen : 2 ≤ (Expr.prod [.num (-1), .sum ts] :: ts).length :=
    h.wellFormed.1.trans (Nat.le_succ _)
  rw [sumForm_of_nodup (reduced_negative_cons h)
    (List.forall_mem_cons.mpr ⟨by simp [kind], hn.ne_sum⟩) hstems, total_eq_of_perm hperm,
    total_of_two_le hlen]

theorem sumForm_eq_zero {us : List Expr} (hus : ∀ u ∈ us, Reduced guess u)
    (h : worthAll termWorth us = 0) : sumForm guess us = .ok (.num 0) := by
  have hnil : ∀ u ∈ ([] : List Expr), Reduced guess u := by simp
  exact sumForm_congr hus hnil h

theorem Reduced.negation {n : Expr} (h : Reduced guess n) : Reduced guess n.negation := by
  by_cases hrat : n.kind = .rational
  · obtain ⟨q, rfl⟩ := kind_eq_rational_iff.mp hrat
    exact reduced_num _
  · obtain ⟨hstem, h0, -⟩ := h.stem_spec hrat
    rw [negation_of_ne hrat]
    exact hstem.reduced_withCoefficient (neg_ne_zero.mpr h0)

theorem termWorth_negation {n : Expr} (h : Reduced guess n) :
    termWorth n + termWorth n.negation = 0 := by
  by_cases hrat : n.kind = .rational
  · obtain ⟨q, rfl⟩ := kind_eq_rational_iff.mp hrat
    exact Prod.ext (add_zero 0) (add_neg_cancel q)
  · have hstem := (h.stem_spec hrat).1
    rw [negation_of_ne hrat, hstem.termWorth_withCoefficient, termWorth_of_ne hrat,
      Prod.mk_add_mk, ← Finsupp.single_add, add_neg_cancel, Finsupp.single_zero, add_zero]
    rfl

/-- The negative of a form is a sum only if the form is the negative of that sum. -/
theorem eq_of_negation_eq_sum {n : Expr} (h : Reduced guess n) {ts : List Expr}
    (hsum : n.negation = .sum ts) : n = .prod [.num (-1), .sum ts] := by
  have hrat : n.kind ≠ .rational := by
    intro hrat
    obtain ⟨q, rfl⟩ := kind_eq_rational_iff.mp hrat
    cases hsum
  obtain ⟨hstem, -, hterm⟩ := h.stem_spec hrat
  rw [negation_of_ne hrat] at hsum
  by_cases hc : -n.coefficient = 1
  · rw [withCoefficient, if_pos hc] at hsum
    rw [hsum, neg_eq_iff_eq_neg.mp hc] at hterm
    rw [hsum] at hstem
    rw [← hterm, hstem.withCoefficient_eq (by norm_num)]
    rfl
  · rw [hstem.withCoefficient_eq hc] at hsum
    cases hsum

/-- A form that is a sum, or the negative of one, is not taken away from itself: the sum is spliced
into the difference, and its negative is not. -/
theorem simplify_difference_of_sum {e n : Expr} (hn : e.simplify guess = .ok n)
    (h : Irreducible guess n) {ts : List Expr}
    (hsum : n = .sum ts ∨ n = .prod [.num (-1), .sum ts]) :
    (ofTerms [e, e.negated]).simplify guess =
      .ok (ofTerms (.prod [.num (-1), .sum ts] :: ts)) := by
  have hreduced : Reduced guess (.sum ts) := by
    rcases hsum with rfl | rfl
    · exact h.reduced
    · exact h.reduced.factor _ (by simp)
  have hperm : (spliced .sum [n] ++ spliced .sum [n.negation]).Perm
      (.prod [.num (-1), .sum ts] :: ts) := by
    rw [spliced_singleton, spliced_singleton]
    rcases hsum with rfl | rfl
    · exact List.perm_append_singleton _ ts
    · exact List.Perm.refl (_ :: ts)
  have hcons := reduced_negative_cons hreduced
  rw [simplify_difference hn h, ← sumForm_negative_cons hreduced]
  exact sumForm_congr (fun u hu => hcons u (hperm.mem_iff.mp hu)) hcons
    (worthAll_perm termWorth hperm)

/-- The difference of an expression and itself is zero unless the form of the expression is a sum
or the negative of one. -/
theorem simplify_difference_eq_zero_iff {e n : Expr} (hn : e.simplify guess = .ok n)
    (h : Irreducible guess n) : (ofTerms [e, e.negated]).simplify guess = .ok (.num 0) ↔
      ∀ ts, n ≠ .sum ts ∧ n ≠ .prod [.num (-1), .sum ts] := by
  constructor
  · intro hzero ts
    rw [← not_or]
    intro hsum
    rw [simplify_difference_of_sum hn h hsum] at hzero
    cases hzero
  · intro hnone
    have hkind : n.kind ≠ .sum := by
      intro hkind
      cases n with
      | sum ts => exact (hnone ts).1 rfl
      | num | sym | pow | prod => cases hkind
    have hkind' : n.negation.kind ≠ .sum := by
      intro hkind
      cases hneg : n.negation with
      | sum ts => exact (hnone ts).2 (eq_of_negation_eq_sum h.reduced hneg)
      | num | sym | pow | prod =>
        rw [hneg] at hkind
        cases hkind
    rw [simplify_difference hn h, spliced_singleton, spliced_singleton, if_neg hkind,
      if_neg hkind']
    refine sumForm_eq_zero ?_ ?_
    · simp [h.reduced, h.reduced.negation]
    · exact (congrArg (_ + ·) (add_zero _)).trans (termWorth_negation h.reduced)

end Canonical

end ExactAlgebra
