import ExactAlgebra.Expr.Build

/-!
# One node for each collection of children

The canonical order is total, and nodes keep their children in it. So a sum or a product depends on
the collection of its children and on nothing else: lists build the same node exactly if they are
permutations of each other (`sumOf_eq_sumOf_iff`, `prodOf_eq_prodOf_iff`). The laws of the order and
what they mean for the nodes are put together in `canonical_order`.
-/

namespace ExactAlgebra.Expr

/-- Lists sort to the same list exactly if one is a permutation of the other. -/
theorem sort_eq_sort_iff {xs ys : List Expr} : sort xs = sort ys ↔ xs.Perm ys := by
  constructor
  · intro h
    exact (sort_perm xs).symm.trans (h ▸ sort_perm ys)
  · exact sort_eq_of_perm

variable {xs ys : List Expr}

/-- The lists that sort to the same list as one of two at least have as many members themselves. -/
theorem two_le_length_and_sort_eq_iff (hxs : 2 ≤ xs.length) :
    2 ≤ ys.length ∧ sort xs = sort ys ↔ ys.Perm xs := by
  rw [eq_comm, sort_eq_sort_iff]
  refine and_iff_right_of_imp fun h => ?_
  rwa [h.length_eq]

/-- At least two terms build the same sum as exactly their permutations do. -/
theorem sumOf_eq_sumOf_iff (hxs : 2 ≤ xs.length) : sumOf ys = sumOf xs ↔ ys.Perm xs := by
  rw [sumOf_eq_ok_iff.mpr ⟨hxs, rfl⟩, sumOf_eq_ok_iff, ofTerms, ofTerms, sum.injEq]
  exact two_le_length_and_sort_eq_iff hxs

/-- At least two factors build the same product as exactly their permutations do. -/
theorem prodOf_eq_prodOf_iff (hxs : 2 ≤ xs.length) : prodOf ys = prodOf xs ↔ ys.Perm xs := by
  rw [prodOf_eq_ok_iff.mpr ⟨hxs, rfl⟩, prodOf_eq_ok_iff, ofFactors, ofFactors, prod.injEq]
  exact two_le_length_and_sort_eq_iff hxs

/-- Comparing the other way round turns the answer around; what does not come after something that
does not come after a third does not come after that; and only equal expressions are compared as
equal. At least two expressions build a sum and a product of all of them in canonical order, and the
lists that build the same are the permutations of theirs. -/
theorem canonical_order (a b c : Expr) (hxs : 2 ≤ xs.length) :
    compare a b = (compare b a).swap ∧
      (compare a b ≠ .gt → compare b c ≠ .gt → compare a c ≠ .gt) ∧
      (compare a b = .eq ↔ a = b) ∧
      (∃ zs, sumOf xs = .ok (sum zs) ∧ prodOf xs = .ok (prod zs) ∧
        zs.Pairwise (compare · · ≠ .gt) ∧ zs.Perm xs) ∧
      ∀ ys, (sumOf ys = sumOf xs ↔ ys.Perm xs) ∧ (prodOf ys = prodOf xs ↔ ys.Perm xs) := by
  refine ⟨compare_swap b a, compare_trans, compare_eq_iff, ⟨sort xs, ?_⟩, fun ys => ?_⟩
  · have hsum : sumOf xs = .ok (ofTerms xs) := sumOf_eq_ok_iff.mpr ⟨hxs, rfl⟩
    have hprod : prodOf xs = .ok (ofFactors xs) := prodOf_eq_ok_iff.mpr ⟨hxs, rfl⟩
    exact ⟨hsum, hprod, pairwise_sort xs, sort_perm xs⟩
  · exact ⟨sumOf_eq_sumOf_iff hxs, prodOf_eq_prodOf_iff hxs⟩

/-- A number before a power, and both before a letter. -/
def inOrder : List Expr :=
  [num 3, num 3, pow (num 2) (1 / 2), sym ⟨'k', by decide⟩]

/-- The other way round the same sum is built, and the same product. -/
theorem canonical_order_reverse :
    2 ≤ inOrder.length ∧
      compare (sym ⟨'k', by decide⟩) (num 3) = (compare (num 3) (sym ⟨'k', by decide⟩)).swap ∧
      sumOf inOrder.reverse = .ok (sum inOrder) ∧ prodOf inOrder.reverse = .ok (prod inOrder) := by
  have hlen : 2 ≤ inOrder.length := by decide
  obtain ⟨hswap, -, -, -, hbuild⟩ :=
    canonical_order (sym ⟨'k', by decide⟩) (num 3) (num 3) hlen
  obtain ⟨hsum, hprod⟩ := hbuild inOrder.reverse
  have hperm : inOrder.reverse.Perm inOrder := List.reverse_perm inOrder
  refine ⟨hlen, hswap, (hsum.mpr hperm).trans ?_, (hprod.mpr hperm).trans ?_⟩
  · decide +kernel
  · decide +kernel

end ExactAlgebra.Expr
