import ExactAlgebra.Proofs.Canonical.Results
import Mathlib.Algebra.BigOperators.Group.List.Basic
import Mathlib.Algebra.Order.BigOperators.Group.List

/-!
# Bounds on what is gathered

What holds of each measure that the pass should not increase, whatever it measures. A power is one
more than its base at most (`le_of_power`). A group is paid for by the terms or factors that are put
together in it: what amounts cost, their sum costs no more if all amounts cost nearly the same
(`paid_add_le`), and what no sum of amounts adds to, collecting adds nothing to
(`total_collect_termEntries_le`, `sum_live_factorGroups_le`).
-/

namespace ExactAlgebra.Canonical

open ExactAlgebra.Expr

variable {guess : RootGuess} {μ : Expr → ℕ}

/-! ### Powers -/

section

variable (hnum : ∀ q r, μ (.num q) = μ (.num r)) (hpow : ∀ b p, μ (.pow b p) = μ b + 1)

include hnum hpow

theorem le_of_raises {c n : Expr} {p : Rat} (h : Raises guess c p n) :
    μ n ≤ μ c + if p = 1 then 0 else 1 := by
  cases h with
  | one | zero => exact Nat.le_add_right _ _
  | unit | root => exact (hnum _ _).trans_le (Nat.le_add_right _ _)
  | left _ _ hp1 _ => rw [hpow, if_neg hp1, hnum _ _]
  | keep _ _ hp1 => rw [hpow, if_neg hp1]

/-- A power is one more than its base at most, and no more if its exponent is one. -/
theorem le_of_power {b n : Expr} {p : Rat} (h : power guess b p = .ok n) :
    μ n ≤ μ b + if p = 1 then 0 else 1 := by
  have hn := le_of_raises hnum hpow (raises_of_power guess h)
  cases b with
  | pow c i =>
    have hone : (if (drawnTogether (.pow c i) p).2 = 1 then 0 else 1) ≤ 1 := by split_ifs <;> omega
    rw [hpow]
    exact hn.trans ((Nat.add_le_add_left hone _).trans (Nat.le_add_right _ _))
  | num | sym | prod | sum => exact hn

end

/-! ### Groups -/

/-- Where all amounts cost the same but for one more, their sum costs no more than they do. The
amount zero costs nothing. -/
theorem paid_add_le {cost : Rat → ℕ} {m : ℕ} (hm : 1 ≤ m) (hlow : ∀ c, m ≤ cost c)
    (hhigh : ∀ c, cost c ≤ m + 1) (x y : Rat) :
    (if x + y = 0 then 0 else cost (x + y)) ≤
      (if x = 0 then 0 else cost x) + if y = 0 then 0 else cost y := by
  by_cases hx : x = 0
  · simp [hx]
  by_cases hy : y = 0
  · simp [hy]
  have := hlow x
  have := hlow y
  have := hhigh (x + y)
  rw [if_neg hx, if_neg hy]
  split_ifs <;> omega

section

variable {P : Expr → Prop} {f : Expr × Rat → ℕ}
  (hf : ∀ k x y, P k → f (k, x + y) ≤ f (k, x) + f (k, y))

include hf

theorem total_collect_map_le {key : Expr → Expr} {amount : Expr → Rat} {us : List Expr}
    (hus : ∀ u ∈ us, P (key u) ∧ f (key u, amount u) ≤ μ u) :
    Groups.total (· + ·) 0 f (Groups.collect (us.map fun u => (key u, amount u))) ≤
      (us.map μ).sum := by
  have hkeys : ∀ g ∈ us.map fun u => (key u, amount u), P g.1 :=
    List.forall_mem_map.mpr fun u hu => (hus u hu).1
  refine (Groups.total_collect_le (I := fun k _ => P k) (fun _ _ _ hk _ => hk)
    (fun k x y hk _ => hf k x y hk) hkeys).trans ?_
  rw [Groups.total, List.map_map]
  exact List.sum_le_sum fun u hu => (hus u hu).2

/-- The groups of some terms cost no more than the terms. -/
theorem total_collect_termEntries_le {us : List Expr}
    (hus : ∀ u ∈ us, u.kind ≠ .rational → P u.stem ∧ f (u.stem, u.coefficient) ≤ μ u) :
    Groups.total (· + ·) 0 f (Groups.collect (termEntries us)) ≤ ((nonNumbers us).map μ).sum :=
  total_collect_map_le hf fun u hu => hus u (mem_nonNumbers.mp hu).1 (mem_nonNumbers.mp hu).2

/-- The groups of some factors that leave something cost no more than the factors. -/
theorem sum_live_factorGroups_le {us : List Expr}
    (hus : ∀ u ∈ us, u.kind ≠ .rational → P u.base ∧ f (u.base, u.exponent) ≤ μ u) :
    ((live (factorGroups us [])).map f).sum ≤ ((nonNumbers us).map μ).sum := by
  have hlive : ((live (factorGroups us [])).map f).sum ≤ ((factorGroups us []).map f).sum :=
    (List.filter_sublist.map f).sum_le_sum fun _ _ => Nat.zero_le _
  rw [factorGroups_eq] at hlive ⊢
  exact hlive.trans (total_collect_map_le hf fun u hu =>
    hus u (mem_nonNumbers.mp hu).1 (mem_nonNumbers.mp hu).2)

end

end ExactAlgebra.Canonical
