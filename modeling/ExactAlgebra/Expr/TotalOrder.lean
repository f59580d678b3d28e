import ExactAlgebra.Expr.Order

/-!
# The canonical order is total

Comparing is antisymmetric (`compare_swap`) and transitive (`compare_trans`), so sorting really puts
a list in order (`pairwise_sort`), and lists with the same members sort to the same list
(`sort_eq_of_perm`).

Both laws go through the composite nodes by their children. Nodes of different kinds are settled by
their kinds alone (`compare_of_kind_ne`).
-/

namespace ExactAlgebra

/-! ### Rational numbers -/

theorem compareRat_swap (p q : Rat) : compareRat q p = (compareRat p q).swap := by
  rw [compareRat, compareRat]
  exact Std.OrientedOrd.eq_swap

theorem compareRat_ne_gt_iff {p q : Rat} : compareRat p q ≠ .gt ↔ p ≤ q := by
  rw [compareRat, ne_eq, Int.compare_eq_gt, Int.not_lt, Rat.le_iff]

theorem compareRat_trans {p q r : Rat} (hpq : compareRat p q ≠ .gt) (hqr : compareRat q r ≠ .gt) :
    compareRat p r ≠ .gt :=
  compareRat_ne_gt_iff.mpr
    (Rat.le_trans (compareRat_ne_gt_iff.mp hpq) (compareRat_ne_gt_iff.mp hqr))

namespace Expr

/-! ### Antisymmetry -/

/-- Nodes of different kinds are ordered by kind. -/
theorem compare_of_kind_ne {a b : Expr} (h : a.kind ≠ b.kind) :
    compare a b = Ord.compare a.kind.priority b.kind.priority := by
  cases a <;> cases b <;> first | rfl | exact absurd rfl h

theorem kind_eq_or_compare_swap (a b : Expr) :
    a.kind = b.kind ∨ compare b a = (compare a b).swap := by
  by_cases h : a.kind = b.kind
  · exact Or.inl h
  · rw [compare_of_kind_ne h, compare_of_kind_ne (Ne.symm h)]
    exact Or.inr Std.OrientedOrd.eq_swap

mutual

/-- The other way round, the order is the other one. -/
theorem compare_swap : ∀ a b : Expr, compare b a = (compare a b).swap
  | num p, b => by
    rcases kind_eq_or_compare_swap (num p) b with h | h
    · cases b with
      | num q => exact compareRat_swap p q
      | _ => cases h
    · exact h
  | sym x, b => by
    rcases kind_eq_or_compare_swap (sym x) b with h | h
    · cases b with
      | sym y =>
        rw [compare, compare]
        exact Std.OrientedOrd.eq_swap
      | _ => cases h
    · exact h
  | pow c p, b => by
    rcases kind_eq_or_compare_swap (pow c p) b with h | h
    · cases b with
      | pow d q =>
        rw [compare, compare, Ordering.swap_then, compare_swap c d, compareRat_swap p q]
      | _ => cases h
    · exact h
  | prod as, b => by
    rcases kind_eq_or_compare_swap (prod as) b with h | h
    · cases b with
      | prod bs => exact compareAll_swap as bs
      | _ => cases h
    · exact h
  | sum as, b => by
    rcases kind_eq_or_compare_swap (sum as) b with h | h
    · cases b with
      | sum bs => exact compareAll_swap as bs
      | _ => cases h
    · exact h

theorem compareAll_swap : ∀ as bs : List Expr, compareAll bs as = (compareAll as bs).swap
  | [], [] => rfl
  | [], _ :: _ => rfl
  | _ :: _, [] => rfl
  | a :: as, b :: bs => by
    rw [compareAll, compareAll, Ordering.swap_then, compare_swap a b, compareAll_swap as bs]

end

theorem compare_eq_lt_iff {a b : Expr} : compare a b = .lt ↔ compare b a = .gt := by
  rw [compare_swap a b]
  cases compare a b <;> decide

/-! ### Transitivity -/

/-- A step up from below is a step up, however the two steps lie. -/
private theorem compare_lt_of_lt {a b c : Expr} (hac : compare a c ≠ .gt)
    (hab : compare a b = .lt) (hbc : compare b c ≠ .gt) : compare a c = .lt := by
  rcases h : compare a c with _ | _ | _
  · rfl
  · rw [← compare_eq_iff.mp h] at hbc
    exact absurd (compare_eq_lt_iff.mp hab) hbc
  · exact absurd h hac

private theorem then_ne_gt_iff {o₁ o₂ : Ordering} :
    o₁.then o₂ ≠ .gt ↔ o₁ = .lt ∨ (o₁ = .eq ∧ o₂ ≠ .gt) := by
  cases o₁ <;> cases o₂ <;> decide

/-- Transitivity of a comparison by a first part and then by a rest. -/
private theorem then_trans {a b c : Expr} {o₁ o₂ o₃ : Ordering}
    (first : compare a b ≠ .gt → compare b c ≠ .gt → compare a c ≠ .gt)
    (rest : o₁ ≠ .gt → o₂ ≠ .gt → o₃ ≠ .gt)
    (hab : (compare a b).then o₁ ≠ .gt) (hbc : (compare b c).then o₂ ≠ .gt) :
    (compare a c).then o₃ ≠ .gt := by
  rw [then_ne_gt_iff] at hab hbc ⊢
  rcases hab with hab | ⟨hab, h₁⟩ <;> rcases hbc with hbc | ⟨hbc, h₂⟩
  · exact Or.inl (compare_lt_of_lt (first (by simp [hab]) (by simp [hbc])) hab (by simp [hbc]))
  · exact Or.inl (compare_eq_iff.mp hbc ▸ hab)
  · exact Or.inl (compare_eq_iff.mp hab ▸ hbc)
  · rw [compare_eq_iff.mp hab]
    exact Or.inr ⟨hbc, rest h₁ h₂⟩

/-- If three nodes are not all of one kind, their kinds alone settle transitivity. -/
private theorem compare_trans_of_kind_ne {a b c : Expr} (h : a.kind ≠ b.kind ∨ b.kind ≠ c.kind)
    (hab : compare a b ≠ .gt) (hbc : compare b c ≠ .gt) : compare a c ≠ .gt := by
  have up : ∀ {d e : Expr}, d.kind ≠ e.kind →
      (compare d e ≠ .gt ↔ d.kind.priority < e.kind.priority) := by
    intro d e hne
    have hp : d.kind.priority ≠ e.kind.priority := fun hp => hne (Kind.priority_injective hp)
    rw [compare_of_kind_ne hne, ne_eq, Nat.compare_eq_gt]
    omega
  by_cases h₁ : a.kind = b.kind
  · have h₂ : b.kind ≠ c.kind := h.resolve_left (fun hne => hne h₁)
    rw [up (h₁ ▸ h₂), h₁]
    exact (up h₂).mp hbc
  · have hlt := (up h₁).mp hab
    by_cases h₂ : b.kind = c.kind
    · rw [up (h₂ ▸ h₁), ← h₂]
      exact hlt
    · have hlt' := (up h₂).mp hbc
      rw [up (fun hac => by rw [hac] at hlt; omega)]
      omega

mutual

/-- What does not come after something that does not come after a third does not come after it. -/
theorem compare_trans : ∀ {a b c : Expr},
    compare a b ≠ .gt → compare b c ≠ .gt → compare a c ≠ .gt
  | num p, b, c, hab, hbc => by
    by_cases h : Kind.rational = b.kind ∧ b.kind = c.kind
    · obtain ⟨h₁, h₂⟩ := h
      cases b <;> cases h₁
      cases c <;> cases h₂
      exact compareRat_trans hab hbc
    · exact compare_trans_of_kind_ne (Decidable.not_and_iff_not_or_not.mp h) hab hbc
  | sym x, b, c, hab, hbc => by
    by_cases h : Kind.symbol = b.kind ∧ b.kind = c.kind
    · obtain ⟨h₁, h₂⟩ := h
      cases b <;> cases h₁
      cases c <;> cases h₂
      rw [compare, ne_eq, Ordering.ne_gt_iff_isLE] at hab hbc ⊢
      exact Std.TransOrd.isLE_trans hab hbc
    · exact compare_trans_of_kind_ne (Decidable.not_and_iff_not_or_not.mp h) hab hbc
  | pow d p, b, c, hab, hbc => by
    by_cases h : Kind.power = b.kind ∧ b.kind = c.kind
    · obtain ⟨h₁, h₂⟩ := h
      cases b <;> cases h₁
      cases c <;> cases h₂
      rw [compare] at hab hbc ⊢
      exact then_trans compare_trans compareRat_trans hab hbc
    · exact compare_trans_of_kind_ne (Decidable.not_and_iff_not_or_not.mp h) hab hbc
  | prod as, b, c, hab, hbc => by
    by_cases h : Kind.product = b.kind ∧ b.kind = c.kind
    · obtain ⟨h₁, h₂⟩ := h
      cases b <;> cases h₁
      cases c <;> cases h₂
      rw [compare] at hab hbc ⊢
      exact compareAll_trans hab hbc
    · exact compare_trans_of_kind_ne (Decidable.not_and_iff_not_or_not.mp h) hab hbc
  | sum as, b, c, hab, hbc => by
    by_cases h : Kind.sum = b.kind ∧ b.kind = c.kind
    · obtain ⟨h₁, h₂⟩ := h
      cases b <;> cases h₁
      cases c <;> cases h₂
      rw [compare] at hab hbc ⊢
      exact compareAll_trans hab hbc
    · exact compare_trans_of_kind_ne (Decidable.not_and_iff_not_or_not.mp h) hab hbc

theorem compareAll_trans : ∀ {as bs cs : List Expr},
    compareAll as bs ≠ .gt → compareAll bs cs ≠ .gt → compareAll as cs ≠ .gt
  | [], _, [], _, _ => by simp [compareAll]
  | [], _, _ :: _, _, _ => by simp [compareAll]
  | _ :: _, [], _, h, _ => absurd rfl h
  | _ :: _, _ :: _, [], _, h => absurd rfl h
  | a :: as, b :: bs, c :: cs, hab, hbc => by
    rw [compareAll] at hab hbc ⊢
    exact then_trans compare_trans compareAll_trans hab hbc

end

instance : LE Expr := ⟨fun a b => compare a b ≠ .gt⟩

theorem le_def {a b : Expr} : a ≤ b ↔ compare a b ≠ .gt := Iff.rfl

instance (a b : Expr) : Decidable (a ≤ b) :=
  inferInstanceAs (Decidable (compare a b ≠ .gt))

theorem le_trans {a b c : Expr} (hab : a ≤ b) (hbc : b ≤ c) : a ≤ c :=
  compare_trans hab hbc

theorem le_antisymm {a b : Expr} (hab : a ≤ b) (hba : b ≤ a) : a = b := by
  rw [le_def] at hab hba
  rw [compare_swap a b] at hba
  rcases h : compare a b with _ | _ | _
  · exact absurd (by rw [h]; rfl) hba
  · exact compare_eq_iff.mp h
  · exact absurd h hab

theorem le_of_compare_eq_gt {a b : Expr} (h : compare a b = .gt) : b ≤ a := by
  rw [le_def, compare_swap a b, h]
  decide

/-! ### Sorting -/

/-- An expression inserted into a list in order leaves it in order. -/
theorem pairwise_insert (a : Expr) {bs : List Expr} (h : bs.Pairwise (· ≤ ·)) :
    (insert a bs).Pairwise (· ≤ ·) := by
  induction bs with
  | nil => simp [insert]
  | cons b bs ih =>
    obtain ⟨hb, hbs⟩ := List.pairwise_cons.mp h
    simp only [insert]
    split
    · rename_i hab
      refine List.pairwise_cons.mpr ⟨fun c hc => ?_, ih hbs⟩
      rcases List.mem_cons.mp ((insert_perm a bs).mem_iff.mp hc) with rfl | hc
      · exact le_of_compare_eq_gt hab
      · exact hb c hc
    · rename_i hab
      refine List.pairwise_cons.mpr ⟨fun c hc => ?_, h⟩
      rcases List.mem_cons.mp hc with rfl | hc
      · exact hab
      · exact le_trans hab (hb c hc)

/-- Sorting puts a list in order. -/
theorem pairwise_sort (as : List Expr) : (sort as).Pairwise (· ≤ ·) := by
  induction as with
  | nil => exact .nil
  | cons a as ih => exact pairwise_insert a ih

/-- Lists with the same members sort to the same list. -/
theorem sort_eq_of_perm {as bs : List Expr} (h : as.Perm bs) : sort as = sort bs :=
  ((sort_perm as).trans (h.trans (sort_perm bs).symm)).eq_of_pairwise
    (fun _ _ _ _ hab hba => le_antisymm hab hba) (pairwise_sort as) (pairwise_sort bs)

/-- A list in order is left as it is. -/
theorem sort_eq_self {as : List Expr} (h : as.Pairwise (· ≤ ·)) : sort as = as :=
  (sort_perm as).eq_of_pairwise (fun _ _ _ _ hab hba => le_antisymm hab hba) (pairwise_sort as) h

end Expr

end ExactAlgebra
