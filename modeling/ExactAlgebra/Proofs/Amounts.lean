import ExactAlgebra.Proofs.Groups
import Mathlib.Algebra.BigOperators.Finsupp.Basic
import Mathlib.Algebra.Field.Rat

/-!
# Entries as a function from keys to amounts

Entries, taken together, give each key an amount (`Groups.amounts`). Entries that give the same
amounts have the same groups that leave something (`perm_of_amounts_eq`), whatever their order and
however they are split; so what is made of groups depends on the amounts alone.

Where what a group is worth is not additive in its amount, amounts may still be added key by key: it
is enough that the worth is additive for the keys that both of two lists of entries have
(`sum_amounts_append`).
-/

namespace ExactAlgebra

/-! ### Lists of single entries -/

section

variable {α ι M : Type} [AddCommMonoid M] {k : α → ι} {w : α → M} {l l' : List α}

theorem sum_single_apply_of_notMem {i : ι} (h : i ∉ l.map k) :
    (l.map fun a => Finsupp.single (k a) (w a)).sum i = 0 := by
  induction l with
  | nil => rfl
  | cons a l ih =>
    rw [List.map_cons, List.mem_cons, not_or] at h
    rw [List.map_cons, List.sum_cons, Finsupp.add_apply, ih h.2, add_zero]
    exact Finsupp.single_eq_of_ne h.1

theorem sum_single_apply_of_mem (hl : (l.map k).Nodup) {a : α} (ha : a ∈ l) :
    (l.map fun a => Finsupp.single (k a) (w a)).sum (k a) = w a := by
  induction l with
  | nil => cases ha
  | cons b l ih =>
    rw [List.map_cons, List.nodup_cons] at hl
    rw [List.map_cons, List.sum_cons, Finsupp.add_apply]
    rcases List.mem_cons.mp ha with rfl | ha
    · rw [sum_single_apply_of_notMem hl.1, add_zero, Finsupp.single_eq_same]
    · have hne : k a ≠ k b := fun h => hl.1 (h ▸ List.mem_map_of_mem ha)
      rw [Finsupp.single_eq_of_ne hne, zero_add, ih hl.2 ha]

/-- Entries under different keys, none of them zero, can be read off the function that they add up
to. -/
theorem mem_of_sum_single_eq (hl : (l.map k).Nodup) (hw : ∀ a ∈ l, w a ≠ 0)
    (hl' : (l'.map k).Nodup) (hinj : ∀ a ∈ l, ∀ b ∈ l', k a = k b → w a = w b → a = b)
    (h : (l.map fun a => Finsupp.single (k a) (w a)).sum =
      (l'.map fun a => Finsupp.single (k a) (w a)).sum) : ∀ a ∈ l, a ∈ l' := by
  intro a ha
  have hvalue := sum_single_apply_of_mem (w := w) hl ha
  rw [h] at hvalue
  by_cases hmem : k a ∈ l'.map k
  · obtain ⟨b, hb, hkey⟩ := List.mem_map.mp hmem
    rw [← hkey, sum_single_apply_of_mem hl' hb] at hvalue
    rwa [hinj a ha b hb hkey.symm hvalue.symm]
  · rw [sum_single_apply_of_notMem hmem] at hvalue
    exact absurd hvalue.symm (hw a ha)

theorem perm_of_sum_single_eq (hl : (l.map k).Nodup) (hl' : (l'.map k).Nodup)
    (hw : ∀ a ∈ l, w a ≠ 0) (hw' : ∀ a ∈ l', w a ≠ 0)
    (hinj : ∀ a ∈ l, ∀ b ∈ l', k a = k b → w a = w b → a = b)
    (h : (l.map fun a => Finsupp.single (k a) (w a)).sum =
      (l'.map fun a => Finsupp.single (k a) (w a)).sum) : l.Perm l' := by
  rw [List.perm_ext_iff_of_nodup hl.of_map hl'.of_map]
  intro a
  constructor
  · exact mem_of_sum_single_eq hl hw hl' hinj h a
  · refine mem_of_sum_single_eq hl' hw' hl (fun a ha b hb hk hw => ?_) h.symm a
    exact (hinj b hb a ha hk.symm hw.symm).symm

end

namespace Groups

/-! ### Amounts -/

/-- The amount that some entries give each key. -/
noncomputable def amounts (es : List (Expr × Rat)) : Expr →₀ ℚ :=
  (es.map fun g => Finsupp.single g.1 g.2).sum

@[simp] theorem amounts_nil : amounts [] = 0 := rfl

theorem amounts_cons (g : Expr × Rat) (es : List (Expr × Rat)) :
    amounts (g :: es) = Finsupp.single g.1 g.2 + amounts es := by
  rw [amounts, List.map_cons, List.sum_cons, amounts]

@[simp] theorem amounts_append (es es' : List (Expr × Rat)) :
    amounts (es ++ es') = amounts es + amounts es' := by
  rw [amounts, List.map_append, List.sum_append, amounts, amounts]

/-- A key with an amount other than zero is among the entries. -/
theorem exists_mem_of_amounts_ne_zero {es : List (Expr × Rat)} {k : Expr} (h : amounts es k ≠ 0) :
    ∃ g ∈ es, g.1 = k := by
  by_contra hnone
  apply h
  apply sum_single_apply_of_notMem
  intro hk
  obtain ⟨g, hg, rfl⟩ := List.mem_map.mp hk
  exact hnone ⟨g, hg, rfl⟩

/-- Collecting keeps the amounts. -/
theorem amounts_collect (es : List (Expr × Rat)) : amounts (collect es) = amounts es :=
  total_collect_eq (I := fun _ _ => True) (fun _ _ _ _ _ => trivial)
    (fun k x y _ _ => Finsupp.single_add k x y) 0 fun _ _ => trivial

/-- Groups of which none is zero are settled by their amounts. -/
theorem perm_of_amounts_eq {gs gs' : Groups} (hgs : (gs.map Prod.fst).Nodup)
    (hgs' : (gs'.map Prod.fst).Nodup) (hne : ∀ g ∈ gs, g.2 ≠ 0) (hne' : ∀ g ∈ gs', g.2 ≠ 0)
    (h : amounts gs = amounts gs') : gs.Perm gs' :=
  perm_of_sum_single_eq hgs hgs' hne hne' (fun _ _ _ _ hkey hamount => Prod.ext hkey hamount) h

/-! ### What amounts are worth -/

section

variable {M : Type} [AddCommMonoid M] {φ : Expr → ℚ → M} (h0 : ∀ k, φ k 0 = 0)

include h0

theorem sum_add_of_forall {f g : Expr →₀ ℚ} (h : ∀ k, φ k (f k + g k) = φ k (f k) + φ k (g k)) :
    (f + g).sum φ = f.sum φ + g.sum φ := by
  classical
  have hsub : (f + g).support ⊆ f.support ∪ g.support := Finsupp.support_add
  rw [Finsupp.sum_of_support_subset _ hsub φ fun k _ => h0 k,
    Finsupp.sum_of_support_subset f Finset.subset_union_left φ fun k _ => h0 k,
    Finsupp.sum_of_support_subset g Finset.subset_union_right φ fun k _ => h0 k,
    ← Finset.sum_add_distrib]
  exact Finset.sum_congr rfl fun k _ => h k

/-- What groups are worth can be read off their amounts. -/
theorem sum_map_eq_sum_amounts {gs : Groups} (hgs : (gs.map Prod.fst).Nodup) :
    (gs.map fun g => φ g.1 g.2).sum = (amounts gs).sum φ := by
  induction gs with
  | nil => exact Finsupp.sum_zero_index.symm
  | cons g gs ih =>
    rw [List.map_cons, List.nodup_cons] at hgs
    have hzero : amounts gs g.1 = 0 := sum_single_apply_of_notMem hgs.1
    rw [List.map_cons, List.sum_cons, ih hgs.2, amounts_cons, sum_add_of_forall h0,
      Finsupp.sum_single_index (h0 g.1)]
    intro k
    by_cases hk : k = g.1
    · rw [hk, hzero, add_zero, h0, add_zero]
    · rw [Finsupp.single_eq_of_ne hk, zero_add, h0, zero_add]

theorem sum_map_collect (es : List (Expr × Rat)) :
    ((collect es).map fun g => φ g.1 g.2).sum = (amounts es).sum φ := by
  rw [sum_map_eq_sum_amounts h0 (nodup_keys_collect es), amounts_collect]

/-- What the groups of two lists of entries are worth together, if the worth of a key that both have
is additive. -/
theorem sum_amounts_append {es es' : List (Expr × Rat)}
    (h : ∀ g ∈ es, ∀ g' ∈ es', g.1 = g'.1 →
      ∀ x y, φ g.1 (x + y) = φ g.1 x + φ g.1 y) :
    (amounts (es ++ es')).sum φ = (amounts es).sum φ + (amounts es').sum φ := by
  rw [amounts_append]
  apply sum_add_of_forall h0
  intro k
  by_cases hk : amounts es k = 0
  · rw [hk, zero_add, h0, zero_add]
  by_cases hk' : amounts es' k = 0
  · rw [hk', add_zero, h0, add_zero]
  obtain ⟨g, hg, rfl⟩ := exists_mem_of_amounts_ne_zero hk
  obtain ⟨g', hg', hkey⟩ := exists_mem_of_amounts_ne_zero hk'
  exact h g hg g' hg' hkey.symm _ _

end

end Groups

end ExactAlgebra
