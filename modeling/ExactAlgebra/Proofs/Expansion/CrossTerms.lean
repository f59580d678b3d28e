import ExactAlgebra.Proofs.Expansion.Distribution
import Mathlib.Algebra.BigOperators.Group.Multiset.Basic
import Mathlib.Data.Multiset.Sections

/-!
# Every cross term once

The terms of a product multiplied out are all choices of one term from every factor, each as often
as it can be chosen. Which factors a term was made of can be read off it as long as the terms of the
factors are numbers and letters: a step may nest products, or join them, but what is multiplied in
a term, products within products taken apart (`bag`), is what was multiplied before
(`bags_distribute`).

All choices of one member from every list of some are the sections of Mathlib. So multiplying out
comes to sections (`bags_multiplyOut`), and nothing is left of the order in which the factors meet.
-/

namespace ExactAlgebra.Expr

/-! ### What is multiplied in a term -/

mutual

/-- What is multiplied in an expression, with products within products taken apart. -/
def bag : Expr → Multiset Expr
  | num q => {num q}
  | sym x => {sym x}
  | pow b p => {pow b p}
  | prod fs => bagAll fs
  | sum ts => {sum ts}

/-- What is multiplied in the expressions of a list. -/
def bagAll : List Expr → Multiset Expr
  | [] => 0
  | e :: es => e.bag + bagAll es

end

theorem bagAll_eq (es : List Expr) : bagAll es = (es.map bag).sum := by
  induction es with
  | nil => rfl
  | cons e es ih => rw [bagAll, ih, List.map_cons, List.sum_cons]

theorem bag_of_ne {u : Expr} (h : u.kind ≠ .product) : u.bag = {u} := by
  cases u with
  | prod => exact absurd rfl h
  | num | sym | pow | sum => rfl

theorem bagAll_factors (u : Expr) : bagAll u.factors = u.bag := by
  cases u with
  | prod fs => rfl
  | num | sym | pow | sum => exact add_zero _

theorem bag_ofFactors (fs : List Expr) : (ofFactors fs).bag = bagAll fs := by
  rw [bagAll_eq, ofFactors, bag, bagAll_eq]
  exact ((sort_perm fs).map bag).sum_eq

theorem bag_times (a b : Expr) : (times a b).bag = a.bag + b.bag := by
  rw [times, bag_ofFactors, bagAll, bagAll, bagAll, add_zero]

/-- What is multiplied in each term of an expression. -/
def bags (u : Expr) : Multiset (Multiset Expr) :=
  (u.summands.map bag : List (Multiset Expr))

theorem bags_ofTerms (ts : List Expr) : (ofTerms ts).bags = (ts.map bag : List (Multiset Expr)) :=
  Multiset.coe_eq_coe.mpr ((sort_perm ts).map bag)

theorem bags_of_ne {u : Expr} (h : u.kind ≠ .sum) : u.bags = {u.bag} := by
  rw [bags, summands_of_ne h]
  rfl

/-! ### One step -/

theorem kind_ofFactors_ne_sum (fs : List Expr) : (ofFactors fs).kind ≠ .sum := by
  simp [ofFactors, kind]

/-- A step multiplies each term of the one expression with each term of the other, once. -/
theorem bags_distribute (a b : Expr) (first : Bool) :
    (distribute a b first).bags = a.bags.bind fun x => b.bags.map fun y => x + y := by
  by_cases h : a.kind = .sum ∨ b.kind = .sum
  · have hcross : (crossTerms a b).map bag =
        a.summands.flatMap fun x => b.summands.map fun y => x.bag + y.bag := by
      simp only [crossTerms, List.map_flatMap, List.map_map, Function.comp_def, bag_times]
    rw [distribute_of_sum first h, bags_ofTerms, hcross, bags, bags, ← Multiset.map_coe,
      Multiset.bind_map, ← Multiset.coe_bind]
    simp only [Multiset.map_coe, List.map_map, Function.comp_def]
  · obtain ⟨ha, hb⟩ := not_or.mp h
    have hjoined : bagAll (if first then [a] else a.factors) = a.bag := by
      cases first with
      | true => exact add_zero _
      | false => exact bagAll_factors a
    have hbag : (distribute a b first).bag = a.bag + b.bag := by
      rw [distribute_of_plain first ha hb, bag_ofFactors, bagAll_eq, List.map_append,
        List.sum_append, ← bagAll_eq, hjoined, List.map_singleton, List.sum_singleton]
    have hkind : (distribute a b first).kind ≠ .sum := by
      rw [distribute_of_plain first ha hb]
      exact kind_ofFactors_ne_sum _
    rw [bags_of_ne hkind, bags_of_ne ha, bags_of_ne hb, hbag]
    simp

theorem kind_distribute_eq_sum_iff {a b : Expr} (first : Bool) :
    (distribute a b first).kind = .sum ↔ a.kind = .sum ∨ b.kind = .sum := by
  by_cases h : a.kind = .sum ∨ b.kind = .sum
  · rw [distribute_of_sum first h]
    exact iff_of_true rfl h
  · obtain ⟨ha, hb⟩ := not_or.mp h
    rw [distribute_of_plain first ha hb]
    exact iff_of_false (kind_ofFactors_ne_sum _) h

/-! ### The whole run -/

/-- Multiplied out, factors make a sum if one of them is a sum. -/
theorem kind_multiplyOut {us : List Expr} (h : ∃ u ∈ us, u.kind = .sum) :
    (multiplyOut us).kind = .sum := by
  induction us using List.reverseRecOn with
  | nil => simp at h
  | append_singleton us g ih =>
    rcases us.eq_nil_or_concat' with rfl | ⟨us', u, rfl⟩
    · obtain ⟨v, hv, hsum⟩ := h
      rwa [List.mem_singleton.mp hv] at hsum
    · rw [multiplyOut_concat (by simp), kind_distribute_eq_sum_iff]
      obtain ⟨v, hv, hsum⟩ := h
      rcases List.mem_append.mp hv with hv | hv
      · exact Or.inl (ih ⟨v, hv, hsum⟩)
      · exact Or.inr (List.mem_singleton.mp hv ▸ hsum)

/-- A number or a letter. -/
def IsLeaf (e : Expr) : Prop :=
  e.kind = .rational ∨ e.kind = .symbol

/-- A number, a letter, or a sum of numbers and letters. -/
def HasLeafTerms (u : Expr) : Prop :=
  ∀ t ∈ u.summands, t.IsLeaf

theorem IsLeaf.bag_eq {t : Expr} (h : t.IsLeaf) : t.bag = {t} := by
  refine bag_of_ne ?_
  rcases h with h | h
  · rw [h]
    decide
  · rw [h]
    decide

theorem HasLeafTerms.bags_eq {u : Expr} (h : u.HasLeafTerms) :
    u.bags = (u.summands : Multiset Expr).map fun t => {t} :=
  congrArg _ (List.map_congr_left fun t ht => (h t ht).bag_eq)

/-- The choices of one member from every multiset of some and from one more. -/
theorem sections_concat {α : Type} (ms : List (Multiset α)) (m : Multiset α) :
    Multiset.Sections ((ms ++ [m] : List (Multiset α)) : Multiset (Multiset α)) =
      (Multiset.Sections (ms : Multiset (Multiset α))).bind fun s => m.map fun t => s + {t} := by
  rw [← Multiset.coe_add, Multiset.sections_add, Multiset.coe_singleton,
    ← Multiset.cons_zero, Multiset.sections_cons]
  simp [Multiset.bind_singleton]

/-- The terms of a product multiplied out are all choices of one term from every factor. -/
theorem bags_multiplyOut {us : List Expr} (hne : us ≠ []) (h : ∀ u ∈ us, u.HasLeafTerms) :
    (multiplyOut us).bags =
      Multiset.Sections (us.map fun u => (u.summands : Multiset Expr) : List (Multiset Expr)) := by
  induction us using List.reverseRecOn with
  | nil => exact absurd rfl hne
  | append_singleton us g ih =>
    obtain ⟨hus, hg⟩ := List.forall_mem_append.mp h
    have hg : g.HasLeafTerms := List.forall_mem_singleton.mp hg
    rw [List.map_append, List.map_singleton, sections_concat]
    by_cases hnil : us = []
    · subst hnil
      rw [List.nil_append, multiplyOut, hg.bags_eq]
      simp
    · rw [multiplyOut_concat hnil, bags_distribute, ih hnil hus, hg.bags_eq]
      simp only [Multiset.map_map, Function.comp_def]

/-- What multiplying out makes of factors with a sum among them. -/
theorem exists_multiplyOut_eq_sum {us : List Expr} (h : ∀ u ∈ us, u.HasLeafTerms)
    (hsum : ∃ u ∈ us, u.kind = .sum) :
    ∃ ts, multiplyOut us = sum ts ∧ ts.length = (us.map fun u => u.summands.length).prod ∧
      (ts.map bag : Multiset (Multiset Expr)) =
        Multiset.Sections (us.map fun u => (u.summands : Multiset Expr)) := by
  have hkind := kind_multiplyOut hsum
  obtain ⟨u, hu, -⟩ := hsum
  have hbags := bags_multiplyOut (List.ne_nil_of_mem hu) h
  cases hmult : multiplyOut us with
  | num | sym | pow | prod =>
    rw [hmult] at hkind
    cases hkind
  | sum ts =>
    rw [hmult] at hbags
    refine ⟨ts, rfl, ?_, hbags⟩
    have hcard := congrArg Multiset.card hbags
    rw [Multiset.card_sections, Multiset.map_coe, Multiset.prod_coe, List.map_map] at hcard
    simpa [bags, summands, Function.comp_def] using hcard

/-! ### Expansion -/

theorem IsLeaf.expand_eq {t : Expr} (h : t.IsLeaf) : t.expand = t := by
  cases t with
  | num | sym => rfl
  | pow | prod | sum => simp [IsLeaf, kind] at h

section

variable {u : Expr} (h : u.HasLeafTerms)

include h

/-- There is nothing to expand in a sum of numbers and letters, and it stays a sum. -/
theorem HasLeafTerms.expand_spec :
    u.expand.kind = u.kind ∧ u.expand.summands.Perm u.summands := by
  by_cases hu : u.kind = .sum
  · cases u with
    | sum ts =>
      have hts : ts.map expand = ts := (List.map_congr_left fun t ht => (h t ht).expand_eq).trans
        (List.map_id ts)
      rw [expand_sum, hts]
      exact ⟨rfl, sort_perm ts⟩
    | num | sym | pow | prod => cases hu
  · have hleaf : u.IsLeaf := h u (by rw [summands_of_ne hu]; exact List.mem_singleton_self u)
    rw [hleaf.expand_eq]
    exact ⟨rfl, .refl _⟩

theorem HasLeafTerms.expand : u.expand.HasLeafTerms :=
  fun t ht => h t (h.expand_spec.2.mem_iff.mp ht)

/-- Expanding once more changes nothing but the order of the terms, either. -/
theorem HasLeafTerms.multipliedOut_spec :
    u.expand.multipliedOut.HasLeafTerms ∧ u.expand.multipliedOut.kind = u.kind ∧
      u.expand.multipliedOut.summands.Perm u.summands := by
  rw [← expand_eq_multipliedOut (exponents_expand u)]
  obtain ⟨hkind, hperm⟩ := h.expand.expand_spec
  exact ⟨h.expand.expand, hkind.trans h.expand_spec.1, hperm.trans h.expand_spec.2⟩

end

/-- A product of numbers, letters and sums of these, with a sum among them, expands to a sum: its
terms are all choices of one term from every factor, each as often as it can be chosen. So the power
of a sum has as many terms as the sum, raised to the exponent. -/
theorem expand_crossTerms :
    (∀ fs : List Expr, (∀ f ∈ fs, f.HasLeafTerms) → (∃ f ∈ fs, f.kind = .sum) →
      ∃ ts, (prod fs).expand = sum ts ∧ ts.length = (fs.map fun f => f.summands.length).prod ∧
        (ts.map bag : Multiset (Multiset Expr)) =
          Multiset.Sections (fs.map fun f => (f.summands : Multiset Expr))) ∧
    ∀ (ts : List Expr) (n : ℕ), (∀ t ∈ ts, t.IsLeaf) → 2 ≤ n →
      ∃ us, (pow (sum ts) n).expand = sum us ∧ us.length = ts.length ^ n ∧
        (us.map bag : Multiset (Multiset Expr)) =
          Multiset.Sections (Multiset.replicate n (ts : Multiset Expr)) := by
  constructor
  · intro fs hfs hsum
    obtain ⟨f, hf, hkind⟩ := hsum
    obtain ⟨ts, hts, hlength, hbags⟩ := exists_multiplyOut_eq_sum
      (List.forall_mem_map.mpr fun f hf => (hfs f hf).expand)
      ⟨f.expand, List.mem_map_of_mem hf, (hfs f hf).expand_spec.1.trans hkind⟩
    refine ⟨ts, (expand_prod fs).trans hts, ?_, ?_⟩
    · rw [hlength, List.map_map]
      exact congrArg List.prod (List.map_congr_left fun f hf => (hfs f hf).expand_spec.2.length_eq)
    · rw [hbags, List.map_map]
      refine congrArg (fun ms : List (Multiset Expr) =>
        Multiset.Sections (ms : Multiset (Multiset Expr))) ?_
      exact List.map_congr_left fun f hf => Multiset.coe_eq_coe.mpr (hfs f hf).expand_spec.2
  · intro ts n hts hn
    have hleaf : (sum ts).HasLeafTerms := hts
    obtain ⟨hspec, hkind, hperm⟩ := hleaf.multipliedOut_spec
    have hcopies : ∀ u ∈ List.replicate n (sum ts).expand.multipliedOut, u.HasLeafTerms :=
      fun u hu => List.eq_of_mem_replicate hu ▸ hspec
    have hsum : ∃ u ∈ List.replicate n (sum ts).expand.multipliedOut, u.kind = .sum :=
      ⟨_, List.mem_replicate.mpr ⟨by omega, rfl⟩, hkind⟩
    obtain ⟨us, hus, hlength, hbags⟩ := exists_multiplyOut_eq_sum hcopies hsum
    refine ⟨us, ?_, ?_, ?_⟩
    · rw [expand_pow, expandPower_natCast, if_neg (by omega), if_neg (by omega), hus]
    · rw [hlength, List.map_replicate, List.prod_replicate, hperm.length_eq]
      rfl
    · rw [hbags, List.map_replicate, Multiset.coe_replicate, Multiset.coe_eq_coe.mpr hperm]
      rfl

/-- One plus a letter. -/
def onePlusLetter : Expr :=
  sum [num 1, sym ⟨'o', by decide⟩]

/-- Twice the square of one plus a letter, times the letter. -/
def mixedFactors : List Expr :=
  [num 2, onePlusLetter, onePlusLetter, sym ⟨'o', by decide⟩]

theorem expand_crossTerms_mixedFactors :
    (∀ f ∈ mixedFactors, f.HasLeafTerms) ∧ (∃ f ∈ mixedFactors, f.kind = .sum) ∧
      (∃ ts, (prod mixedFactors).expand = sum ts ∧ ts.length = 4 ∧
        (ts.map bag : Multiset (Multiset Expr)) =
          Multiset.Sections (mixedFactors.map fun f => (f.summands : Multiset Expr))) ∧
      (∀ t ∈ onePlusLetter.summands, t.IsLeaf) ∧
      ∃ us, (pow (sum onePlusLetter.summands) (5 : ℕ)).expand = sum us ∧ us.length = 32 ∧
        (us.map bag : Multiset (Multiset Expr)) =
          Multiset.Sections (Multiset.replicate 5 (onePlusLetter.summands : Multiset Expr)) := by
  have hletter : ∀ t ∈ onePlusLetter.summands, t.IsLeaf := by
    simp [onePlusLetter, summands, IsLeaf, kind]
  have hleaf : ∀ f ∈ mixedFactors, f.HasLeafTerms := by
    simp [mixedFactors, onePlusLetter, HasLeafTerms, summands, IsLeaf, kind]
  have hsum : ∃ f ∈ mixedFactors, f.kind = .sum := ⟨onePlusLetter, by simp [mixedFactors], rfl⟩
  exact ⟨hleaf, hsum, expand_crossTerms.1 mixedFactors hleaf hsum, hletter,
    expand_crossTerms.2 onePlusLetter.summands 5 hletter (by decide)⟩

end ExactAlgebra.Expr
