import ExactAlgebra.Proofs.Expansion.Distribution
import Mathlib.Data.List.Fold
import Mathlib.Order.Basic

/-!
# Sums within sums

An expansion multiplies a sum out over its terms, and over those alone: a term that is itself a sum
goes into the products as it is. So how deep sums are nested does not change (`sumDepth_expand`),
and a sum is left below a product exactly where a product, or a power with an exponent above one,
had a sum within a sum below it (`distributed_expand_iff`).

What carries this is that a multiplied out expression with a sum anywhere in it is itself a sum
(`Layered.onTop`). Of two such expressions a step makes one whose depth is the greater of their
depths (`layered_distribute`), and it leaves no sum below a product exactly if neither is nested
(`distributed_distribute_iff`).
-/

namespace ExactAlgebra.Expr

/-! ### Depth -/

mutual

/-- How deep sums are nested in the expression. The powers of exponent zero do not count. -/
def sumDepth : Expr → Nat
  | num _ => 0
  | sym _ => 0
  | pow b p => if p = 0 then 0 else b.sumDepth
  | prod fs => sumDepthAll fs
  | sum ts => sumDepthAll ts + 1

/-- The greatest depth among some expressions. -/
def sumDepthAll : List Expr → Nat
  | [] => 0
  | e :: es => max e.sumDepth (sumDepthAll es)

end

theorem sumDepthAll_le_iff {es : List Expr} {n : Nat} :
    sumDepthAll es ≤ n ↔ ∀ e ∈ es, e.sumDepth ≤ n := by
  induction es with
  | nil => simp [sumDepthAll]
  | cons e es ih => rw [sumDepthAll, Nat.max_le, ih, List.forall_mem_cons]

/-- The greatest depth is determined by the depths that occur. -/
theorem sumDepthAll_congr {as bs : List Expr} (h : ∀ e, e ∈ as ↔ e ∈ bs) :
    sumDepthAll as = sumDepthAll bs :=
  eq_of_forall_ge_iff fun n => by
    rw [sumDepthAll_le_iff, sumDepthAll_le_iff]
    exact forall_congr' fun e => by rw [h e]

theorem sumDepthAll_map {f : Expr → Expr} {es : List Expr}
    (h : ∀ e ∈ es, (f e).sumDepth = e.sumDepth) : sumDepthAll (es.map f) = sumDepthAll es :=
  eq_of_forall_ge_iff fun n => by
    rw [sumDepthAll_le_iff, sumDepthAll_le_iff, List.forall_mem_map]
    exact forall₂_congr fun e he => by rw [h e he]

theorem sumDepthAll_replicate {k : Nat} (hk : k ≠ 0) (e : Expr) :
    sumDepthAll (List.replicate k e) = e.sumDepth :=
  eq_of_forall_ge_iff fun n => by
    rw [sumDepthAll_le_iff]
    exact ⟨fun h => h e (List.mem_replicate.mpr ⟨hk, rfl⟩), fun h u hu =>
      List.eq_of_mem_replicate hu ▸ h⟩

theorem sumDepthAll_eq_foldl (es : List Expr) : sumDepthAll es = (es.map sumDepth).foldl max 0 := by
  rw [List.foldl_eq_foldr]
  induction es with
  | nil => rfl
  | cons e es ih => rw [sumDepthAll, ih, List.map_cons, List.foldr_cons]

theorem sumDepth_ofFactors (fs : List Expr) : (ofFactors fs).sumDepth = sumDepthAll fs :=
  sumDepthAll_congr fun _ => mem_sort

theorem sumDepth_ofTerms (ts : List Expr) : (ofTerms ts).sumDepth = sumDepthAll ts + 1 :=
  congrArg (· + 1) (sumDepthAll_congr fun _ => mem_sort)

theorem sumDepth_times (a b : Expr) : (times a b).sumDepth = max a.sumDepth b.sumDepth := by
  rw [times, sumDepth_ofFactors, sumDepthAll, sumDepthAll, sumDepthAll, Nat.max_zero]

theorem sumDepthAll_crossTerms {a b : Expr} (ha : 0 < a.summands.length)
    (hb : 0 < b.summands.length) :
    sumDepthAll (crossTerms a b) = max (sumDepthAll a.summands) (sumDepthAll b.summands) := by
  obtain ⟨x₀, hx₀⟩ := List.exists_mem_of_length_pos ha
  obtain ⟨y₀, hy₀⟩ := List.exists_mem_of_length_pos hb
  refine eq_of_forall_ge_iff fun n => ?_
  rw [Nat.max_le, sumDepthAll_le_iff, sumDepthAll_le_iff, sumDepthAll_le_iff]
  constructor
  · intro h
    have hpair : ∀ x ∈ a.summands, ∀ y ∈ b.summands, max x.sumDepth y.sumDepth ≤ n := by
      intro x hx y hy
      rw [← sumDepth_times]
      exact h _ (mem_crossTerms.mpr ⟨x, hx, y, hy, rfl⟩)
    exact ⟨fun x hx => (Nat.max_le.mp (hpair x hx y₀ hy₀)).1,
      fun y hy => (Nat.max_le.mp (hpair x₀ hx₀ y hy)).2⟩
  · rintro ⟨hx, hy⟩ c hc
    obtain ⟨x, hxa, y, hyb, rfl⟩ := mem_crossTerms.mp hc
    rw [sumDepth_times]
    exact Nat.max_le.mpr ⟨hx x hxa, hy y hyb⟩

/-! ### Sums below products and powers -/

/-- No node of the expression is a sum. -/
def SumFree (e : Expr) : Prop :=
  e.Everywhere fun d => d.kind ≠ .sum

/-- No power and no product of the expression has a sum anywhere below it. -/
def Distributed (e : Expr) : Prop :=
  e.Everywhere fun d => d.kind = .power ∨ d.kind = .product → d.SumFree

/-- The expression has no powers. -/
def PowerFree (e : Expr) : Prop :=
  e.Exponents fun _ => False

theorem sumFree_iff {e : Expr} (h : e.PowerFree) : e.SumFree ↔ e.sumDepth = 0 := by
  induction e with
  | num | sym => exact iff_of_true nofun rfl
  | pow b p => exact (exponents_pow.mp h).1.elim
  | prod fs ih =>
    rw [SumFree, everywhere_prod, and_iff_right (by simp [kind]), ← Nat.le_zero]
    show _ ↔ sumDepthAll fs ≤ 0
    rw [sumDepthAll_le_iff]
    refine forall₂_congr fun f hf => ?_
    rw [Nat.le_zero]
    exact ih f hf (exponents_prod.mp h f hf)
  | sum ts => exact iff_of_false (fun h => h.root rfl) (Nat.succ_ne_zero _)

/-- What all nodes have, all nodes of all nodes have. -/
theorem Everywhere.nested {p : Expr → Prop} {e : Expr} (h : e.Everywhere p) :
    e.Everywhere fun d => d.Everywhere p := by
  induction e with
  | num | sym => exact h
  | pow b e ih => exact ⟨h, ih h.2⟩
  | prod fs ih =>
    have hfs := (everywhere_prod.mp h).2
    exact everywhere_prod.mpr ⟨h, fun f hf => ih f hf (hfs f hf)⟩
  | sum ts ih =>
    have hts := (everywhere_sum.mp h).2
    exact everywhere_sum.mpr ⟨h, fun t ht => ih t ht (hts t ht)⟩

theorem SumFree.distributed {e : Expr} (h : e.SumFree) : e.Distributed := by
  refine Everywhere.mono ?_ h.nested
  exact fun d hd _ => hd

theorem distributed_ofFactors_iff {fs : List Expr} :
    (ofFactors fs).Distributed ↔ (ofFactors fs).SumFree :=
  ⟨fun h => h.root (Or.inr rfl), SumFree.distributed⟩

theorem distributed_ofTerms_iff {ts : List Expr} :
    (ofTerms ts).Distributed ↔ ∀ t ∈ ts, t.Distributed := by
  rw [ofTerms, Distributed, everywhere_sum, and_iff_right (by simp [kind])]
  exact forall_congr' fun t => by rw [mem_sort]; rfl

/-! ### Layers -/

/-- A multiplied out expression: a sum, unless it has no sum in it. -/
structure Layered (e : Expr) : Prop where
  wellFormed : e.WellFormed
  powerFree : e.PowerFree
  onTop : e.kind ≠ .sum → e.sumDepth = 0

theorem layered_num (q : Rat) : (num q).Layered :=
  ⟨trivial, exponents_num q, fun _ => rfl⟩

/-- The terms of a layered expression are less deep than it by one. -/
theorem sumDepthAll_summands {e : Expr} (h : e.Layered) :
    sumDepthAll e.summands = e.sumDepth - 1 := by
  cases e with
  | sum ts => rfl
  | num | sym | pow | prod =>
    have h0 := h.onTop (by simp [kind])
    rw [summands_of_ne (by simp [kind]), sumDepthAll, sumDepthAll, h0]
    rfl

theorem one_le_sumDepth {e : Expr} (h : e.kind = .sum) : 1 ≤ e.sumDepth := by
  cases e with
  | sum ts => exact Nat.succ_pos _
  | num | sym | pow | prod => cases h

/-- A step keeps the layers, and what it makes is as deep as the deeper of the two. -/
theorem layered_distribute {a b : Expr} (first : Bool) (ha : a.Layered) (hb : b.Layered) :
    (distribute a b first).Layered ∧
      (distribute a b first).sumDepth = max a.sumDepth b.sumDepth := by
  have hwf := wellFormed_distribute first ha.wellFormed hb.wellFormed
  have hpowers := exponents_distribute first ha.powerFree hb.powerFree
  by_cases h : a.kind = .sum ∨ b.kind = .sum
  · have hdepth : (distribute a b first).sumDepth = max a.sumDepth b.sumDepth := by
      rw [distribute_of_sum first h, sumDepth_ofTerms,
        sumDepthAll_crossTerms (length_summands_pos ha.wellFormed)
          (length_summands_pos hb.wellFormed), sumDepthAll_summands ha, sumDepthAll_summands hb]
      have := h.imp one_le_sumDepth one_le_sumDepth
      omega
    refine ⟨⟨hwf, hpowers, fun hne => absurd ?_ hne⟩, hdepth⟩
    rw [distribute_of_sum first h]
    rfl
  · rw [not_or] at h
    have hdepth : (distribute a b first).sumDepth = 0 := by
      rw [distribute_of_plain first h.1 h.2, sumDepth_ofFactors, ← Nat.le_zero, sumDepthAll_le_iff]
      refine forall_mem_joined first (ha.onTop h.1).le ?_ (hb.onTop h.2).le
      have hfactors : sumDepthAll a.factors = 0 := by
        rw [← ha.onTop h.1]
        cases a with
        | prod fs => rfl
        | num | sym | pow | sum => exact Nat.max_zero _
      exact sumDepthAll_le_iff.mp hfactors.le
    exact ⟨⟨hwf, hpowers, fun _ => hdepth⟩, by rw [hdepth, ha.onTop h.1, hb.onTop h.2]; rfl⟩

theorem layered_multiplyOut {us : List Expr} (h : ∀ u ∈ us, u.Layered) :
    (multiplyOut us).Layered ∧ (multiplyOut us).sumDepth = sumDepthAll us := by
  rw [sumDepthAll_eq_foldl]
  exact multiplyOut_run Nat.zero_max ⟨layered_num 1, rfl⟩ layered_distribute h

/-- A pass that makes layers of some factors and keeps their depths does so for their product. -/
theorem layered_multiplyOut_map {f : Expr → Expr} {es : List Expr}
    (h : ∀ e ∈ es, (f e).Layered ∧ (f e).sumDepth = e.sumDepth) :
    (multiplyOut (es.map f)).Layered ∧ (multiplyOut (es.map f)).sumDepth = sumDepthAll es := by
  obtain ⟨hlayered, hdepth⟩ :=
    layered_multiplyOut (List.forall_mem_map.mpr fun e he => (h e he).1)
  exact ⟨hlayered, hdepth.trans (sumDepthAll_map fun e he => (h e he).2)⟩

/-- A pass that makes layers of some terms and keeps their depths does so for their sum. -/
theorem layered_ofTerms_map {f : Expr → Expr} {es : List Expr} (hlen : 2 ≤ es.length)
    (h : ∀ e ∈ es, (f e).Layered ∧ (f e).sumDepth = e.sumDepth) :
    (ofTerms (es.map f)).Layered ∧ (ofTerms (es.map f)).sumDepth = sumDepthAll es + 1 := by
  rw [sumDepth_ofTerms, sumDepthAll_map fun e he => (h e he).2]
  refine ⟨⟨?_, ?_, fun hne => absurd rfl hne⟩, rfl⟩
  · refine wellFormed_ofTerms (List.forall_mem_map.mpr fun e he => (h e he).1.wellFormed) ?_
    rw [List.length_map]
    exact hlen
  · exact exponents_ofTerms.mpr (List.forall_mem_map.mpr fun e he => (h e he).1.powerFree)

/-- A step leaves no sum below a product exactly if what it makes is not nested. -/
theorem distributed_distribute_iff {a b : Expr} (first : Bool) (ha : a.Layered) (hb : b.Layered) :
    (distribute a b first).Distributed ↔ (distribute a b first).sumDepth ≤ 1 := by
  obtain ⟨hlayered, hdepth⟩ := layered_distribute first ha hb
  by_cases h : a.kind = .sum ∨ b.kind = .sum
  · have hpowers := hlayered.powerFree
    rw [distribute_of_sum first h] at hpowers ⊢
    rw [distributed_ofTerms_iff, sumDepth_ofTerms]
    refine Iff.trans ?_ Nat.add_le_add_iff_right.symm
    rw [sumDepthAll_le_iff]
    refine forall₂_congr fun c hc => ?_
    obtain ⟨x, -, y, -, rfl⟩ := mem_crossTerms.mp hc
    rw [Nat.le_zero, ← sumFree_iff (exponents_ofTerms.mp hpowers _ hc)]
    exact distributed_ofFactors_iff
  · rw [not_or] at h
    have h0 : (distribute a b first).sumDepth = 0 := by
      rw [hdepth, ha.onTop h.1, hb.onTop h.2]
      rfl
    exact iff_of_true ((sumFree_iff hlayered.powerFree).mpr h0).distributed (by omega)

theorem distributed_multiplyOut_iff {us : List Expr} (hlen : 2 ≤ us.length)
    (h : ∀ u ∈ us, u.Layered) : (multiplyOut us).Distributed ↔ sumDepthAll us ≤ 1 := by
  rw [← (layered_multiplyOut h).2]
  rcases us.eq_nil_or_concat' with rfl | ⟨us, g, rfl⟩
  · exact absurd hlen (by decide)
  · have hne : us ≠ [] := by
      rintro rfl
      exact absurd hlen (Nat.lt_irrefl 1)
    obtain ⟨hus, hg⟩ := List.forall_mem_append.mp h
    rw [multiplyOut_concat hne]
    exact distributed_distribute_iff _ (layered_multiplyOut hus).1 (hg g (List.mem_singleton_self g))

/-! ### Expansions with natural exponents -/

/-- All exponents of the expression are natural numbers. -/
def NaturalExponents (e : Expr) : Prop :=
  e.Exponents fun p => p.den = 1 ∧ 0 ≤ p

theorem exists_natCast_eq {p : Rat} (h : p.den = 1 ∧ 0 ≤ p) : ∃ n : ℕ, (n : Rat) = p := by
  obtain ⟨n, hn⟩ := Int.eq_ofNat_of_zero_le (Rat.num_nonneg.mpr h.2)
  refine ⟨n, ?_⟩
  rw [← (Rat.den_eq_one_iff p).mp h.1, hn]
  rfl

/-- Multiplying out makes layers of an expression without powers, and keeps its depth. -/
theorem layered_multipliedOut {e : Expr} (hwf : e.WellFormed) (h : e.PowerFree) :
    e.multipliedOut.Layered ∧ e.multipliedOut.sumDepth = e.sumDepth := by
  induction e with
  | num | sym => exact ⟨⟨hwf, h, fun _ => rfl⟩, rfl⟩
  | pow b p => exact (exponents_pow.mp h).1.elim
  | prod fs ih =>
    rw [multipliedOut_prod]
    exact layered_multiplyOut_map fun f hf =>
      ih f hf (allWellFormed_iff.mp hwf.2.2 f hf) (exponents_prod.mp h f hf)
  | sum ts ih =>
    rw [multipliedOut_sum]
    exact layered_ofTerms_map hwf.1 fun t ht =>
      ih t ht (allWellFormed_iff.mp hwf.2.2 t ht) (exponents_sum.mp h t ht)

theorem layered_expandPower {b : Expr} (hb : b.Layered) (n : ℕ) :
    (expandPower b n).Layered ∧ (expandPower b n).sumDepth = if n = 0 then 0 else b.sumDepth := by
  rw [expandPower_natCast]
  obtain ⟨hlayered, hdepth⟩ := layered_multipliedOut hb.wellFormed hb.powerFree
  have hcopies : ∀ u ∈ List.replicate n b.multipliedOut, u.Layered := fun u hu =>
    List.eq_of_mem_replicate hu ▸ hlayered
  obtain ⟨hlayered', hdepth'⟩ := layered_multiplyOut hcopies
  split_ifs with h1 h0 h0
  · omega
  · exact ⟨hb, rfl⟩
  · exact ⟨layered_num 1, rfl⟩
  · exact ⟨hlayered', by rw [hdepth', sumDepthAll_replicate h0, hdepth]⟩

/-- An expansion is layered, and as deep as the expression. -/
theorem layered_expand {e : Expr} (hwf : e.WellFormed) (h : e.NaturalExponents) :
    e.expand.Layered ∧ e.expand.sumDepth = e.sumDepth := by
  induction e with
  | num | sym => exact ⟨⟨hwf, nofun, fun _ => rfl⟩, rfl⟩
  | pow b p ih =>
    obtain ⟨hp, hb⟩ := exponents_pow.mp h
    obtain ⟨n, rfl⟩ := exists_natCast_eq hp
    obtain ⟨hlayered, hdepth⟩ := ih hwf hb
    obtain ⟨hlayered', hdepth'⟩ := layered_expandPower hlayered n
    refine ⟨hlayered', hdepth'.trans ?_⟩
    simp only [hdepth, sumDepth, Nat.cast_eq_zero]
  | prod fs ih =>
    rw [expand_prod]
    exact layered_multiplyOut_map fun f hf =>
      ih f hf (allWellFormed_iff.mp hwf.2.2 f hf) (exponents_prod.mp h f hf)
  | sum ts ih =>
    rw [expand_sum]
    exact layered_ofTerms_map hwf.1 fun t ht =>
      ih t ht (allWellFormed_iff.mp hwf.2.2 t ht) (exponents_sum.mp h t ht)

mutual

/-- No product, and no power with an exponent above one, has a sum within a sum below it. What
stands below an exponent of zero does not count. -/
def ShallowFactors : Expr → Prop
  | num _ => True
  | sym _ => True
  | pow b p => p = 0 ∨ if p = 1 then b.ShallowFactors else b.sumDepth ≤ 1
  | prod fs => sumDepthAll fs ≤ 1
  | sum ts => AllShallowFactors ts

/-- Every expression of the list has shallow factors. -/
def AllShallowFactors : List Expr → Prop
  | [] => True
  | e :: es => e.ShallowFactors ∧ AllShallowFactors es

end

theorem allShallowFactors_iff {es : List Expr} :
    AllShallowFactors es ↔ ∀ e ∈ es, e.ShallowFactors := by
  induction es with
  | nil => simp [AllShallowFactors]
  | cons e es ih => rw [AllShallowFactors, ih, List.forall_mem_cons]

theorem distributed_num (q : Rat) : (num q).Distributed :=
  nofun

theorem distributed_expandPower_iff {b : Expr} (hb : b.Layered) (n : ℕ) :
    (expandPower b n).Distributed ↔
      n = 0 ∨ if n = 1 then b.Distributed else b.sumDepth ≤ 1 := by
  rw [expandPower_natCast]
  obtain ⟨hlayered, hdepth⟩ := layered_multipliedOut hb.wellFormed hb.powerFree
  split_ifs with h1 h0
  · rw [h1, or_iff_right Nat.one_ne_zero]
  · exact iff_of_true (distributed_num 1) (Or.inl h0)
  · rw [or_iff_right h0, distributed_multiplyOut_iff, sumDepthAll_replicate h0, hdepth]
    · rw [List.length_replicate]
      omega
    · exact fun u hu => List.eq_of_mem_replicate hu ▸ hlayered

/-- An expansion of natural exponents has no powers. It leaves no sum below a product exactly if no
product, and no power with an exponent above one, had a sum within a sum below it. -/
theorem distributed_expand_iff {e : Expr} (hwf : e.WellFormed) (h : e.NaturalExponents) :
    e.expand.PowerFree ∧ (e.expand.Distributed ↔ e.ShallowFactors) := by
  refine ⟨(layered_expand hwf h).1.powerFree, ?_⟩
  induction e with
  | num | sym => exact iff_of_true nofun trivial
  | pow b p ih =>
    obtain ⟨hp, hb⟩ := exponents_pow.mp h
    obtain ⟨n, rfl⟩ := exists_natCast_eq hp
    have hwf : b.WellFormed := hwf
    obtain ⟨hlayered, hdepth⟩ := layered_expand hwf hb
    rw [expand_pow, distributed_expandPower_iff hlayered, ih hwf hb, hdepth]
    simp only [ShallowFactors, Nat.cast_eq_zero, Nat.cast_eq_one]
  | prod fs ih =>
    have hfs := fun f hf =>
      layered_expand (allWellFormed_iff.mp hwf.2.2 f hf) (exponents_prod.mp h f hf)
    rw [expand_prod, distributed_multiplyOut_iff, sumDepthAll_map fun f hf => (hfs f hf).2]
    · rfl
    · rw [List.length_map]
      exact hwf.1
    · exact List.forall_mem_map.mpr fun f hf => (hfs f hf).1
  | sum ts ih =>
    have ih := fun t ht => ih t ht (allWellFormed_iff.mp hwf.2.2 t ht) (exponents_sum.mp h t ht)
    rw [expand_sum, distributed_ofTerms_iff, List.forall_mem_map]
    exact (forall₂_congr ih).trans allShallowFactors_iff.symm

/-- The cube of a sum, as its square times itself. -/
def cubedBinomial : Expr :=
  prod [pow (sum [num 1, sym ⟨'z', by decide⟩]) 2, sum [num 1, sym ⟨'z', by decide⟩]]

theorem distributed_expand_iff_cubedBinomial :
    cubedBinomial.WellFormed ∧ cubedBinomial.NaturalExponents ∧ cubedBinomial.ShallowFactors ∧
      cubedBinomial.expand.PowerFree ∧
        (cubedBinomial.expand.Distributed ↔ cubedBinomial.ShallowFactors) := by
  have hwf : cubedBinomial.WellFormed := by
    refine ⟨Nat.le_refl 2, by decide, ⟨Nat.le_refl 2, by decide, trivial, trivial, trivial⟩,
      ⟨Nat.le_refl 2, by decide, trivial, trivial, trivial⟩, trivial⟩
  have hnat : cubedBinomial.NaturalExponents := by
    simp [cubedBinomial, NaturalExponents]
  have hshallow : cubedBinomial.ShallowFactors := by
    show sumDepthAll _ ≤ 1
    decide
  exact ⟨hwf, hnat, hshallow, distributed_expand_iff hwf hnat⟩

/-- The product of a letter with a sum one of whose terms is a sum. -/
def nestedProduct : Expr :=
  prod [sum [sum [sym ⟨'a', by decide⟩, sym ⟨'b', by decide⟩], sym ⟨'y', by decide⟩],
    sym ⟨'z', by decide⟩]

/-- A sum within a sum is left below a product. -/
theorem not_distributed_expand_nestedProduct :
    nestedProduct.WellFormed ∧ nestedProduct.NaturalExponents ∧
      nestedProduct.expand =
        sum [prod [sum [sym ⟨'a', by decide⟩, sym ⟨'b', by decide⟩], sym ⟨'z', by decide⟩],
          prod [sym ⟨'y', by decide⟩, sym ⟨'z', by decide⟩]] ∧
      ¬ nestedProduct.expand.Distributed := by
  have hexpand : nestedProduct.expand = sum
      [prod [sum [sym ⟨'a', by decide⟩, sym ⟨'b', by decide⟩], sym ⟨'z', by decide⟩],
        prod [sym ⟨'y', by decide⟩, sym ⟨'z', by decide⟩]] := by decide
  refine ⟨?_, ?_, hexpand, ?_⟩
  · refine ⟨Nat.le_refl 2, by decide, ⟨Nat.le_refl 2, by decide, ⟨Nat.le_refl 2, by decide,
      trivial, trivial, trivial⟩, trivial, trivial⟩, trivial, trivial⟩
  · simp [nestedProduct, NaturalExponents]
  · rw [hexpand]
    intro h
    have hprod := (everywhere_sum.mp h).2 _ List.mem_cons_self
    have hfree := (everywhere_prod.mp (hprod.root (Or.inr rfl))).2 _ List.mem_cons_self
    exact hfree.root rfl

end ExactAlgebra.Expr
