import ExactAlgebra.Proofs.Canonical.Gathering
import ExactAlgebra.Proofs.Canonical.Powers

/-!
# Normal nodes

What is left to do at a node of an expression, said by what must not be there: like terms, like
factors, a sum in a sum, a product in a product, a power of a power. A node with nothing left to do
is normal (`NormalNode`).

`Reduced` is the invariant of the pass, from which everything about its results follows: the
expression is well formed, all its nodes are normal, and a power of a number is there only for want
of a root. A term in such an expression is its stem with its coefficient (`withCoefficient_stem`),
and a stem with another coefficient is such a term again (`IsStem.reduced_withCoefficient`).
-/

namespace ExactAlgebra

namespace Expr

/-! ### Numbers in lists in order -/

theorem num_le {q : Rat} {u : Expr} (h : u.kind ≠ .rational) : num q ≤ u := by
  rw [le_def, compare_of_kind_ne (fun hk => h hk.symm), ne_eq, Nat.compare_eq_gt]
  exact Nat.not_lt_zero _

theorem kind_eq_rational_of_le {q : Rat} {u : Expr} (h : u ≤ num q) : u.kind = .rational := by
  by_contra hu
  rw [le_def, compare_of_kind_ne hu, ne_eq, Nat.compare_eq_gt] at h
  exact hu (Kind.priority_injective (Nat.eq_zero_of_not_pos h))

/-- Factors without a number stay in order with a number in front. -/
theorem sort_num_cons {c : Rat} {fs : List Expr} (hsorted : fs.Pairwise (· ≤ ·))
    (hfs : ∀ f ∈ fs, f.kind ≠ .rational) : sort (num c :: fs) = num c :: fs :=
  sort_eq_self (List.pairwise_cons.mpr ⟨fun f hf => num_le (hfs f hf), hsorted⟩)

theorem sorted_factors_of_wellFormed {u : Expr} (h : u.WellFormed) :
    u.factors.Pairwise (· ≤ ·) := by
  cases u with
  | prod fs => exact h.2.1
  | num | sym | pow | sum => exact List.pairwise_singleton _ _

theorem numbers_perm {us vs : List Expr} (h : us.Perm vs) : (numbers us).Perm (numbers vs) :=
  h.filter _

theorem nonNumbers_perm {us vs : List Expr} (h : us.Perm vs) :
    (nonNumbers us).Perm (nonNumbers vs) :=
  h.filter _

/-! ### Normal nodes -/

/-- The power of `b` to `p` has nothing left to do. -/
structure NormalPower (b : Expr) (p : Rat) : Prop where
  base_ne_power : b.kind ≠ .power
  exponent_ne_zero : p ≠ 0
  upright : ∀ q, b = num q → q ≠ 0 ∧ 0 < p

/-- The product of some factors has nothing left to do. -/
structure NormalProduct (fs : List Expr) : Prop where
  ne_product : ∀ f ∈ fs, f.kind ≠ .product
  numbers_le : (numbers fs).length ≤ 1
  number_ne : ∀ q, num q ∈ fs → q ≠ 0 ∧ q ≠ 1
  nodup_bases : ((nonNumbers fs).map base).Nodup

/-- The sum of some terms has nothing left to do. -/
structure NormalSum (ts : List Expr) : Prop where
  ne_sum : ∀ t ∈ ts, t.kind ≠ .sum
  numbers_le : (numbers ts).length ≤ 1
  number_ne : ∀ q, num q ∈ ts → q ≠ 0
  nodup_keys : ((nonNumbers ts).map key).Nodup
  coefficient_ne : ∀ q fs, prod (num q :: fs) ∈ ts → q ≠ 0 ∧ q ≠ 1

/-- The node at the root has nothing left to do. -/
def NormalNode : Expr → Prop
  | num _ => True
  | sym _ => True
  | pow b p => NormalPower b p
  | prod fs => NormalProduct fs
  | sum ts => NormalSum ts

theorem NormalProduct.perm {fs gs : List Expr} (h : fs.Perm gs) (hfs : NormalProduct fs) :
    NormalProduct gs where
  ne_product f hf := hfs.ne_product f (h.mem_iff.mpr hf)
  numbers_le := (numbers_perm h).length_eq ▸ hfs.numbers_le
  number_ne q hq := hfs.number_ne q (h.mem_iff.mpr hq)
  nodup_bases := ((nonNumbers_perm h).map base).nodup_iff.mp hfs.nodup_bases

theorem NormalProduct.tail {f : Expr} {fs : List Expr} (h : NormalProduct (f :: fs)) :
    NormalProduct fs where
  ne_product g hg := h.ne_product g (List.mem_cons_of_mem f hg)
  numbers_le := (((List.sublist_cons_self f fs).filter _).length_le).trans h.numbers_le
  number_ne q hq := h.number_ne q (List.mem_cons_of_mem f hq)
  nodup_bases := (((List.sublist_cons_self f fs).filter _).map base).nodup h.nodup_bases

theorem NormalSum.perm {ts us : List Expr} (h : ts.Perm us) (hts : NormalSum ts) :
    NormalSum us where
  ne_sum t ht := hts.ne_sum t (h.mem_iff.mpr ht)
  numbers_le := (numbers_perm h).length_eq ▸ hts.numbers_le
  number_ne q hq := hts.number_ne q (h.mem_iff.mpr hq)
  nodup_keys := ((nonNumbers_perm h).map key).nodup_iff.mp hts.nodup_keys
  coefficient_ne q fs hf := hts.coefficient_ne q fs (h.mem_iff.mpr hf)

end Expr

namespace Canonical

open ExactAlgebra.Expr

variable {guess : RootGuess}

/-! ### Reduced expressions -/

/-- A node has nothing left to do; a power of a number is there for want of a root, and only such a
power may have the exponent one. -/
structure ReducedNode (guess : RootGuess) (e : Expr) : Prop where
  normal : e.NormalNode
  rootMissing : ∀ q p, e = .pow (.num q) p → RootMissing guess q p
  base_of_one : ∀ b, e = .pow b 1 → b.kind = .rational

/-- What the results of the pass have. -/
structure Reduced (guess : RootGuess) (e : Expr) : Prop where
  wellFormed : e.WellFormed
  nodes : e.Everywhere (ReducedNode guess)

theorem reduced_num (q : Rat) : Reduced guess (.num q) :=
  ⟨trivial, ⟨trivial, nofun, nofun⟩⟩

theorem reduced_sym (x : Letter) : Reduced guess (.sym x) :=
  ⟨trivial, ⟨trivial, nofun, nofun⟩⟩

theorem reduced_pow {b : Expr} {p : Rat} (hb : Reduced guess b) (hn : NormalPower b p)
    (hroot : ∀ q, b = .num q → RootMissing guess q p) (hone : p = 1 → b.kind = .rational) :
    Reduced guess (.pow b p) := by
  refine ⟨hb.wellFormed, ⟨hn, ?_, ?_⟩, hb.nodes⟩
  · rintro q _ ⟨⟩
    exact hroot q rfl
  · rintro _ ⟨⟩
    exact hone rfl

theorem reduced_ofFactors {fs : List Expr} (hfs : ∀ f ∈ fs, Reduced guess f)
    (hlen : 2 ≤ fs.length) (hn : NormalProduct fs) : Reduced guess (ofFactors fs) := by
  refine ⟨wellFormed_ofFactors (fun f hf => (hfs f hf).wellFormed) hlen, ?_⟩
  rw [ofFactors, everywhere_prod]
  constructor
  · exact ⟨hn.perm (sort_perm fs).symm, by simp, by simp⟩
  · intro f hf
    exact (hfs f (mem_sort.mp hf)).nodes

theorem reduced_ofTerms {ts : List Expr} (hts : ∀ t ∈ ts, Reduced guess t)
    (hlen : 2 ≤ ts.length) (hn : NormalSum ts) : Reduced guess (ofTerms ts) := by
  refine ⟨wellFormed_ofTerms (fun t ht => (hts t ht).wellFormed) hlen, ?_⟩
  rw [ofTerms, everywhere_sum]
  constructor
  · exact ⟨hn.perm (sort_perm ts).symm, by simp, by simp⟩
  · intro t ht
    exact (hts t (mem_sort.mp ht)).nodes

namespace Reduced

theorem normal {e : Expr} (h : Reduced guess e) : e.NormalNode :=
  h.nodes.root.normal

theorem base {b : Expr} {p : Rat} (h : Reduced guess (.pow b p)) : Reduced guess b :=
  ⟨h.wellFormed, h.nodes.2⟩

theorem rootMissing {q p : Rat} (h : Reduced guess (.pow (.num q) p)) : RootMissing guess q p :=
  h.nodes.root.rootMissing q p rfl

theorem factor {fs : List Expr} (h : Reduced guess (.prod fs)) : ∀ f ∈ fs, Reduced guess f :=
  fun f hf => ⟨allWellFormed_iff.mp h.wellFormed.2.2 f hf, (everywhere_prod.mp h.nodes).2 f hf⟩

theorem term {ts : List Expr} (h : Reduced guess (.sum ts)) : ∀ t ∈ ts, Reduced guess t :=
  fun t ht => ⟨allWellFormed_iff.mp h.wellFormed.2.2 t ht, (everywhere_sum.mp h.nodes).2 t ht⟩

end Reduced

/-! ### Factors of reduced terms -/

namespace Reduced

variable {u : Expr}

theorem reduced_factors (h : Reduced guess u) : ∀ f ∈ u.factors, Reduced guess f := by
  cases u with
  | prod fs => exact h.factor
  | num | sym | pow | sum => exact List.forall_mem_singleton.mpr h

theorem factor_ne_product (h : Reduced guess u) : ∀ f ∈ u.factors, f.kind ≠ .product := by
  cases u with
  | prod fs =>
    have hn : NormalProduct fs := h.normal
    exact hn.ne_product
  | num | sym | pow | sum => exact List.forall_mem_singleton.mpr (by simp [kind])

theorem nodup_bases (h : Reduced guess u) : ((nonNumbers u.factors).map Expr.base).Nodup := by
  cases u with
  | prod fs =>
    have hn : NormalProduct fs := h.normal
    exact hn.nodup_bases
  | num => exact List.nodup_nil
  | sym | pow | sum => exact List.nodup_singleton _

end Reduced

/-! ### Stems of reduced terms -/

/-- A term, reduced and no number, with no number in front. -/
structure IsStem (guess : RootGuess) (k : Expr) : Prop where
  reduced : Reduced guess k
  ne_number : k.kind ≠ .rational
  factor_ne_number : ∀ f ∈ k.factors, f.kind ≠ .rational

/-- A number among the factors of a reduced product is the first of them and the only one. -/
theorem Reduced.prod_cases {fs : List Expr} (h : Reduced guess (.prod fs)) :
    (∀ f ∈ fs, f.kind ≠ .rational) ∨
      ∃ c gs, fs = .num c :: gs ∧ c ≠ 0 ∧ c ≠ 1 ∧ ∀ f ∈ gs, f.kind ≠ .rational := by
  by_cases hex : ∃ q, .num q ∈ fs
  · obtain ⟨q, hq⟩ := hex
    obtain ⟨-, hsorted, -⟩ := h.wellFormed
    have hn : NormalProduct fs := h.normal
    cases fs with
    | nil => cases hq
    | cons f gs =>
      have hf : f.kind = .rational := by
        rcases List.mem_cons.mp hq with rfl | hq
        · rfl
        · exact kind_eq_rational_of_le ((List.pairwise_cons.mp hsorted).1 _ hq)
      obtain ⟨c, rfl⟩ := kind_eq_rational_iff.mp hf
      obtain ⟨h0, h1⟩ := hn.number_ne c List.mem_cons_self
      refine Or.inr ⟨c, gs, rfl, h0, h1, fun g hg hrat => ?_⟩
      have hmem : g ∈ numbers gs := List.mem_filter.mpr ⟨hg, by simpa using hrat⟩
      have hlen : (numbers gs).length + 1 ≤ 1 := hn.numbers_le
      have := List.length_pos_of_mem hmem
      omega
  · refine Or.inl fun f hf hrat => hex ?_
    obtain ⟨q, rfl⟩ := kind_eq_rational_iff.mp hrat
    exact ⟨q, hf⟩

/-- A term without a number in front is its own stem. -/
theorem plain_of_factors {u : Expr} (h : ∀ f ∈ u.factors, f.kind ≠ .rational) :
    u.stem = u ∧ u.coefficient = 1 := by
  cases u with
  | prod fs =>
    cases fs with
    | nil => exact ⟨rfl, rfl⟩
    | cons f fs =>
      have hf : f.kind ≠ .rational := h f List.mem_cons_self
      cases f with
      | num => exact absurd rfl hf
      | sym | pow | prod | sum => exact ⟨rfl, rfl⟩
  | num | sym | pow | sum => exact ⟨rfl, rfl⟩

section

variable {k : Expr} (hwf : k.WellFormed) (hk : ∀ f ∈ k.factors, f.kind ≠ .rational)

include hwf hk

/-- A term without a number in front, with a coefficient other than one, is a product with the
coefficient in front. -/
theorem withCoefficient_of_wellFormed {c : Rat} (h : c ≠ 1) :
    withCoefficient c k = .prod (.num c :: k.factors) := by
  rw [withCoefficient, if_neg h, ofFactors, sort_num_cons (sorted_factors_of_wellFormed hwf) hk]

theorem stem_withCoefficient_of_wellFormed (c : Rat) : (withCoefficient c k).stem = k := by
  by_cases h : c = 1
  · rw [withCoefficient, if_pos h]
    exact (plain_of_factors hk).1
  · rw [withCoefficient_of_wellFormed hwf hk h]
    cases k with
    | prod fs =>
      rcases fs with _ | ⟨a, _ | ⟨b, fs⟩⟩
      · exact absurd hwf.1 (by simp)
      · exact absurd hwf.1 (by simp)
      · show ofFactors (a :: b :: fs) = _
        exact congrArg Expr.prod (sort_eq_self hwf.2.1)
    | num | sym | pow | sum => rfl

theorem coefficient_withCoefficient_of_wellFormed (c : Rat) :
    (withCoefficient c k).coefficient = c := by
  by_cases h : c = 1
  · rw [withCoefficient, if_pos h, h]
    exact (plain_of_factors hk).2
  · rw [withCoefficient_of_wellFormed hwf hk h]
    rfl

end

/-- The stem of a reduced term is one, and it gives the term with its coefficient, which is not
zero. -/
theorem Reduced.stem_spec {u : Expr} (h : Reduced guess u) (hu : u.kind ≠ .rational) :
    IsStem guess u.stem ∧ u.coefficient ≠ 0 ∧ withCoefficient u.coefficient u.stem = u := by
  have plain : (∀ f ∈ u.factors, f.kind ≠ .rational) →
      IsStem guess u.stem ∧ u.coefficient ≠ 0 ∧ withCoefficient u.coefficient u.stem = u := by
    intro hf
    obtain ⟨hs, hc⟩ := plain_of_factors hf
    rw [hs, hc]
    exact ⟨⟨h, hu, hf⟩, one_ne_zero, if_pos rfl⟩
  cases u with
  | num q => exact absurd rfl hu
  | sym | pow | sum => exact plain (List.forall_mem_singleton.mpr hu)
  | prod fs =>
    rcases h.prod_cases with hfs | ⟨c, gs, rfl, h0, h1, hgs⟩
    · exact plain hfs
    · obtain ⟨hlen, hsorted, -⟩ := h.wellFormed
      have hsorted := (List.pairwise_cons.mp hsorted).2
      have hn : NormalProduct (.num c :: gs) := h.normal
      have hreduced : ∀ g ∈ gs, Reduced guess g := by
        intro g hg
        exact h.factor g (List.mem_cons_of_mem _ hg)
      rcases gs with _ | ⟨a, _ | ⟨b, gs⟩⟩
      · simp at hlen
      · have ha : a.factors = [a] := by
          have := hn.ne_product a (by simp)
          cases a <;> first | rfl | exact absurd rfl this
        refine ⟨⟨hreduced a (by simp), hgs a (by simp), ?_⟩, h0, ?_⟩
        · show ∀ f ∈ a.factors, _
          rwa [ha]
        · show withCoefficient c a = _
          rw [withCoefficient, if_neg h1, ha, ofFactors, sort_num_cons hsorted hgs]
      · have hstem : stem (.prod (.num c :: a :: b :: gs)) = .prod (a :: b :: gs) := by
          show ofFactors (a :: b :: gs) = _
          rw [ofFactors, sort_eq_self hsorted]
        rw [hstem]
        refine ⟨⟨?_, by simp [kind], hgs⟩, h0, ?_⟩
        · rw [← hstem]
          exact reduced_ofFactors hreduced (by simp) hn.tail
        · show withCoefficient c (.prod (a :: b :: gs)) = _
          rw [withCoefficient, if_neg h1, ofFactors]
          exact congrArg Expr.prod (sort_num_cons hsorted hgs)

namespace IsStem

variable {k : Expr} (hk : IsStem guess k)

include hk

theorem normalProduct_factors : NormalProduct k.factors where
  ne_product := hk.reduced.factor_ne_product
  numbers_le := by simp [numbers_eq_nil hk.factor_ne_number]
  number_ne q hq := absurd rfl (hk.factor_ne_number _ hq)
  nodup_bases := hk.reduced.nodup_bases

/-- A stem with a coefficient other than one is a product, with the coefficient in front. -/
theorem withCoefficient_eq {c : Rat} (h : c ≠ 1) :
    withCoefficient c k = .prod (.num c :: k.factors) :=
  withCoefficient_of_wellFormed hk.reduced.wellFormed hk.factor_ne_number h

theorem stem_withCoefficient (c : Rat) : (withCoefficient c k).stem = k :=
  stem_withCoefficient_of_wellFormed hk.reduced.wellFormed hk.factor_ne_number c

theorem kind_withCoefficient_ne_rational (c : Rat) : (withCoefficient c k).kind ≠ .rational := by
  by_cases h : c = 1
  · rw [withCoefficient, if_pos h]
    exact hk.ne_number
  · rw [hk.withCoefficient_eq h]
    simp [kind]

theorem kind_withCoefficient_ne_sum {c : Rat} (h : isUnwrapped (k, c) = false) :
    (withCoefficient c k).kind ≠ .sum := by
  by_cases h1 : c = 1
  · rw [withCoefficient, if_pos h1]
    intro hsum
    rw [isUnwrapped_iff.mpr ⟨hsum, h1⟩] at h
    cases h
  · rw [hk.withCoefficient_eq h1]
    simp [kind]

theorem reduced_withCoefficient {c : Rat} (h0 : c ≠ 0) : Reduced guess (withCoefficient c k) := by
  by_cases h : c = 1
  · rw [withCoefficient, if_pos h]
    exact hk.reduced
  · have hn := hk.normalProduct_factors
    have hnone : numbers k.factors = [] :=
      List.filter_eq_nil_iff.mpr fun f hf => by simpa using hk.factor_ne_number f hf
    rw [withCoefficient, if_neg h]
    refine reduced_ofFactors ?_ ?_ ⟨?_, ?_, ?_, ?_⟩
    · exact List.forall_mem_cons.mpr ⟨reduced_num c, hk.reduced.reduced_factors⟩
    · exact Nat.succ_le_succ (List.length_pos_iff.mpr (factors_ne_nil hk.reduced.wellFormed))
    · exact List.forall_mem_cons.mpr ⟨by simp [kind], hn.ne_product⟩
    · show (numbers k.factors).length + 1 ≤ 1
      rw [hnone]
      rfl
    · intro q hq
      rcases List.mem_cons.mp hq with hq | hq
      · cases hq
        exact ⟨h0, h⟩
      · exact hn.number_ne q hq
    · exact hn.nodup_bases

end IsStem

/-- The factors of a reduced term are those of its stem, and its coefficient. -/
theorem Reduced.factors_eq {u : Expr} (h : Reduced guess u) (hu : u.kind ≠ .rational) :
    u.factors = if u.coefficient = 1 then u.stem.factors
      else .num u.coefficient :: u.stem.factors := by
  obtain ⟨hstem, -, hterm⟩ := h.stem_spec hu
  split_ifs with hc
  · rw [hc, withCoefficient, if_pos rfl] at hterm
    rw [hterm]
  · rw [hstem.withCoefficient_eq hc] at hterm
    exact (congrArg factors hterm).symm

theorem Reduced.nonNumbers_factors {u : Expr} (h : Reduced guess u) (hu : u.kind ≠ .rational) :
    nonNumbers u.factors = u.stem.factors := by
  have hplain := (h.stem_spec hu).1.factor_ne_number
  rw [h.factors_eq hu]
  split_ifs
  · exact nonNumbers_eq_self hplain
  · rw [nonNumbers_num_cons, nonNumbers_eq_self hplain]

end Canonical

end ExactAlgebra
