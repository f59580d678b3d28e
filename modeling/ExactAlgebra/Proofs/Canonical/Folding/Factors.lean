import ExactAlgebra.Proofs.Canonical.Folding.Terms

/-!
# Folding factors

The folding of a product (`foldingOfFactors`): a factor is entered with its exponent under its base,
and a group is turned into the factors of its power. A group is lost where the power is a number, or
is itself a product.
-/

namespace ExactAlgebra.Canonical

open ExactAlgebra.Expr

variable {guess : RootGuess}

/-! ### Powers of groups -/

theorem Irreducible.firm_factors {u : Expr} (h : Irreducible guess u) :
    Firm guess .product u.factors :=
  fun f hf => ⟨⟨h.reduced.reduced_factors f hf, oneFree_factors_iff.mpr h.oneFree f hf⟩,
    h.reduced.factor_ne_product f hf⟩

/-- What the power of a group comes to. -/
def groupPower (guess : RootGuess) (g : Expr × Rat) : Expr :=
  powerBy (simplifyTraced guess) g

/-- The factors that a group is turned into. -/
def groupFactors (guess : RootGuess) (g : Expr × Rat) : List Expr :=
  if g.2 = 0 then [] else (groupPower guess g).factors

theorem groupFactors_zero (b : Expr) : groupFactors guess (b, 0) = [] :=
  if_pos rfl

theorem exists_simplify_group {b : Expr} {p : Rat} (hb : Reduced guess b) (hp : p ≠ 0) :
    ∃ n, (Expr.pow b p).simplify guess = .ok n := by
  refine exists_simplify_eq_ok guess ⟨?_, hb.zeroFree⟩
  rintro _ ⟨⟩
  exact hp rfl

theorem yields_groupPower {us : List Expr} (hus : ∀ u ∈ us, Reduced guess u) :
    ∀ g ∈ live (factorGroups us []), Yields guess (.pow g.1 g.2) (groupPower guess g) := by
  intro g hg
  have hb := isBase_of_mem_groups hus g (List.mem_filter.mp hg).1
  exact yields_formBy (exists_simplify_group hb.reduced (ne_zero_of_mem_live hg))

/-- The power of an irreducible base is the one that the base and exponent give. -/
theorem power_eq_groupPower {b : Expr} {p : Rat} (hb : Irreducible guess b) (hp : p ≠ 0) :
    power guess b p = .ok (groupPower guess (b, p)) := by
  obtain ⟨n, hn⟩ := exists_simplify_group hb.reduced hp
  obtain ⟨m, hm, hpower⟩ := simplify_pow_eq_ok hn
  have hform : groupPower guess (b, p) = n := formBy_eq hn
  rw [simplify_of_irreducible hb, Except.ok.injEq] at hm
  rw [hform, ← hpower, hm]

/-- An irreducible factor is the power of its base. -/
theorem groupPower_of_irreducible {f : Expr} (h : Irreducible guess f) :
    groupPower guess (f.base, f.exponent) = f := by
  have hpower := power_eq_groupPower h.base_of_factor (exponent_ne_zero h.reduced)
  rw [power_base_exponent h] at hpower
  exact (Except.ok.inj hpower).symm

/-- The power of a group of irreducible factors. -/
theorem raises_groupPower {b : Expr} {p : Rat} (hb : Irreducible guess b) (hbase : IsBase guess b p)
    (hp : p ≠ 0) : Raises guess b p (groupPower guess (b, p)) := by
  have hraises := raises_of_power guess (power_eq_groupPower hb hp)
  rwa [drawnTogether_of_ne hbase.ne_power] at hraises

/-- The power of a group of irreducible factors is a number, or the base, or a power of the base. -/
theorem groupPower_cases {b : Expr} {p : Rat} (hb : Irreducible guess b)
    (hbase : IsBase guess b p) (hp : p ≠ 0) :
    (b.kind = .rational ∧ ∃ q, groupPower guess (b, p) = .num q) ∨
      (p = 1 ∧ groupPower guess (b, p) = b) ∨
        (p ≠ 1 ∧ groupPower guess (b, p) = .pow b p) := by
  generalize hn : groupPower guess (b, p) = n
  have hraises := raises_groupPower hb hbase hp
  rw [hn] at hraises
  cases hraises with
  | one => exact Or.inr (Or.inl ⟨rfl, rfl⟩)
  | zero | unit | root => exact Or.inl ⟨rfl, _, rfl⟩
  | left _ _ hp1 _ =>
    rw [upright_of_pos (hbase.upright _ rfl).2]
    exact Or.inr (Or.inr ⟨hp1, rfl⟩)
  | keep _ _ hp1 => exact Or.inr (Or.inr ⟨hp1, rfl⟩)

/-! ### What factors come to -/

/-- What some factors come down to. -/
def groupedFactors (guess : RootGuess) (us : List Expr) : Powers :=
  gathered (groupPower guess) us

section

variable {us : List Expr} (hus : ∀ u ∈ us, Reduced guess u)

include hus

theorem groupPowers_eq :
    (groupPowers (simplifyTraced guess) (factorGroups us [])).outcome =
      .ok (powersOf (groupPower guess) (factorGroups us [])) := by
  cases h : (groupPowers (simplifyTraced guess) (factorGroups us [])).outcome with
  | ok ps => rw [(groupPowers_eq_ok h).2, show powerBy _ = groupPower guess from rfl]
  | error err =>
    obtain ⟨g, hg, herr⟩ := groupPowers_eq_error h
    have hb := isBase_of_mem_groups hus g (List.mem_filter.mp hg).1
    obtain ⟨n, hn⟩ := exists_simplify_group hb.reduced (ne_zero_of_mem_live hg)
    rw [Expr.simplify, herr] at hn
    cases hn

theorem productForm_eq :
    productForm guess us =
      if (groupedFactors guess us).constant = 0 then .ok (.num 0)
      else if (groupedFactors guess us).Regroups then
        (ofFactors ((groupedFactors guess us).factors ++
          [.num (groupedFactors guess us).constant])).simplify guess
      else productOr (.num (groupedFactors guess us).constant)
        ((groupedFactors guess us).factors ++ besides (groupedFactors guess us).constant 1) := by
  simp only [productForm, product, Rational.multiply_eq, Traced.outcome_bind, groupPowers_eq hus]
  show Traced.outcome (if (groupedFactors guess us).constant = 0 then _
    else if (groupedFactors guess us).Regroups then _ else _) = _
  split_ifs with h0 hregroups
  · rfl
  · have hlen : 2 ≤ ((groupedFactors guess us).factors ++
        [Expr.num (groupedFactors guess us).constant]).length := by
      have hpowers := yields_groupPower hus
      have htwo :=
        two_le_length_of_regroups (fun g hg => reduced_of_yields (hpowers g hg)) hregroups
      rw [List.length_append]
      exact htwo.trans (Nat.le_add_right _ _)
    show (Traced.lift (prodOf ((groupedFactors guess us).factors ++
      [.num (groupedFactors guess us).constant])) >>= simplifyTraced guess).outcome = _
    rw [prodOf_eq_ok_iff.mpr ⟨hlen, rfl⟩]
    rfl
  · rfl

end

/-! ### What factors are worth -/

/-- What a factor is worth: its exponent under its base, or the number that it is. A product of
these that has a factor zero is zero, whatever the exponents are. -/
noncomputable def factorWorth : Expr → Additive (AddMonoidAlgebra ℚ (Expr →₀ ℚ))
  | .num q => .ofMul (AddMonoidAlgebra.single 0 q)
  | u => .ofMul (AddMonoidAlgebra.single (Finsupp.single u.base u.exponent) 1)

theorem factorWorth_of_ne {u : Expr} (h : u.kind ≠ .rational) :
    factorWorth u = .ofMul (AddMonoidAlgebra.single (Finsupp.single u.base u.exponent) 1) := by
  cases u with
  | num => exact absurd rfl h
  | sym | pow | prod | sum => rfl

theorem worthAll_factorWorth (us : List Expr) :
    worthAll factorWorth us =
      .ofMul (AddMonoidAlgebra.single (Groups.amounts (factorEntries us)) (constantFactor us)) := by
  induction us with
  | nil => rfl
  | cons u us ih =>
    rw [worthAll_cons, ih]
    by_cases h : u.kind = .rational
    · obtain ⟨q, rfl⟩ := kind_eq_rational_iff.mp h
      show Additive.ofMul (AddMonoidAlgebra.single 0 q * AddMonoidAlgebra.single _ _) = _
      rw [AddMonoidAlgebra.single_mul_single, zero_add, constantFactor_num_cons]
      rfl
    · rw [factorWorth_of_ne h, ← ofMul_mul, AddMonoidAlgebra.single_mul_single, one_mul,
        constantFactor_cons_of_ne us h, factorEntries_cons_of_ne us h, Groups.amounts_cons]

theorem worthAll_factorWorth_eq_iff {us vs : List Expr} :
    worthAll factorWorth us = worthAll factorWorth vs ↔
      (Groups.amounts (factorEntries us) = Groups.amounts (factorEntries vs) ∧
          constantFactor us = constantFactor vs) ∨
        (constantFactor us = 0 ∧ constantFactor vs = 0) := by
  rw [worthAll_factorWorth, worthAll_factorWorth, Additive.ofMul.apply_eq_iff_eq,
    AddMonoidAlgebra.single_inj]

theorem constantFactor_append (us vs : List Expr) :
    constantFactor (us ++ vs) = constantFactor us * constantFactor vs := by
  induction us with
  | nil => exact (one_mul _).symm
  | cons u us ih =>
    by_cases h : u.kind = .rational
    · obtain ⟨q, rfl⟩ := kind_eq_rational_iff.mp h
      rw [List.cons_append, constantFactor_num_cons, constantFactor_num_cons, ih, mul_assoc]
    · rw [List.cons_append, constantFactor_cons_of_ne _ h, constantFactor_cons_of_ne _ h, ih]

theorem constantFactor_concat (us : List Expr) (c : Rat) :
    constantFactor (us ++ [.num c]) = constantFactor us * c := by
  rw [constantFactor_append, constantFactor_singleton]

/-! ### What is gathered from factors -/

theorem factors_groupedFactors (us : List Expr) :
    (groupedFactors guess us).factors = (live (Groups.collect (factorEntries us))).flatMap
      fun g => remaining (groupPower guess g) := by
  rw [← factorGroups_eq]
  exact factors_powersOf _ _

theorem constant_groupedFactors (us : List Expr) :
    (groupedFactors guess us).constant = constantFactor us *
      ((live (Groups.collect (factorEntries us))).map fun g =>
        constantOf (groupPower guess g)).prod := by
  rw [← factorGroups_eq]
  exact congrArg (_ * ·) (constant_powersOf _ _)

section

variable {us vs : List Expr}
  (h : Groups.amounts (factorEntries us) = Groups.amounts (factorEntries vs))

include h

theorem groupedFactors_perm :
    (groupedFactors guess us).factors.Perm (groupedFactors guess vs).factors := by
  rw [factors_groupedFactors, factors_groupedFactors]
  exact (live_collect_perm h).flatMap_right _

theorem constant_groupedFactors_congr (hconstant : constantFactor us = constantFactor vs) :
    (groupedFactors guess us).constant = (groupedFactors guess vs).constant := by
  rw [constant_groupedFactors, constant_groupedFactors, hconstant]
  exact congrArg (_ * ·) ((live_collect_perm h).map _).prod_eq

theorem regroups_congr :
    (groupedFactors guess us).Regroups ↔ (groupedFactors guess vs).Regroups := by
  have hplain : (groupedFactors guess us).fromProduct = (groupedFactors guess vs).fromProduct := by
    show (powersOf _ _).fromProduct = (powersOf _ _).fromProduct
    rw [fromProduct_powersOf, fromProduct_powersOf, factorGroups_eq, factorGroups_eq]
    exact (live_collect_perm h).any_eq
  rw [Powers.Regroups, Powers.Regroups, hplain, ((groupedFactors_perm h).map Expr.base).nodup_iff]

end

theorem productForm_of_zero {us : List Expr} (hus : ∀ u ∈ us, Reduced guess u)
    (h : constantFactor us = 0) : productForm guess us = .ok (.num 0) := by
  rw [productForm_eq hus, constant_groupedFactors, h, zero_mul, if_pos rfl]

/-- What factors come to is settled by what they are worth. -/
theorem productForm_congr {us vs : List Expr} (hus : ∀ u ∈ us, Reduced guess u)
    (hvs : ∀ v ∈ vs, Reduced guess v) (h : worthAll factorWorth us = worthAll factorWorth vs) :
    productForm guess us = productForm guess vs := by
  rcases worthAll_factorWorth_eq_iff.mp h with ⟨hamounts, hconstant⟩ | ⟨hu, hv⟩
  · have hperm : (groupedFactors guess us).factors.Perm (groupedFactors guess vs).factors :=
      groupedFactors_perm hamounts
    rw [productForm_eq hus, productForm_eq hvs, constant_groupedFactors_congr hamounts hconstant]
    simp only [regroups_congr hamounts]
    rw [ofFactors, sort_eq_of_perm (hperm.append_right _),
      productOr_eq_of_perm _ (hperm.append_right _), ← ofFactors]
  · rw [productForm_of_zero hus hu, productForm_of_zero hvs hv]

/-- A product comes to what its parts come to, in whatever order they are. -/
theorem simplify_ofFactors {es : List Expr} (hes : ∀ e ∈ es, ∃ n, e.simplify guess = .ok n) :
    (ofFactors es).simplify guess = productForm guess (parts guess .product es) := by
  have hsort : ∀ e ∈ sort es, ∃ n, e.simplify guess = .ok n := fun e he => hes e (mem_sort.mp he)
  rw [ofFactors, simplify_prod hsort]
  exact productForm_congr (reduced_parts hsort .product) (reduced_parts hes .product)
    (worthAll_perm factorWorth (parts_perm .product (sort_perm es)))

/-! ### Folding factors once -/

/-- Factors with their groups turned into factors, and their number. -/
def foldedFactors (guess : RootGuess) (us : List Expr) : List Expr :=
  (Groups.collect (factorEntries us)).flatMap (groupFactors guess) ++ [.num (constantFactor us)]

/-- The power of each group is again a factor with the base and exponent of the group. -/
def KeepsBases (guess : RootGuess) (us : List Expr) : Prop :=
  ∀ g ∈ live (factorGroups us []), (groupPower guess g).kind ≠ .rational ∧
    (groupPower guess g).kind ≠ .product ∧
    (groupPower guess g).base = g.1 ∧ (groupPower guess g).exponent = g.2

theorem flatMap_groupFactors (gs : Groups) :
    gs.flatMap (groupFactors guess) = (live gs).flatMap fun g => (groupPower guess g).factors := by
  rw [← flatMap_live groupFactors_zero]
  exact List.flatMap_congr fun g hg => if_neg (ne_zero_of_mem_live hg)

theorem factorWorth_one : factorWorth (.num 1) = 0 := rfl

theorem factorWorth_mul (c d : Rat) :
    factorWorth (.num (c * d)) = factorWorth (.num c) + factorWorth (.num d) := by
  show Additive.ofMul _ = Additive.ofMul (AddMonoidAlgebra.single 0 c * AddMonoidAlgebra.single 0 d)
  rw [AddMonoidAlgebra.single_mul_single, zero_add]

theorem worth_factors (p : Expr) :
    worthAll factorWorth p.factors =
      worthAll factorWorth (remaining p) + factorWorth (.num (constantOf p)) := by
  by_cases h : p.kind = .rational
  · obtain ⟨q, rfl⟩ := kind_eq_rational_iff.mp h
    exact (worthAll_singleton factorWorth _).trans (zero_add _).symm
  · rw [remaining, if_neg h, constantOf_of_ne h, factorWorth_one, add_zero]

/-- Folded factors are worth what the powers of groups are, multiplied out. -/
theorem worth_foldedFactors (us : List Expr) :
    worthAll factorWorth (foldedFactors guess us) =
      worthAll factorWorth ((groupedFactors guess us).factors ++
        [.num (groupedFactors guess us).constant]) := by
  have hgroups : ∀ gs : Groups,
      worthAll factorWorth (gs.flatMap fun g => (groupPower guess g).factors) =
        worthAll factorWorth (gs.flatMap fun g => remaining (groupPower guess g)) +
          factorWorth (.num (gs.map fun g => constantOf (groupPower guess g)).prod) := by
    intro gs
    induction gs with
    | nil => exact (zero_add 0).symm
    | cons g gs ih =>
      rw [List.flatMap_cons, List.flatMap_cons, worthAll_append, worthAll_append, ih, worth_factors,
        List.map_cons, List.prod_cons, factorWorth_mul]
      exact add_add_add_comm _ _ _ _
  rw [foldedFactors, flatMap_groupFactors, worthAll_append, worthAll_append, hgroups,
    worthAll_singleton, worthAll_singleton, factors_groupedFactors, constant_groupedFactors,
    factorWorth_mul, add_assoc]
  exact congrArg (_ + ·) (add_comm _ _)

theorem worth_append_besides (us : List Expr) (c : Rat) :
    worthAll factorWorth (us ++ besides c 1) = worthAll factorWorth (us ++ [.num c]) := by
  rw [worthAll_append, worthAll_append, besides]
  split_ifs with h
  · rw [h, worthAll_singleton, factorWorth_one]
    rfl
  · rfl

theorem worth_foldedFactors_congr {us vs : List Expr}
    (h : worthAll factorWorth us = worthAll factorWorth vs) :
    worthAll factorWorth (foldedFactors guess us) =
      worthAll factorWorth (foldedFactors guess vs) := by
  rcases worthAll_factorWorth_eq_iff.mp h with ⟨hamounts, hconstant⟩ | ⟨hu, hv⟩
  · rw [foldedFactors, foldedFactors, hconstant, flatMap_groupFactors, flatMap_groupFactors]
    have hperm := (live_collect_perm hamounts).flatMap_right fun g => (groupPower guess g).factors
    exact worthAll_perm factorWorth (hperm.append_right _)
  · refine worthAll_factorWorth_eq_iff.mpr (Or.inr ⟨?_, ?_⟩)
    · rw [foldedFactors, hu, constantFactor_concat, mul_zero]
    · rw [foldedFactors, hv, constantFactor_concat, mul_zero]

theorem worth_foldedFactors_of_keepsBases {us : List Expr} (h : KeepsBases guess us) :
    worthAll factorWorth (foldedFactors guess us) = worthAll factorWorth us := by
  have hgroups : ∀ gs : Groups, (∀ g ∈ gs, (groupPower guess g).kind ≠ .rational ∧
      (groupPower guess g).kind ≠ .product ∧ (groupPower guess g).base = g.1 ∧
      (groupPower guess g).exponent = g.2) →
      worthAll factorWorth (gs.flatMap fun g => (groupPower guess g).factors) =
        .ofMul (AddMonoidAlgebra.single (Groups.amounts gs) 1) := by
    intro gs hgs
    induction gs with
    | nil => rfl
    | cons g gs ih =>
      obtain ⟨⟨hrat, hprod, hbase, hexp⟩, hgs⟩ := List.forall_mem_cons.mp hgs
      rw [List.flatMap_cons, worthAll_append, ih hgs, factors_eq_singleton hprod,
        worthAll_singleton, factorWorth_of_ne hrat, hbase, hexp, ← ofMul_mul,
        AddMonoidAlgebra.single_mul_single, one_mul, Groups.amounts_cons]
  rw [KeepsBases, factorGroups_eq] at h
  rw [foldedFactors, flatMap_groupFactors, worthAll_append, hgroups _ h, worthAll_singleton,
    amounts_live, Groups.amounts_collect, worthAll_factorWorth]
  show Additive.ofMul (AddMonoidAlgebra.single _ 1 * AddMonoidAlgebra.single 0 _) = _
  rw [AddMonoidAlgebra.single_mul_single, add_zero, one_mul]

theorem not_regroups_of_keepsBases {us : List Expr} (h : KeepsBases guess us) :
    ¬ (groupedFactors guess us).Regroups := by
  have hplain : (powersOf (groupPower guess) (factorGroups us [])).fromProduct = false := by
    rw [fromProduct_powersOf, List.any_eq_false]
    intro g hg
    simpa using (h g hg).2.1
  have hbases : (groupedFactors guess us).factors.map Expr.base =
      (live (factorGroups us [])).map Prod.fst := by
    show (powersOf (groupPower guess) (factorGroups us [])).factors.map Expr.base = _
    rw [factors_powersOf_eq_map (fun g hg => (h g hg).1) hplain, List.map_map]
    exact List.map_congr_left fun g hg => (h g hg).2.2.1
  rw [Powers.Regroups, not_or, not_not, hbases, factorGroups_eq]
  exact ⟨Bool.eq_false_iff.mp hplain,
    (List.filter_sublist.map Prod.fst).nodup (Groups.nodup_keys_collect _)⟩

section

variable {us : List Expr} (hus : ∀ u ∈ us, Reduced guess u)

include hus

theorem reduced_of_productForm {m : Expr} (h : productForm guess us = .ok m) : Reduced guess m := by
  rw [productForm_eq hus] at h
  split_ifs at h with h0 hregroups
  · cases h
    exact reduced_num 0
  · exact reduced_of_yields (yields_of_simplifyTraced h)
  · have hpowers : ∀ g ∈ live (factorGroups us []), Reduced guess (groupPower guess g) :=
      fun g hg => reduced_of_yields (yields_groupPower hus g hg)
    have hreduced := reduced_gathered hpowers
    have hnormal := normalProduct_gathered h0 hregroups
    refine of_productOr h (fun _ => reduced_num _) hreduced fun hlen => ?_
    exact reduced_ofFactors hreduced hlen hnormal

/-- Factors that keep their bases are worth what they come to. -/
theorem worth_productForm_of_keepsBases {m : Expr} (h : KeepsBases guess us)
    (hm : productForm guess us = .ok m) :
    worthAll factorWorth (spliced .product [m]) = worthAll factorWorth us := by
  have hregroups := not_regroups_of_keepsBases h
  rw [← worth_foldedFactors_of_keepsBases h, worth_foldedFactors, spliced_singleton]
  rw [productForm_eq hus, if_neg hregroups] at hm
  split_ifs at hm with h0
  · cases hm
    refine worthAll_factorWorth_eq_iff.mpr (Or.inr ⟨?_, ?_⟩)
    · exact constantFactor_singleton 0
    · rw [constantFactor_concat, h0, mul_zero]
  · have hnormal := normalProduct_gathered h0 hregroups
    rw [← worth_append_besides]
    rcases productOr_eq_ok hm with ⟨hnil, rfl⟩ | hone | ⟨-, rfl⟩
    · have hfactors : (groupedFactors guess us).factors = [] := (List.append_eq_nil_iff.mp hnil).1
      rw [worth_append_besides, hfactors]
      rfl
    · have hmem : m ∈ (groupedFactors guess us).factors ++
          besides (groupedFactors guess us).constant 1 := by
        rw [hone]
        exact List.mem_singleton_self m
      rw [hone, if_neg (hnormal.ne_product m hmem)]
    · exact worthAll_perm factorWorth (sort_perm _)

end

section

variable {us : List Expr} (hus : Firm guess .product us)

include hus

/-- The groups of irreducible factors have irreducible bases. -/
theorem Firm.base_of_mem_groups :
    ∀ g ∈ Groups.collect (factorEntries us), Irreducible guess g.1 ∧ IsBase guess g.1 g.2 := by
  have hbases := isBase_of_mem_groups fun u hu => (hus u hu).1.reduced
  rw [factorGroups_eq] at hbases
  have hirreducible : ∀ g ∈ Groups.collect (factorEntries us), Irreducible guess g.1 :=
    Groups.forall_mem_collect (I := fun b _ => Irreducible guess b) (fun _ _ _ h _ => h)
      (forall_mem_factorEntries fun u hu _ => (hus u hu).1.base_of_factor)
  exact fun g hg => ⟨hirreducible g hg, hbases g hg⟩

/-- The power of a group of irreducible factors is a number, or the base, or a power of the base. -/
theorem Firm.groupPower_cases :
    ∀ g ∈ live (Groups.collect (factorEntries us)),
      (g.1.kind = .rational ∧ ∃ q, groupPower guess g = .num q) ∨
        (g.2 = 1 ∧ groupPower guess g = g.1) ∨
          (g.2 ≠ 1 ∧ groupPower guess g = .pow g.1 g.2) := by
  intro g hg
  obtain ⟨hb, hbase⟩ := hus.base_of_mem_groups g (List.mem_filter.mp hg).1
  exact Canonical.groupPower_cases hb hbase (ne_zero_of_mem_live hg)

/-- The factors that a group of irreducible factors is turned into are irreducible. -/
theorem Firm.factor_of_group : ∀ g ∈ live (Groups.collect (factorEntries us)),
    Firm guess .product (groupPower guess g).factors := by
  intro g hg
  have hyields := yields_groupPower (fun u hu => (hus u hu).1.reduced) g (by rwa [factorGroups_eq])
  have hreduced := reduced_of_yields hyields
  obtain ⟨hb, -⟩ := hus.base_of_mem_groups g (List.mem_filter.mp hg).1
  have hone : (groupPower guess g).OneFree := by
    rcases hus.groupPower_cases g hg with ⟨-, q, hq⟩ | ⟨-, hq⟩ | ⟨hp, hq⟩
    · rw [hq]
      exact oneFree_num q
    · rw [hq]
      exact hb.oneFree
    · rw [hq]
      exact hb.oneFree.pow hp
  exact Irreducible.firm_factors ⟨hreduced, hone⟩

theorem firm_foldedFactors : Firm guess .product (foldedFactors guess us) := by
  rw [foldedFactors, flatMap_groupFactors]
  refine List.forall_mem_append.mpr ⟨fun f hf => ?_, List.forall_mem_singleton.mpr ?_⟩
  · obtain ⟨g, hg, hf⟩ := List.mem_flatMap.mp hf
    exact hus.factor_of_group g hg f hf
  · exact ⟨irreducible_num _, by simp [kind]⟩

/-- A product of irreducible factors comes to what its factors come to. -/
theorem simplify_ofFactors_of_firm : (ofFactors us).simplify guess = productForm guess us := by
  rw [simplify_ofFactors fun f hf => ⟨f, simplify_of_irreducible (hus f hf).1⟩,
    parts_of_irreducible hus]

/-- Irreducible factors with different bases come to their product. -/
theorem productForm_of_nodup (hbases : ((nonNumbers us).map Expr.base).Nodup) :
    productForm guess us =
      if constantFactor us = 0 then .ok (.num 0)
      else
        productOr (.num (constantFactor us)) (nonNumbers us ++ besides (constantFactor us) 1) := by
  obtain ⟨hfactors, hconstant, hregroups⟩ :=
    gathered_of_nodup (fun u hu => (hus u hu).1.reduced) (fun u hu => (hus u hu).2) hbases
      fun f hf _ => groupPower_of_irreducible (hus f hf).1
  rw [productForm_eq fun u hu => (hus u hu).1.reduced, groupedFactors, if_neg hregroups, hfactors,
    hconstant]

/-- Factors folded once come to what they came to before. -/
theorem productForm_foldedFactors :
    productForm guess (foldedFactors guess us) = productForm guess us := by
  have hreduced : ∀ u ∈ us, Reduced guess u := fun u hu => (hus u hu).1.reduced
  have hfirm : Firm guess .product ((groupedFactors guess us).factors ++
      [.num (groupedFactors guess us).constant]) := by
    refine List.forall_mem_append.mpr ⟨?_, List.forall_mem_singleton.mpr ?_⟩
    · refine forall_mem_factors_powersOf fun g hg => ?_
      rw [factorGroups_eq] at hg
      exact hus.factor_of_group g hg
    · exact ⟨irreducible_num _, by simp [kind]⟩
  rw [productForm_congr (fun u hu => (firm_foldedFactors hus u hu).1.reduced)
    (fun u hu => (hfirm u hu).1.reduced) (worth_foldedFactors us), productForm_eq hreduced]
  split_ifs with h0 hregroups
  · refine productForm_of_zero (fun u hu => (hfirm u hu).1.reduced) ?_
    rw [constantFactor_concat, h0, mul_zero]
  · exact (simplify_ofFactors_of_firm hfirm).symm
  · obtain ⟨hplain, hnodup⟩ := not_or.mp hregroups
    have hrat : ∀ f ∈ (groupedFactors guess us).factors, f.kind ≠ .rational := fun f hf =>
      (kind_of_mem_factors (Bool.eq_false_of_not_eq_true hplain) f hf).1
    have hnumbers : nonNumbers ((groupedFactors guess us).factors ++
        [.num (groupedFactors guess us).constant]) = (groupedFactors guess us).factors := by
      rw [nonNumbers, List.filter_append]
      exact (List.append_nil _).trans (nonNumbers_eq_self hrat)
    have hconstant : constantFactor ((groupedFactors guess us).factors ++
        [.num (groupedFactors guess us).constant]) = (groupedFactors guess us).constant := by
      rw [constantFactor_concat, ← constantFactor_numbers, numbers_eq_nil hrat]
      exact one_mul _
    rw [productForm_of_nodup hfirm (hnumbers.symm ▸ not_not.mp hnodup), hnumbers, hconstant,
      if_neg h0]

/-- Where a base is not kept, a group comes to a number or to a product. -/
theorem exists_lost_of_not_keepsBases (h : ¬ KeepsBases guess us) :
    ∃ g ∈ live (factorGroups us []),
      (groupPower guess g).kind = .rational ∨ (groupPower guess g).kind = .product := by
  by_contra hnone
  push Not at hnone
  refine h fun g hg => ⟨(hnone g hg).1, (hnone g hg).2, ?_⟩
  have hne := (isBase_of_mem_groups (fun u hu => (hus u hu).1.reduced) g
    (List.mem_filter.mp hg).1).ne_power
  have hrat := (hnone g hg).1
  rw [factorGroups_eq] at hg
  rcases hus.groupPower_cases g hg with ⟨-, q, hq⟩ | ⟨hp, hq⟩ | ⟨-, hq⟩
  · rw [hq] at hrat
    exact absurd rfl hrat
  · rw [hq, hp]
    exact base_of_ne_power hne
  · rw [hq]
    exact ⟨rfl, rfl⟩

theorem size_groupPower_le {g : Expr × Rat} (hg : g ∈ live (factorGroups us [])) :
    (groupPower guess g).size ≤ factorSize g :=
  (size_of_yields (yields_groupPower (fun u hu => (hus u hu).1.reduced) g hg)).trans
    (core_pow_le (ne_zero_of_mem_live hg))

/-- A group that is lost gives its node away. -/
theorem sizeAll_factors_groupPower_lt {g : Expr × Rat} (hg : g ∈ live (factorGroups us []))
    (hlost : (groupPower guess g).kind = .rational ∨ (groupPower guess g).kind = .product) :
    sizeAll (groupPower guess g).factors < factorSize g := by
  rcases hlost with hlost | hlost
  · obtain ⟨q, hq⟩ := kind_eq_rational_iff.mp hlost
    have hpos : 1 ≤ factorSize g := by
      obtain ⟨b, p⟩ := g
      rw [factorSize, if_neg (ne_zero_of_mem_live hg)]
      exact le_max_left _ _
    rw [hq]
    exact hpos
  · have hfactors := sizeAll_factors_add_le (groupPower guess g)
    have hsize := size_groupPower_le hus hg
    rw [hlost, decide_eq_true rfl, Bool.toNat_true] at hfactors
    omega

/-- A product loses a node where a group is lost. -/
theorem size_foldedFactors_lt (h : ¬ KeepsBases guess us) :
    sizeAll (foldedFactors guess us) < sizeAll us := by
  obtain ⟨g, hg, hlost⟩ := exists_lost_of_not_keepsBases hus h
  have hle : ∀ g ∈ live (factorGroups us []),
      sizeAll (groupPower guess g).factors ≤ factorSize g := fun g hg =>
    (Nat.le_add_right _ _).trans ((sizeAll_factors_add_le _).trans (size_groupPower_le hus hg))
  have hlt := sizeAll_factors_groupPower_lt hus hg hlost
  rw [foldedFactors, flatMap_groupFactors, sizeAll_append, sizeAll_flatMap, ← factorGroups_eq]
  exact (List.sum_lt_sum _ _ hle ⟨g, hg, hlt⟩).trans_le (sum_factorSize_le us)

/-- Bases that are neither numbers nor products have their exponents added. -/
theorem worth_groupFactors_add : ∀ g ∈ factorEntries us,
    ¬ (g.1.kind = .rational ∨ g.1.kind = .product) → ∀ x y,
    worthAll factorWorth (groupFactors guess (g.1, x + y)) =
      worthAll factorWorth (groupFactors guess (g.1, x)) +
        worthAll factorWorth (groupFactors guess (g.1, y)) := by
  refine forall_mem_factorEntries fun u hu hrat hkind x y => ?_
  have hu := (hus u hu).1
  obtain ⟨hbrat, hbprod⟩ := not_or.mp hkind
  have hworth : ∀ p, worthAll factorWorth (groupFactors guess (u.base, p)) =
      .ofMul (AddMonoidAlgebra.single (Finsupp.single u.base p) 1) := by
    intro p
    by_cases hp : p = 0
    · rw [hp, groupFactors_zero, Finsupp.single_zero]
      rfl
    · have hbase : IsBase guess u.base p := by
        refine ⟨hu.base_of_factor.reduced, (hu.reduced.isBase hrat).ne_power, ?_⟩
        intro q hq
        exact absurd (by rw [hq]; rfl) hbrat
      rw [groupFactors, if_neg hp]
      rcases groupPower_cases hu.base_of_factor hbase hp with ⟨hnum, -⟩ | ⟨h1, hb⟩ | ⟨-, hb⟩
      · exact absurd hnum hbrat
      · obtain ⟨hbase, hexp⟩ := base_of_ne_power hbase.ne_power
        rw [hb, factors_eq_singleton hbprod, worthAll_singleton, factorWorth_of_ne hbrat, hbase,
          hexp, h1]
      · rw [hb]
        exact worthAll_singleton factorWorth _
  rw [hworth, hworth, hworth, ← ofMul_mul, AddMonoidAlgebra.single_mul_single, Finsupp.single_add,
    one_mul]

/-- A factor that a group is turned into has the base of the group, or is a factor of it. -/
theorem base_of_mem_groupFactors :
    ∀ g ∈ Groups.collect (factorEntries us), ∀ f ∈ groupFactors guess g, f.kind ≠ .rational →
      f.base = g.1 ∨ g.1.kind = .product ∧ f ∈ g.1.children := by
  intro g hg f hf hrat
  rw [groupFactors] at hf
  split_ifs at hf with hp
  · cases hf
  · have hne := (hus.base_of_mem_groups g hg).2.ne_power
    have hlive : g ∈ live (Groups.collect (factorEntries us)) :=
      List.mem_filter.mpr ⟨hg, by simpa using hp⟩
    rcases hus.groupPower_cases g hlive with ⟨-, q, hq⟩ | ⟨-, hq⟩ | ⟨-, hq⟩
    · rw [hq] at hf
      rw [List.mem_singleton.mp hf] at hrat
      exact absurd rfl hrat
    · rw [hq] at hf
      by_cases hprod : g.1.kind = .product
      · refine Or.inr ⟨hprod, ?_⟩
        cases hb : g.1 with
        | prod fs =>
          rw [hb] at hf
          exact hf
        | num | sym | pow | sum =>
          rw [hb] at hprod
          cases hprod
      · rw [factors_eq_singleton hprod] at hf
        rw [List.mem_singleton.mp hf]
        exact Or.inl (base_of_ne_power hne).1
    · rw [hq] at hf
      rw [List.mem_singleton.mp hf]
      exact Or.inl rfl

end

/-- Products fold like factors; a group is lost where its power is a number or a product. -/
noncomputable def foldingOfFactors (guess : RootGuess) :
    Folding guess (Additive (AddMonoidAlgebra ℚ (Expr →₀ ℚ))) where
  kind := .product
  node := ofFactors
  key := Expr.base
  amount := exponent
  drawn := groupFactors guess
  constant := constantFactor
  form := productForm guess
  worth := factorWorth
  Plain := KeepsBases guess
  Loses b := b.kind = .rational ∨ b.kind = .product
  kind_ne := by decide
  exists_simplify_node_iff := exists_simplify_ofFactors_iff
  simplify_node := simplify_ofFactors
  worth_constant us vs := by
    rw [constantFactor_append, factorWorth_mul]
  drawn_zero := groupFactors_zero
  drawn_add := worth_groupFactors_add
  key_of_mem_drawn := base_of_mem_groupFactors
  form_congr hus hvs := productForm_congr (fun u hu => (hus u hu).1) fun v hv => (hvs v hv).1
  worth_folded_congr := worth_foldedFactors_congr
  firm_folded := firm_foldedFactors
  form_folded := productForm_foldedFactors
  worth_folded_of_plain _ := worth_foldedFactors_of_keepsBases
  size_folded_lt := size_foldedFactors_lt
  reduced_form hus := reduced_of_productForm fun u hu => (hus u hu).1
  worth_form_of_plain hus := worth_productForm_of_keepsBases fun u hu => (hus u hu).1

end ExactAlgebra.Canonical
