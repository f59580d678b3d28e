import ExactAlgebra.Proofs.Canonical.Folding.Factors
import ExactAlgebra.Proofs.Renaming

/-!
# Canonical forms under other names

Simplification does not look at letters but to tell them apart: the renamed expression has a
canonical form exactly if the expression has one, and it is the renamed form
(`simplify_rename_eq_ok_iff`).

Other names put the children of every node in another order, and with that the entries from which
groups are collected. What the parts of a node come to does not depend on their order, so it is
enough to follow the parts of the expression under their other names: they have the renamed stems
and bases, and are collected to the renamed terms and gathered to the renamed factors, up to order
(`collectedTerms_rename_perm`, `factors_groupedFactors_rename_perm`).
-/

namespace ExactAlgebra.Canonical

open ExactAlgebra.Expr

variable {guess : RootGuess} (s : Equiv.Perm Letter)

/-! ### Numbers and others -/

theorem nonNumbers_map_rename (us : List Expr) :
    nonNumbers (us.map (rename s)) = (nonNumbers us).map (rename s) := by
  rw [nonNumbers, List.filter_map]
  refine congrArg (List.map _) (List.filter_congr fun u _ => ?_)
  simp

theorem constantTerm_map_rename (us : List Expr) :
    constantTerm (us.map (rename s)) = constantTerm us := by
  induction us with
  | nil => rfl
  | cons u us ih =>
    cases u with
    | num q => exact congrArg (Rational.add q) ih
    | sym | pow | prod | sum => exact ih

theorem constantFactor_map_rename (us : List Expr) :
    constantFactor (us.map (rename s)) = constantFactor us := by
  induction us with
  | nil => rfl
  | cons u us ih =>
    cases u with
    | num q => exact congrArg (Rational.multiply q) ih
    | sym | pow | prod | sum => exact ih

theorem map_rename_besides (c neutral : Rat) :
    (besides c neutral).map (rename s) = besides c neutral := by
  rw [besides]
  split_ifs <;> rfl

theorem live_mapKeys (f : Expr → Expr) (gs : Groups) :
    live (Groups.mapKeys f gs) = Groups.mapKeys f (live gs) :=
  List.filter_map

theorem constantOf_rename (u : Expr) : constantOf (u.rename s) = constantOf u := by
  cases u <;> rfl

theorem remaining_rename_perm (u : Expr) :
    (remaining (u.rename s)).Perm ((remaining u).map (rename s)) := by
  rw [remaining, remaining, kind_rename]
  split_ifs
  · exact .refl _
  · exact factors_rename_perm s u

/-! ### Parts -/

theorem spliced_map_rename_perm (kind : Kind) (us : List Expr) :
    (spliced kind (us.map (rename s))).Perm ((spliced kind us).map (rename s)) := by
  rw [spliced, spliced, List.flatMap_map, List.map_flatMap]
  refine List.Perm.flatMap_left us fun u _ => ?_
  rw [kind_rename]
  split_ifs
  · exact children_rename_perm s u
  · exact .refl _

/-- The parts of a renamed node are the renamed parts, if the children have the renamed forms. -/
theorem parts_map_rename_perm {es : List Expr} {v : Expr → Expr} (kind : Kind)
    (hv : ∀ e ∈ es, (e.rename s).simplify guess = .ok ((v e).rename s)) :
    (parts guess kind (es.map (rename s))).Perm ((spliced kind (es.map v)).map (rename s)) := by
  have hforms : (es.map (rename s)).map (formBy (simplifyTraced guess)) =
      (es.map v).map (rename s) := by
    rw [List.map_map, List.map_map]
    exact List.map_congr_left fun e he => formBy_eq (hv e he)
  rw [parts, hforms]
  exact spliced_map_rename_perm s kind _

/-! ### Terms -/

theorem withCoefficient_rename (c : Rat) (k : Expr) :
    withCoefficient c (k.rename s) = (withCoefficient c k).rename s := by
  rw [withCoefficient, withCoefficient]
  split_ifs
  · rfl
  · rw [rename_ofFactors, List.map_cons, rename_num, ofFactors, ofFactors]
    exact congrArg prod (sort_eq_of_perm ((factors_rename_perm s k).cons _))

theorem forall_factor_rename_ne {u : Expr} (h : ∀ f ∈ u.factors, f.kind ≠ .rational) :
    ∀ f ∈ (u.rename s).factors, f.kind ≠ .rational := by
  intro f hf
  obtain ⟨d, hd, rfl⟩ := List.mem_map.mp ((factors_rename_perm s u).mem_iff.mp hf)
  rw [kind_rename]
  exact h d hd

/-- A reduced term has the renamed stem under other names, and its coefficient. -/
theorem Reduced.stem_rename {u : Expr} (h : Reduced guess u) (hrat : u.kind ≠ .rational) :
    (u.rename s).stem = u.stem.rename s ∧ (u.rename s).coefficient = u.coefficient := by
  obtain ⟨hstem, -, hterm⟩ := h.stem_spec hrat
  have hrenamed : u.rename s = withCoefficient u.coefficient (u.stem.rename s) := by
    rw [withCoefficient_rename, hterm]
  -- whether the renamed stem is reduced is not known here, but it is well formed
  have hwf := wellFormed_rename s hstem.reduced.wellFormed
  have hne := forall_factor_rename_ne s hstem.factor_ne_number
  rw [hrenamed]
  exact ⟨stem_withCoefficient_of_wellFormed hwf hne _,
    coefficient_withCoefficient_of_wellFormed hwf hne _⟩

theorem isUnwrapped_rename (k : Expr) (c : Rat) :
    isUnwrapped (k.rename s, c) = isUnwrapped (k, c) := by
  rw [Bool.eq_iff_iff, isUnwrapped_iff, isUnwrapped_iff, kind_rename]

theorem likeTermsOf_rename_perm (k : Expr) (c : Rat) :
    (likeTermsOf (k.rename s, c)).Perm ((likeTermsOf (k, c)).map (rename s)) := by
  rw [likeTermsOf, likeTermsOf, isUnwrapped_rename]
  split_ifs
  · exact .refl _
  · exact children_rename_perm s k
  · rw [withCoefficient_rename]
    exact .refl _

section

variable {us : List Expr} (hus : ∀ u ∈ us, Reduced guess u)

include hus

theorem termEntries_map_rename :
    termEntries (us.map (rename s)) = Groups.mapKeys (rename s) (termEntries us) := by
  rw [termEntries, termEntries, nonNumbers_map_rename, Groups.mapKeys, List.map_map, List.map_map]
  refine List.map_congr_left fun u hu => ?_
  obtain ⟨hu, hrat⟩ := mem_nonNumbers.mp hu
  obtain ⟨hstem, hcoefficient⟩ := (hus u hu).stem_rename s hrat
  exact Prod.ext hstem hcoefficient

theorem collect_termEntries_map_rename :
    Groups.collect (termEntries (us.map (rename s))) =
      Groups.mapKeys (rename s) (Groups.collect (termEntries us)) := by
  rw [termEntries_map_rename s hus]
  refine Groups.collect_mapKeys (P := WellFormed) (eq_of_rename_eq s) ?_
  exact forall_mem_termEntries fun u hu _ => wellFormed_stem (hus u hu).wellFormed

theorem unwraps_map_rename : unwraps (us.map (rename s)) = unwraps us := by
  rw [unwraps, collect_termEntries_map_rename s hus, Groups.mapKeys, List.any_map, unwraps]
  exact congrArg (List.any _) (funext fun g => isUnwrapped_rename s g.1 g.2)

/-- Renamed terms are collected to the renamed terms. -/
theorem collectedTerms_rename_perm :
    (collectedTerms (us.map (rename s))).Perm ((collectedTerms us).map (rename s)) := by
  rw [collectedTerms, collect_termEntries_map_rename s hus, constantTerm_map_rename, collectedTerms,
    List.map_append, map_rename_besides, Groups.mapKeys, List.flatMap_map, List.map_flatMap]
  refine List.Perm.append_right _ (List.Perm.flatMap_left _ fun g _ => ?_)
  exact likeTermsOf_rename_perm s g.1 g.2

end

theorem total_map_rename {ts : List Expr} {n : Expr} (h : total ts = .ok n) :
    total (ts.map (rename s)) = .ok (n.rename s) := by
  rcases total_eq_ok h with ⟨rfl, rfl⟩ | rfl | ⟨hlen, rfl⟩
  · rfl
  · rfl
  · rw [total_of_two_le (by rwa [List.length_map]), rename_ofTerms]

/-! ### Factors -/

theorem groupPower_rename {g : Expr × Rat} {p : Expr}
    (h : ((Expr.pow g.1 g.2).rename s).simplify guess = .ok (p.rename s)) :
    groupPower guess (g.1.rename s, g.2) = p.rename s :=
  formBy_eq h

section

variable {us : List Expr} (hus : ∀ u ∈ us, Reduced guess u)

include hus

/-- Renamed factors have the groups of the factors, under renamed bases. -/
theorem live_factorGroups_map_rename :
    live (factorGroups (us.map (rename s)) []) =
      Groups.mapKeys (rename s) (live (factorGroups us [])) := by
  have hentries : factorEntries (us.map (rename s)) =
      Groups.mapKeys (rename s) (factorEntries us) := by
    rw [factorEntries, factorEntries, nonNumbers_map_rename, Groups.mapKeys, List.map_map,
      List.map_map]
    exact List.map_congr_left fun u _ => Prod.ext (base_rename s u) (exponent_rename s u)
  have hbases : ∀ g ∈ factorEntries us, g.1.WellFormed :=
    forall_mem_factorEntries fun u hu hrat => ((hus u hu).isBase hrat).reduced.wellFormed
  rw [factorGroups_eq, factorGroups_eq, hentries,
    Groups.collect_mapKeys (P := WellFormed) (eq_of_rename_eq s) hbases, live_mapKeys]

variable {w : Expr × Rat → Expr} (hw : ∀ g ∈ live (factorGroups us []),
  Yields guess (.pow g.1 g.2) (w g) ∧
    ((Expr.pow g.1 g.2).rename s).simplify guess = .ok ((w g).rename s))

include hw

/-- Renamed factors are gathered to the renamed factors. -/
theorem factors_groupedFactors_rename_perm :
    (groupedFactors guess (us.map (rename s))).factors.Perm
      ((gathered w us).factors.map (rename s)) := by
  show (powersOf _ _).factors.Perm ((powersOf w _).factors.map _)
  rw [factors_powersOf, live_factorGroups_map_rename s hus, factors_powersOf, Groups.mapKeys,
    List.flatMap_map, List.map_flatMap]
  refine List.Perm.flatMap_left _ fun g hg => ?_
  rw [groupPower_rename s (hw g hg).2]
  exact remaining_rename_perm s (w g)

theorem constant_groupedFactors_map_rename :
    (groupedFactors guess (us.map (rename s))).constant = (gathered w us).constant := by
  show constantFactor _ * (powersOf _ _).constant = constantFactor _ * (powersOf w _).constant
  rw [constantFactor_map_rename, constant_powersOf, live_factorGroups_map_rename s hus,
    constant_powersOf, Groups.mapKeys, List.map_map]
  refine congrArg (fun cs => constantFactor us * List.foldr (· * ·) 1 cs) ?_
  refine List.map_congr_left fun g hg => ?_
  show constantOf (groupPower guess (g.1.rename s, g.2)) = _
  rw [groupPower_rename s (hw g hg).2, constantOf_rename]

theorem fromProduct_groupedFactors_map_rename :
    (groupedFactors guess (us.map (rename s))).fromProduct = (gathered w us).fromProduct := by
  show (powersOf _ _).fromProduct = (powersOf w _).fromProduct
  rw [fromProduct_powersOf, live_factorGroups_map_rename s hus, fromProduct_powersOf,
    Groups.mapKeys, List.any_map, Bool.eq_iff_iff, List.any_eq_true, List.any_eq_true]
  refine exists_congr fun g => and_congr_right fun hg => ?_
  show decide ((groupPower guess (g.1.rename s, g.2)).kind = .product) = true ↔ _
  rw [groupPower_rename s (hw g hg).2, kind_rename]

/-- Renamed factors are gathered again exactly if the factors are. -/
theorem regroups_groupedFactors_map_rename :
    (groupedFactors guess (us.map (rename s))).Regroups ↔ (gathered w us).Regroups := by
  have hreduced : ∀ f ∈ (gathered w us).factors, Reduced guess f :=
    reduced_factors_powersOf fun g hg => reduced_of_yields (hw g hg).1
  have hbases : ∀ b ∈ (gathered w us).factors.map Expr.base, b.WellFormed :=
    List.forall_mem_map.mpr fun f hf => wellFormed_base (hreduced f hf).wellFormed
  have hmap : ((gathered w us).factors.map (rename s)).map Expr.base =
      ((gathered w us).factors.map Expr.base).map (rename s) := by
    rw [List.map_map, List.map_map]
    exact List.map_congr_left fun f _ => base_rename s f
  have hnodup : (((gathered w us).factors.map Expr.base).map (rename s)).Nodup ↔
      ((gathered w us).factors.map Expr.base).Nodup :=
    ⟨List.Nodup.of_map _, List.Nodup.map_on fun b hb c hc =>
      eq_of_rename_eq s (hbases b hb) (hbases c hc)⟩
  rw [Powers.Regroups, Powers.Regroups, fromProduct_groupedFactors_map_rename s hus hw,
    ((factors_groupedFactors_rename_perm s hus hw).map Expr.base).nodup_iff, hmap, hnodup]

end

theorem productOr_map_rename {fs : List Expr} {c : Rat} {n : Expr}
    (h : productOr (.num c) fs = .ok n) :
    productOr (.num c) (fs.map (rename s)) = .ok (n.rename s) := by
  rcases productOr_eq_ok h with ⟨rfl, rfl⟩ | rfl | ⟨hlen, rfl⟩
  · rfl
  · rfl
  · rw [productOr_of_two_le _ (by rwa [List.length_map]), rename_ofFactors]

/-! ### Powers -/

theorem rename_of_raises_num {q p : Rat} {n : Expr} (h : Raises guess (.num q) p n) :
    n.rename s = n := by
  cases h with
  | one | zero | unit | root | left => rfl
  | keep hc => exact absurd rfl hc

theorem raised_rename {c n : Expr} {p : Rat} (h : raised guess c p = .ok n) :
    raised guess (c.rename s) p = .ok (n.rename s) := by
  by_cases hc : c.kind = .rational
  · obtain ⟨q, rfl⟩ := kind_eq_rational_iff.mp hc
    rw [rename_num, h, rename_of_raises_num s (raises_of_raised guess h)]
  · rw [raised_of_ne guess hc] at h
    rw [raised_of_ne guess (by rwa [kind_rename])]
    split_ifs at h ⊢
    · rw [Except.ok.inj h]
    · rw [← Except.ok.inj h, rename_pow]

theorem power_rename {b n : Expr} {p : Rat} (h : power guess b p = .ok n) :
    power guess (b.rename s) p = .ok (n.rename s) := by
  have hdrawn : drawnTogether (b.rename s) p =
      ((drawnTogether b p).1.rename s, (drawnTogether b p).2) := by
    cases b <;> rfl
  rw [power, hdrawn]
  exact raised_rename s h

/-! ### Every result -/

section

variable {es : List Expr} {v : Expr → Expr}
  (hv : ∀ e ∈ es, (e.rename s).simplify guess = .ok ((v e).rename s))

include hv

theorem exists_simplify_map_rename : ∀ e ∈ es.map (rename s), ∃ n, e.simplify guess = .ok n :=
  List.forall_mem_map.mpr fun e he => ⟨_, hv e he⟩

theorem reduced_map_rename (kind : Kind) :
    ∀ u ∈ (spliced kind (es.map v)).map (rename s), Reduced guess u := fun u hu =>
  reduced_parts (exists_simplify_map_rename s hv) kind u
    ((parts_map_rename_perm s kind hv).mem_iff.mpr hu)

/-- A renamed sum comes to what the renamed terms come to. -/
theorem simplify_rename_sum :
    ((Expr.sum es).rename s).simplify guess =
      sumForm guess ((spliced .sum (es.map v)).map (rename s)) := by
  have hforms := exists_simplify_map_rename s hv
  rw [rename_sum, simplify_ofTerms hforms]
  exact sumForm_congr (reduced_parts hforms .sum) (reduced_map_rename s hv .sum)
    (worthAll_perm termWorth (parts_map_rename_perm s .sum hv))

/-- A renamed product comes to what the renamed factors come to. -/
theorem simplify_rename_prod :
    ((Expr.prod es).rename s).simplify guess =
      productForm guess ((spliced .product (es.map v)).map (rename s)) := by
  have hforms := exists_simplify_map_rename s hv
  rw [rename_prod, simplify_ofFactors hforms]
  exact productForm_congr (reduced_parts hforms .product) (reduced_map_rename s hv .product)
    (worthAll_perm factorWorth (parts_map_rename_perm s .product hv))

end

/-- A renamed product comes to what the factors are gathered to, under the other names. -/
theorem simplify_rename_prod_of_yields {fs : List Expr} {ps : Powers} {v : Expr → Expr}
    {w : Expr × Rat → Expr} (hv : ∀ f ∈ fs, Yields guess f (v f))
    (hforms : ∀ f ∈ fs, (f.rename s).simplify guess = .ok ((v f).rename s))
    (hw : ∀ g ∈ live (factorGroups (spliced .product (fs.map v)) []),
      Yields guess (.pow g.1 g.2) (w g))
    (hpowers : ∀ g ∈ live (factorGroups (spliced .product (fs.map v)) []),
      ((Expr.pow g.1 g.2).rename s).simplify guess = .ok ((w g).rename s))
    (hps : ps = gathered w (spliced .product (fs.map v))) :
    ((Expr.prod fs).rename s).simplify guess =
      if ps.constant = 0 then .ok (.num 0)
      else if ps.Regroups then
        ((ofFactors (ps.factors ++ [.num ps.constant])).rename s).simplify guess
      else productOr (.num ps.constant)
        ((ps.factors ++ besides ps.constant 1).map (rename s)) := by
  have hreduced : ∀ u ∈ spliced .product (fs.map v), Reduced guess u := reduced_spliced_of_yields hv
  have hgroups := fun g hg => And.intro (hw g hg) (hpowers g hg)
  have hperm := factors_groupedFactors_rename_perm s hreduced hgroups
  subst hps
  rw [simplify_rename_prod s hforms, productForm_eq (reduced_map_rename s hforms .product),
    constant_groupedFactors_map_rename s hreduced hgroups]
  simp only [regroups_groupedFactors_map_rename s hreduced hgroups]
  rw [rename_ofFactors, List.map_append, List.map_append, map_rename_besides, ofFactors,
    sort_eq_of_perm (hperm.append_right _), productOr_eq_of_perm _ (hperm.append_right _)]
  rfl

/-- What the pass makes of an expression it makes of the renamed one, under the other names. -/
theorem simplify_rename_of_yields {e n : Expr} (h : Yields guess e n) :
    (e.rename s).simplify guess = .ok (n.rename s) := by
  -- on the rules, so that it holds of what is built on the way: powers of groups, and nodes that
  -- are reduced again
  induction h with
  | num | sym => rfl
  | @pow b b' n p _ hn ih =>
    rw [rename_pow, simplify_pow ih]
    exact power_rename s hn
  | @sum ts terms n v hv hterms hn ih =>
    have hreduced : ∀ u ∈ spliced .sum (ts.map v), Reduced guess u := reduced_spliced_of_yields hv
    obtain ⟨rfl, hplain⟩ := eq_of_collected hreduced hterms
    rw [simplify_rename_sum s ih, sumForm_of_plain (reduced_map_rename s ih .sum),
      total_eq_of_perm (collectedTerms_rename_perm s hreduced), total_map_rename s hn]
    rw [unwraps_map_rename s hreduced, hplain]
  | @sumAgain ts terms d n v hv hterms hd _ ih ihd =>
    have hreduced : ∀ u ∈ spliced .sum (ts.map v), Reduced guess u := reduced_spliced_of_yields hv
    obtain ⟨hunwraps, rfl⟩ := eq_of_sumAgain hv hterms hd
    rw [rename_ofTerms] at ihd
    rw [simplify_rename_sum s ih, sumForm_of_unwraps (reduced_map_rename s ih .sum), ofTerms,
      sort_eq_of_perm (collectedTerms_rename_perm s hreduced)]
    · exact ihd
    · rw [unwraps_map_rename s hreduced, hunwraps]
  | prodZero v w hv hw hzero ih ihw =>
    rw [simplify_rename_prod_of_yields s hv ih hw ihw rfl, if_pos hzero, rename_num]
  | prod v w hv hw hps hzero hregroups hn ih ihw =>
    rw [simplify_rename_prod_of_yields s hv ih hw ihw hps, if_neg hzero, if_neg hregroups]
    exact productOr_map_rename s hn
  | prodAgain v w hv hw hps hzero hregroups hd _ ih ihw ihd =>
    obtain ⟨-, rfl⟩ := prodOf_eq_ok_iff.mp hd
    rw [simplify_rename_prod_of_yields s hv ih hw ihw hps, if_neg hzero, if_pos hregroups]
    exact ihd

/-! ### Which forms there are -/

/-- The power of exponent zero of a renamed expression is one exactly if that of the expression
is, where both have forms or none has. -/
theorem hasUnit_rename_iff {b : Expr}
    (h : ZerothDefined guess (b.rename s) ↔ ZerothDefined guess b) :
    HasUnit guess (b.rename s) ↔ HasUnit guess b := by
  constructor
  · rintro ⟨m', q, hm', hq, h0⟩
    obtain ⟨m, hm⟩ := exists_simplify_iff.mpr (h.mp (exists_simplify_iff.mp ⟨m', hm'⟩))
    rw [simplify_rename_of_yields s (yields_of_simplifyTraced hm), Except.ok.injEq] at hm'
    rw [← hm', base_rename, rename_eq_num_iff] at hq
    exact ⟨m, q, hm, hq, h0⟩
  · rintro ⟨m, q, hm, hq, h0⟩
    refine ⟨m.rename s, q, simplify_rename_of_yields s (yields_of_simplifyTraced hm), ?_, h0⟩
    rw [base_rename, hq, rename_num]

theorem zerothDefined_rename_iff (e : Expr) :
    ZerothDefined guess (e.rename s) ↔ ZerothDefined guess e := by
  induction e with
  | num | sym => exact iff_of_true nofun nofun
  | pow b p ih =>
    have hunit := hasUnit_rename_iff s ih
    unfold ZerothDefined at ih ⊢
    rw [rename_pow, powers_pow, powers_pow, hunit, ih]
  | prod fs ih =>
    unfold ZerothDefined at ih ⊢
    rw [rename_prod, powers_ofFactors, List.forall_mem_map, powers_prod]
    exact forall₂_congr ih
  | sum ts ih =>
    unfold ZerothDefined at ih ⊢
    rw [rename_sum, powers_ofTerms, List.forall_mem_map, powers_sum]
    exact forall₂_congr ih

end ExactAlgebra.Canonical

namespace ExactAlgebra.Expr

open Canonical

/-- The renamed expression has a canonical form exactly if the expression has one, and it is the
renamed form. -/
theorem simplify_rename_eq_ok_iff (guess : RootGuess) (s : Equiv.Perm Letter) (e m : Expr) :
    (e.rename s).simplify guess = .ok m ↔ ∃ n, e.simplify guess = .ok n ∧ n.rename s = m := by
  constructor
  · intro hm
    obtain ⟨n, hn⟩ := exists_simplify_iff.mpr
      ((zerothDefined_rename_iff s e).mp (exists_simplify_iff.mp ⟨m, hm⟩))
    rw [simplify_rename_of_yields s (yields_of_simplifyTraced hn)] at hm
    exact ⟨n, hn, Except.ok.inj hm⟩
  · rintro ⟨n, hn, rfl⟩
    exact simplify_rename_of_yields s (yields_of_simplifyTraced hn)

end ExactAlgebra.Expr
