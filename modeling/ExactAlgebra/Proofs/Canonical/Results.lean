import ExactAlgebra.Number.Estimate
import ExactAlgebra.Proofs.Canonical.Normal
import ExactAlgebra.Proofs.Canonical.Rules

/-!
# Results are normal

Every rule of the canonical form keeps the invariant `Reduced`, so every result of the pass has it
(`reduced_of_yields`), and in particular all its nodes are normal (`normal_simplify`).

The terms that are collected are the stems of the groups with their coefficients, so no two of them
are alike; the powers of groups that come to one base, or bring further factors, are not left as
they are but gathered once more.
-/

namespace ExactAlgebra

namespace Canonical

open ExactAlgebra.Expr

variable {guess : RootGuess}

/-! ### Splicing -/

theorem Reduced.child {e d : Expr} (h : Reduced guess e) (hd : d ∈ e.children) :
    Reduced guess d := by
  cases e with
  | num | sym => cases hd
  | pow b p =>
    rcases List.mem_cons.mp hd with rfl | hd
    · exact h.base
    · rw [List.mem_singleton.mp hd]
      exact reduced_num p
  | prod fs => exact h.factor d hd
  | sum ts => exact h.term d hd

/-- The children that a node has when those of its own kind are spliced in. -/
theorem reduced_spliced {kind : Kind} {es : List Expr} {v : Expr → Expr}
    (h : ∀ e ∈ es, Reduced guess (v e)) : ∀ u ∈ spliced kind (es.map v), Reduced guess u :=
  forall_mem_spliced (List.forall_mem_map.mpr h) fun _ hu _ _ hd => hu.child hd

/-- None of them is of the kind of the node. -/
theorem kind_ne_of_mem_spliced {kind : Kind} (hkind : kind ≠ .power) {es : List Expr}
    {v : Expr → Expr} (h : ∀ e ∈ es, Reduced guess (v e)) :
    ∀ u ∈ spliced kind (es.map v), u.kind ≠ kind := by
  intro u hmem
  obtain ⟨w, hw, hu⟩ := mem_spliced.mp hmem
  have hreduced : Reduced guess w := List.forall_mem_map.mpr h w hw
  split_ifs at hu with hk
  · subst hk
    cases w with
    | num | sym => cases hu
    | pow => exact absurd rfl hkind
    | prod fs =>
      have hn : NormalProduct fs := hreduced.normal
      exact hn.ne_product u hu
    | sum ts =>
      have hn : NormalSum ts := hreduced.normal
      exact hn.ne_sum u hu
  · rw [hu]
    exact hk

/-! ### Powers -/

theorem reduced_of_raises {c n : Expr} {p : Rat} (hc : Reduced guess c) (hne : c.kind ≠ .power)
    (h : Raises guess c p n) : Reduced guess n := by
  cases h with
  | one => exact hc
  | zero | unit | root => exact reduced_num _
  | left hq hp _ hmissing =>
    obtain ⟨hq', hp'⟩ := upright_spec hq hp
    refine reduced_pow (reduced_num _) ⟨by simp [kind], hp'.ne', ?_⟩ ?_ fun _ => rfl
    · rintro q ⟨⟩
      exact ⟨hq', hp'⟩
    · rintro q ⟨⟩
      exact hmissing
  | keep hrat hp hp1 =>
    refine reduced_pow hc ⟨hne, hp, ?_⟩ ?_ fun h1 => absurd h1 hp1
    · rintro q rfl
      exact absurd rfl hrat
    · rintro q rfl
      exact absurd rfl hrat

/-- The base that a power is drawn together to is no power. -/
theorem reduced_drawnTogether {b : Expr} (hb : Reduced guess b) (p : Rat) :
    Reduced guess (drawnTogether b p).1 ∧ (drawnTogether b p).1.kind ≠ .power := by
  cases b with
  | pow c i =>
    have hn : NormalPower c i := hb.normal
    exact ⟨hb.base, hn.base_ne_power⟩
  | num | sym | prod | sum => exact ⟨hb, by simp [drawnTogether, kind]⟩

theorem reduced_of_power {b n : Expr} {p : Rat} (hb : Reduced guess b)
    (h : power guess b p = .ok n) : Reduced guess n := by
  obtain ⟨hc, hne⟩ := reduced_drawnTogether hb p
  exact reduced_of_raises hc hne (raises_of_power guess h)

/-! ### Sums -/

/-- The groups of reduced terms are groups of stems. -/
theorem isStem_of_mem_groups {us : List Expr} (h : ∀ u ∈ us, Reduced guess u) :
    ∀ g ∈ Groups.collect (termEntries us), IsStem guess g.1 := by
  refine Groups.forall_mem_collect (I := fun k _ => IsStem guess k) (fun _ _ _ h _ => h) ?_
  exact forall_mem_termEntries fun u hu hrat => ((h u hu).stem_spec hrat).1

theorem mem_likeTermsOf {g : Expr × Rat} {t : Expr} (hg : isUnwrapped g = false)
    (ht : t ∈ likeTermsOf g) : g.2 ≠ 0 ∧ t = withCoefficient g.2 g.1 := by
  rw [likeTermsOf_of_plain hg] at ht
  split_ifs at ht with h0
  · cases ht
  · exact ⟨h0, List.mem_singleton.mp ht⟩

/-- No two of the terms that groups come down to are alike. -/
theorem stems_likeTerms_sublist {gs : Groups} (hgs : ∀ g ∈ gs, IsStem guess g.1)
    (hplain : ∀ g ∈ gs, isUnwrapped g = false) :
    ((gs.flatMap likeTermsOf).map stem).Sublist (gs.map Prod.fst) := by
  induction gs with
  | nil => exact .slnil
  | cons g gs ih =>
    obtain ⟨hg, hgs⟩ := List.forall_mem_cons.mp hgs
    obtain ⟨hgp, hplain⟩ := List.forall_mem_cons.mp hplain
    rw [List.flatMap_cons, List.map_append, List.map_cons, likeTermsOf_of_plain hgp]
    split_ifs
    · exact (ih hgs hplain).cons g.1
    · rw [List.map_singleton, hg.stem_withCoefficient]
      exact (ih hgs hplain).cons_cons g.1

theorem eq_of_collected {us terms : List Expr} {unwrapped : Bool} (h : ∀ u ∈ us, Reduced guess u)
    (hterms : collected us = .ok (terms, unwrapped)) :
    terms = collectedTerms us ∧ unwrapped = unwraps us := by
  rw [collected_of_wellFormed fun u hu => (h u hu).wellFormed] at hterms
  obtain ⟨rfl, rfl⟩ := Prod.mk.inj (Except.ok.inj hterms)
  exact ⟨rfl, rfl⟩

theorem nodup_map_key {us : List Expr} (h : ∀ u ∈ us, u.WellFormed) (hstems : (us.map stem).Nodup) :
    (us.map key).Nodup := by
  have hkeys : us.map key = (us.map stem).map Except.ok := by
    rw [List.map_map]
    exact List.map_congr_left fun u hu => key_of_wellFormed (h u hu)
  rw [hkeys]
  exact hstems.map fun _ _ => Except.ok.inj

theorem reduced_collectedTerms {us : List Expr} (h : ∀ u ∈ us, Reduced guess u) :
    ∀ t ∈ collectedTerms us, Reduced guess t := by
  refine forall_mem_append_besides (fun t ht => ?_) fun _ => reduced_num _
  obtain ⟨g, hg, ht⟩ := List.mem_flatMap.mp ht
  have hk := isStem_of_mem_groups h g hg
  cases hu : isUnwrapped g with
  | true =>
    rw [likeTermsOf_of_unwrapped hu] at ht
    exact hk.reduced.child ht
  | false =>
    obtain ⟨h0, rfl⟩ := mem_likeTermsOf hu ht
    exact hk.reduced_withCoefficient h0

/-- Collected terms make a normal sum, if none of them is unwrapped. -/
theorem normalSum_collectedTerms {us : List Expr} (h : ∀ u ∈ us, Reduced guess u)
    (hplain : unwraps us = false) : NormalSum (collectedTerms us) := by
  have hstem := isStem_of_mem_groups h
  have hreduced := reduced_collectedTerms h
  have hplain : ∀ g ∈ Groups.collect (termEntries us), isUnwrapped g = false := by
    simpa [unwraps] using hplain
  have hlike : ∀ t ∈ (Groups.collect (termEntries us)).flatMap likeTermsOf,
      t.kind ≠ .rational ∧ t.kind ≠ .sum := by
    intro t ht
    obtain ⟨g, hg, ht⟩ := List.mem_flatMap.mp ht
    obtain ⟨-, rfl⟩ := mem_likeTermsOf (hplain g hg) ht
    have hk := hstem g hg
    exact ⟨hk.kind_withCoefficient_ne_rational g.2, hk.kind_withCoefficient_ne_sum (hplain g hg)⟩
  have hrat : ∀ t ∈ (Groups.collect (termEntries us)).flatMap likeTermsOf, t.kind ≠ .rational :=
    fun t ht => (hlike t ht).1
  refine ⟨?_, ?_, fun q hq => ?_, ?_, fun q fs hq => ?_⟩
  · exact forall_mem_append_besides (fun t ht => (hlike t ht).2) fun _ => by simp [kind]
  · rw [collectedTerms, numbers_append_besides hrat]
    exact length_besides_le _ _
  · obtain ⟨rfl, h0⟩ := num_mem_append_besides hrat hq
    exact h0
  · rw [collectedTerms, nonNumbers_append_besides hrat]
    refine nodup_map_key (fun t ht => (hreduced t (List.mem_append_left _ ht)).wellFormed) ?_
    exact (stems_likeTerms_sublist hstem hplain).nodup (Groups.nodup_keys_collect _)
  · have hn : NormalProduct (.num q :: fs) := (hreduced _ hq).normal
    exact hn.number_ne q List.mem_cons_self

/-! ### Products -/

/-- A group of factors of reduced products: its base is reduced and no power, and its exponent is
positive on a number. -/
structure IsBase (guess : RootGuess) (b : Expr) (p : Rat) : Prop where
  reduced : Reduced guess b
  ne_power : b.kind ≠ .power
  upright : ∀ q, b = .num q → q ≠ 0 ∧ 0 < p

theorem Reduced.isBase {u : Expr} (h : Reduced guess u) (hu : u.kind ≠ .rational) :
    IsBase guess u.base u.exponent := by
  cases u with
  | num q => exact absurd rfl hu
  | pow b p =>
    have hn : NormalPower b p := h.normal
    exact ⟨h.base, hn.base_ne_power, hn.upright⟩
  | sym | prod | sum => exact ⟨h, by simp [Expr.base, kind], nofun⟩

/-- The exponents of factors with one base add up to an exponent for it. -/
theorem isBase_of_mem_groups {us : List Expr} (h : ∀ u ∈ us, Reduced guess u) :
    ∀ g ∈ factorGroups us [], IsBase guess g.1 g.2 := by
  rw [factorGroups_eq]
  refine Groups.forall_mem_collect (I := IsBase guess) (fun b x y hx hy => ?_) ?_
  · refine ⟨hx.reduced, hx.ne_power, fun q hq => ?_⟩
    obtain ⟨h0, hx⟩ := hx.upright q hq
    exact ⟨h0, add_pos hx (hy.upright q hq).2⟩
  · exact forall_mem_factorEntries fun u hu => (h u hu).isBase

theorem reduced_factors_powersOf {w : Expr × Rat → Expr} {gs : Groups}
    (hw : ∀ g ∈ live gs, Reduced guess (w g)) : ∀ f ∈ (powersOf w gs).factors, Reduced guess f :=
  forall_mem_factors_powersOf fun g hg => (hw g hg).reduced_factors

/-- Where no power of a group is a product, the powers leave neither numbers nor products. -/
theorem kind_of_mem_factors {w : Expr × Rat → Expr} {gs : Groups}
    (hplain : (powersOf w gs).fromProduct = false) :
    ∀ f ∈ (powersOf w gs).factors, f.kind ≠ .rational ∧ f.kind ≠ .product := by
  intro f hf
  rw [fromProduct_powersOf, List.any_eq_false] at hplain
  rw [factors_powersOf] at hf
  obtain ⟨g, hg, hf⟩ := List.mem_flatMap.mp hf
  have hprod : (w g).kind ≠ .product := by simpa using hplain g hg
  rw [remaining] at hf
  split_ifs at hf with hrat
  · cases hf
  · rw [factors_eq_singleton hprod, List.mem_singleton] at hf
    rw [hf]
    exact ⟨hrat, hprod⟩

theorem reduced_gathered {w : Expr × Rat → Expr} {us : List Expr}
    (hw : ∀ g ∈ live (factorGroups us []), Reduced guess (w g)) :
    ∀ f ∈ (gathered w us).factors ++ besides (gathered w us).constant 1, Reduced guess f :=
  forall_mem_append_besides (reduced_factors_powersOf hw) fun _ => reduced_num _

/-- Powers of groups with different bases make a normal product. -/
theorem normalProduct_gathered {w : Expr × Rat → Expr} {us : List Expr}
    (h0 : (gathered w us).constant ≠ 0) (hregroups : ¬ (gathered w us).Regroups) :
    NormalProduct ((gathered w us).factors ++ besides (gathered w us).constant 1) := by
  obtain ⟨hplain, hnodup⟩ := not_or.mp hregroups
  have hfactor := kind_of_mem_factors (Bool.eq_false_of_not_eq_true hplain)
  have hrat : ∀ f ∈ (gathered w us).factors, f.kind ≠ .rational := fun f hf => (hfactor f hf).1
  refine ⟨?_, ?_, fun q hq => ?_, ?_⟩
  · exact forall_mem_append_besides (fun f hf => (hfactor f hf).2) fun _ => by simp [kind]
  · rw [numbers_append_besides hrat]
    exact length_besides_le _ _
  · obtain ⟨rfl, h1⟩ := num_mem_append_besides hrat hq
    exact ⟨h0, h1⟩
  · rw [nonNumbers_append_besides hrat]
    exact not_not.mp hnodup

/-! ### Every result -/

/-- Every result of the pass is reduced. -/
theorem reduced_of_yields {e n : Expr} (h : Yields guess e n) : Reduced guess n := by
  induction h with
  | num q => exact reduced_num q
  | sym x => exact reduced_sym x
  | pow _ hn ihb => exact reduced_of_power ihb hn
  | @sum ts terms n v _ hterms hn ih =>
    obtain ⟨rfl, hplain⟩ := eq_of_collected (reduced_spliced ih) hterms
    have hus : ∀ u ∈ spliced .sum (ts.map v), Reduced guess u := reduced_spliced ih
    have hreduced := reduced_collectedTerms hus
    have hnormal := normalSum_collectedTerms hus hplain.symm
    refine of_total hn (fun _ => reduced_num 0) hreduced fun hlen => ?_
    exact reduced_ofTerms hreduced hlen hnormal
  | sumAgain _ _ _ _ _ _ ih => exact ih
  | prodZero => exact reduced_num 0
  | @prod fs ps n v w _ _ hps h0 hregroups hn _ ihw =>
    subst hps
    have hreduced := reduced_gathered ihw
    have hnormal := normalProduct_gathered h0 hregroups
    refine of_productOr hn (fun _ => reduced_num _) hreduced fun hlen => ?_
    exact reduced_ofFactors hreduced hlen hnormal
  | prodAgain _ _ _ _ _ _ _ _ _ _ _ ih => exact ih

theorem reduced_spliced_of_yields {kind : Kind} {es : List Expr} {v : Expr → Expr}
    (hv : ∀ e ∈ es, Yields guess e (v e)) : ∀ u ∈ spliced kind (es.map v), Reduced guess u :=
  reduced_spliced fun e he => reduced_of_yields (hv e he)

/-- The sum that is reduced again if some of the terms are unwrapped. -/
theorem eq_of_sumAgain {ts terms : List Expr} {d : Expr} {v : Expr → Expr}
    (hv : ∀ t ∈ ts, Yields guess t (v t))
    (hterms : collected (spliced .sum (ts.map v)) = .ok (terms, true))
    (hd : Expr.sumOf terms = .ok d) :
    unwraps (spliced .sum (ts.map v)) = true ∧
      d = ofTerms (collectedTerms (spliced .sum (ts.map v))) := by
  obtain ⟨rfl, hunwraps⟩ := eq_of_collected (reduced_spliced_of_yields hv) hterms
  obtain ⟨-, rfl⟩ := sumOf_eq_ok_iff.mp hd
  exact ⟨hunwraps.symm, rfl⟩

end Canonical

namespace Expr

variable {guess : RootGuess}

/-- A canonical form is well formed, and all its nodes are normal. -/
theorem normal_simplify {e n : Expr} (h : e.simplify guess = .ok n) :
    n.WellFormed ∧ n.Everywhere NormalNode := by
  have hn := Canonical.reduced_of_yields (Canonical.yields_of_within h)
  exact ⟨hn.wellFormed, hn.nodes.mono fun _ hd => hd.normal⟩

/-- Two roots of a product, multiplied, are the product, whose factors belong to the one around. -/
theorem normal_simplify_roots :
    (prod [pow (prod [sym ⟨'x', by decide⟩, sym ⟨'y', by decide⟩]) (1 / 2),
          pow (prod [sym ⟨'x', by decide⟩, sym ⟨'y', by decide⟩]) (1 / 2),
          sym ⟨'y', by decide⟩]).simplify Estimate.root =
        .ok (prod [pow (sym ⟨'y', by decide⟩) 2, sym ⟨'x', by decide⟩]) ∧
      (prod [pow (sym ⟨'y', by decide⟩) 2, sym ⟨'x', by decide⟩]).WellFormed ∧
      (prod [pow (sym ⟨'y', by decide⟩) 2, sym ⟨'x', by decide⟩]).Everywhere NormalNode := by
  refine (fun h => ⟨h, normal_simplify h⟩) ?_
  decide +kernel

end Expr

end ExactAlgebra
