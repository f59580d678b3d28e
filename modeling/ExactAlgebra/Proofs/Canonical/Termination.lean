import ExactAlgebra.Proofs.Canonical.Fixed

/-!
# The pass ends

The pass goes on with children of an expression and with expressions that it has built itself, the
powers of groups and the sums and products to be reduced again: its calls (`Calls`). A call is
always for an expression of smaller weight (`weight_lt_of_calls`), so the calls do not nest
forever, and the steps that the pass is given are enough.

The calls for a power of a group and for a sum of unwrapped terms lose a node. A product that is
gathered again loses one as well if a power of a group is a product. If it is only that two powers
have one base, a node has gone in one of the powers: powers that keep all their nodes have bases
that are irreducible, and these are left alone (`base_of_factorSize_le`), each different from the
others.
-/

namespace ExactAlgebra.Canonical

open ExactAlgebra.Expr

variable {guess : RootGuess}

/-- The reduction of the first expression calls for that of the second. -/
inductive Calls (guess : RootGuess) : Expr → Expr → Prop
  | child {e d : Expr} : d ∈ e.children → Calls guess e d
  | group {fs : List Expr} {g : Expr × Rat} (v : Expr → Expr) :
      (∀ f ∈ fs, Yields guess f (v f)) →
      g ∈ live (factorGroups (spliced .product (fs.map v)) []) →
      Calls guess (.prod fs) (.pow g.1 g.2)
  | sumAgain {ts terms : List Expr} {d : Expr} (v : Expr → Expr) :
      (∀ t ∈ ts, Yields guess t (v t)) →
      collected (spliced .sum (ts.map v)) = .ok (terms, true) →
      Expr.sumOf terms = .ok d → Calls guess (.sum ts) d
  | prodAgain {fs : List Expr} {ps : Powers} {d : Expr} (v : Expr → Expr)
      (w : Expr × Rat → Expr) :
      (∀ f ∈ fs, Yields guess f (v f)) →
      (∀ g ∈ live (factorGroups (spliced .product (fs.map v)) []),
        Yields guess (.pow g.1 g.2) (w g)) →
      ps = gathered w (spliced .product (fs.map v)) → ps.Regroups →
      Expr.prodOf (ps.factors ++ [.num ps.constant]) = .ok d → Calls guess (.prod fs) d

/-! ### Weights -/

theorem size_lt_of_mem_children {e d : Expr} (h : d ∈ e.children) : d.size < e.size := by
  cases e with
  | num | sym => cases h
  | pow b p =>
    rcases List.mem_cons.mp h with rfl | h
    · exact Nat.lt_succ_self _
    · rw [List.mem_singleton.mp h]
      exact Nat.succ_pos _
  | prod es | sum es => exact Nat.lt_succ_of_le (size_le_sizeAll h)

/-- The base of a group is no larger than the factors. -/
theorem size_group_le {us : List Expr} : ∀ g ∈ factorGroups us [], g.1.size ≤ sizeAll us := by
  rw [factorGroups_eq]
  refine Groups.forall_mem_collect (I := fun b _ => b.size ≤ sizeAll us) (fun _ _ _ h _ => h) ?_
  refine forall_mem_factorEntries fun u hu _ => le_trans ?_ (size_le_sizeAll hu)
  cases u with
  | pow b p => exact Nat.le_succ _
  | num | sym | prod | sum => exact le_rfl

/-- A power of a group that keeps all its nodes keeps its base. -/
theorem base_of_factorSize_le {b n : Expr} {p : Rat} (hb : IsBase guess b p) (hp : p ≠ 0)
    (h : Yields guess (.pow b p) n) (hfull : factorSize (b, p) ≤ n.size) :
    n.base = b ∧ n.kind ≠ .rational := by
  have hcore := size_of_yields h
  rw [factorSize, if_neg hp] at hfull
  rw [core] at hcore
  have hrat : n.kind ≠ .rational := fun hrat => by
    rw [size_eq_zero_iff.mpr hrat] at hfull
    omega
  have hirreducible : Irreducible guess b := ⟨hb.reduced, size_le_core_iff.mp (by omega)⟩
  refine ⟨?_, hrat⟩
  cases h with
  | pow hb' hn =>
    rw [eq_of_yields hirreducible hb'] at hn
    have hraises := raises_of_power guess hn
    rw [drawnTogether_of_ne hb.ne_power] at hraises
    cases hraises with
    | one => exact (base_of_ne_power hb.ne_power).1
    | zero | unit | root => exact absurd rfl hrat
    | left _ _ _ _ =>
      rw [upright_of_pos (hb.upright _ rfl).2]
      rfl
    | keep => rfl

/-- A product that is gathered again has lost a node. -/
theorem size_lt_of_regroups {us : List Expr} {w : Expr × Rat → Expr}
    (hus : ∀ u ∈ us, Reduced guess u)
    (hw : ∀ g ∈ live (factorGroups us []), Yields guess (.pow g.1 g.2) (w g))
    (hregroups : (gathered w us).Regroups) : sizeAll (gathered w us).factors < sizeAll us := by
  have hle : ∀ g ∈ live (factorGroups us []), (w g).size ≤ factorSize g := fun g hg =>
    (size_of_yields (hw g hg)).trans (core_pow_le (ne_zero_of_mem_live hg))
  have hfactors : sizeAll (gathered w us).factors + (gathered w us).fromProduct.toNat ≤
      ((live (factorGroups us [])).map fun g => (w g).size).sum := size_factors_powersOf w _
  have hgroups := sum_factorSize_le us
  by_contra hge
  -- Nothing is lost anywhere, so no power is a product and each keeps all that it may have.
  have hplain : (gathered w us).fromProduct = false := by
    rw [← Bool.not_eq_true]
    intro hprod
    have := List.sum_le_sum hle
    rw [hprod, Bool.toNat_true] at hfactors
    omega
  have hfull : ∀ g ∈ live (factorGroups us []), factorSize g ≤ (w g).size := by
    intro g hg
    by_contra hlt
    have := List.sum_lt_sum _ _ hle ⟨g, hg, not_le.mp hlt⟩
    omega
  have hbase : ∀ g ∈ live (factorGroups us []), (w g).base = g.1 ∧ (w g).kind ≠ .rational := by
    intro g hg
    have hmem := (List.mem_filter.mp hg).1
    exact base_of_factorSize_le (isBase_of_mem_groups hus g hmem) (ne_zero_of_mem_live hg) (hw g hg)
      (hfull g hg)
  rw [Powers.Regroups, hplain] at hregroups
  refine hregroups.elim Bool.false_ne_true fun hnodup => hnodup ?_
  have hbases : ((gathered w us).factors.map Expr.base) =
      (live (factorGroups us [])).map Prod.fst := by
    show (powersOf w (factorGroups us [])).factors.map Expr.base = _
    rw [factors_powersOf_eq_map (fun g hg => (hbase g hg).2) hplain, List.map_map]
    exact List.map_congr_left fun g hg => (hbase g hg).1
  rw [hbases, factorGroups_eq]
  exact (List.filter_sublist.map Prod.fst).nodup (Groups.nodup_keys_collect _)

theorem weight_pow (b : Expr) (p : Rat) : weight (.pow b p) = 2 * (b.size + 1) := rfl

theorem weight_sum (ts : List Expr) : weight (.sum ts) = 2 * (sizeAll ts + 1) := rfl

theorem weight_prod (fs : List Expr) : weight (.prod fs) = 2 * (sizeAll fs + 1) + 1 := rfl

/-- Every call is for an expression of smaller weight. -/
theorem weight_lt_of_calls {e d : Expr} (h : Calls guess e d) : weight d < weight e := by
  cases h with
  | child hd =>
    have := size_lt_of_mem_children hd
    unfold weight
    split_ifs <;> omega
  | @group fs g v hv hg =>
    have hbase := size_group_le g (List.mem_filter.mp hg).1
    have hspliced : sizeAll (spliced .product (fs.map v)) ≤ sizeAll fs :=
      sizeAll_spliced_le_of_yields hv
    rw [weight_pow, weight_prod]
    omega
  | @sumAgain ts terms d v hv hterms hd =>
    obtain ⟨hunwraps, rfl⟩ := eq_of_sumAgain hv hterms hd
    have hus : ∀ u ∈ spliced .sum (ts.map v), Reduced guess u := reduced_spliced_of_yields hv
    have hcollected := size_collectedTerms hus
    have hspliced : sizeAll (spliced .sum (ts.map v)) ≤ sizeAll ts :=
      sizeAll_spliced_le_of_yields hv
    rw [hunwraps, Bool.toNat_true] at hcollected
    rw [ofTerms, weight_sum, weight_sum, sizeAll_perm (sort_perm _)]
    omega
  | @prodAgain fs ps d v w hv hw hps hregroups hd =>
    obtain ⟨-, rfl⟩ := prodOf_eq_ok_iff.mp hd
    subst hps
    have hgathered := size_lt_of_regroups (reduced_spliced_of_yields hv) hw hregroups
    have hspliced : sizeAll (spliced .product (fs.map v)) ≤ sizeAll fs :=
      sizeAll_spliced_le_of_yields hv
    rw [ofFactors, weight_prod, weight_prod, sizeAll_perm (sort_perm _), sizeAll_append,
      sizeAll_cons, size_num, sizeAll_nil]
    omega

/-! ### What a reduction depends on -/

section

variable {again again' : Expr → Traced Expr}

theorem flattened_congr {e : Expr} (h : ∀ d ∈ e.children, again d = again' d) :
    flattened again e = flattened again' e := by
  rw [flattened, flattened, Traced.mapAll_congr h]

theorem groupPowers_congr {gs : Groups}
    (h : ∀ g ∈ live gs, again (.pow g.1 g.2) = again' (.pow g.1 g.2)) :
    groupPowers again gs = groupPowers again' gs := by
  induction gs with
  | nil => rfl
  | cons g gs ih =>
    obtain ⟨b, p⟩ := g
    by_cases hp : p = 0
    · rw [live_cons_of_eq gs hp] at h
      rw [groupPowers, groupPowers, if_pos hp, if_pos hp, ih h]
    · rw [live_cons_of_ne gs hp] at h
      obtain ⟨hg, hgs⟩ := List.forall_mem_cons.mp h
      rw [groupPowers, groupPowers, if_neg hp, if_neg hp, ih hgs, hg]

/-- A reduction asks for nothing but its calls. -/
theorem reduce_congr (hagain : ∀ {d n}, (again d).outcome = .ok n → Yields guess d n) {e : Expr}
    (h : ∀ d, Calls guess e d → again d = again' d) :
    reduce guess again e = reduce guess again' e := by
  cases e with
  | num | sym => rfl
  | pow b p =>
    have hb := h b (.child List.mem_cons_self)
    rw [reduce, reduce, hb]
  | sum ts =>
    rw [reduce, reduce, ← flattened_congr fun d hd => h d (.child hd)]
    refine Traced.bind_congr fun us hus => ?_
    obtain ⟨hv, rfl⟩ := flattened_eq_ok hus
    rw [Canonical.sum, Canonical.sum]
    refine Traced.bind_congr fun found hterms => ?_
    obtain ⟨terms, _ | _⟩ := found
    · rfl
    · refine Traced.bind_congr fun _ _ => Traced.bind_congr fun d hd => ?_
      exact h d (.sumAgain (formBy again) (fun t ht => hagain (hv t ht)) hterms hd)
  | prod fs =>
    rw [reduce, reduce, ← flattened_congr fun d hd => h d (.child hd)]
    refine Traced.bind_congr fun us hus => ?_
    obtain ⟨hv, rfl⟩ := flattened_eq_ok hus
    have hv : ∀ f ∈ fs, Yields guess f (formBy again f) := fun f hf => hagain (hv f hf)
    show product again (spliced .product (fs.map (formBy again))) =
      product again' (spliced .product (fs.map (formBy again)))
    rw [product, product, ← groupPowers_congr fun g hg => h _ (.group (formBy again) hv hg)]
    refine Traced.bind_congr fun ps hps => ?_
    obtain ⟨hw, rfl⟩ := groupPowers_eq_ok hps
    simp only [Rational.multiply_eq]
    split_ifs with hzero hregroups
    · rfl
    · refine Traced.bind_congr fun _ _ => Traced.bind_congr fun d hd => ?_
      exact h d (.prodAgain (formBy again) (powerBy again) hv (fun g hg => hagain (hw g hg)) rfl
        hregroups hd)
    · rfl

end

/-! ### Steps -/

/-- With enough steps the number of them makes no difference. -/
theorem within_eq_within {k l : Nat} {e : Expr} (hk : weight e < k) (hl : weight e < l) :
    within guess k e = within guess l e := by
  induction k generalizing l e with
  | zero => omega
  | succ k ih =>
    cases l with
    | zero => omega
    | succ l =>
      refine reduce_congr yields_of_within fun d hd => ?_
      have := weight_lt_of_calls hd
      exact ih (by omega) (by omega)

/-- The pass is the reduction that goes on, at its calls, with the pass. -/
theorem reduce_eq_simplifyTraced {e : Expr} {again : Expr → Traced Expr}
    (h : ∀ d, Calls guess e d → again d = d.simplifyTraced guess) :
    reduce guess again e = e.simplifyTraced guess := by
  refine (reduce_congr yields_of_within fun d hd => ?_).symm
  rw [h d hd]
  exact within_eq_within (weight_lt_of_calls hd) (Nat.lt_succ_self _)

theorem yields_of_simplifyTraced {e n : Expr} (h : (e.simplifyTraced guess).outcome = .ok n) :
    Yields guess e n :=
  yields_of_within h

/-- The calls do not nest forever. -/
theorem wellFounded_calls (guess : RootGuess) : WellFounded fun d e => Calls guess e d :=
  Subrelation.wf weight_lt_of_calls (measure weight).wf

/-! ### Failures -/

/-- There are terms enough for a sum where some are unwrapped. -/
theorem two_le_length_collectedTerms {us : List Expr} (hus : ∀ u ∈ us, Reduced guess u)
    (hunwraps : unwraps us = true) : 2 ≤ (collectedTerms us).length := by
  rw [unwraps, List.any_eq_true] at hunwraps
  obtain ⟨⟨k, c⟩, hg, hu⟩ := hunwraps
  have hk := isStem_of_mem_groups hus _ hg
  have hlen : 2 ≤ (likeTermsOf (k, c)).length := by
    rw [likeTermsOf_of_unwrapped hu]
    cases k with
    | sum ts => exact hk.reduced.wellFormed.1
    | num | sym | pow | prod => exact absurd (isUnwrapped_iff.mp hu).1 (by simp [kind])
  have hsub : (likeTermsOf (k, c)).Sublist (collectedTerms us) :=
    (List.sublist_flatten_of_mem (List.mem_map_of_mem hg)).trans (List.sublist_append_left _ _)
  exact hlen.trans hsub.length_le

/-- There are factors enough for a product that is gathered again. -/
theorem two_le_length_of_regroups {us : List Expr} {w : Expr × Rat → Expr}
    (hw : ∀ g ∈ live (factorGroups us []), Reduced guess (w g))
    (hregroups : (gathered w us).Regroups) : 2 ≤ (gathered w us).factors.length := by
  rcases hregroups with hprod | hnodup
  · have hprod : (powersOf w (factorGroups us [])).fromProduct = true := hprod
    rw [fromProduct_powersOf, List.any_eq_true] at hprod
    obtain ⟨g, hg, hkind⟩ := hprod
    have hlen : 2 ≤ (remaining (w g)).length := by
      have hr := hw g hg
      cases hwg : w g with
      | prod fs =>
        rw [hwg] at hr
        exact hr.wellFormed.1
      | num | sym | pow | sum =>
        rw [hwg] at hkind
        exact absurd (of_decide_eq_true hkind) (by simp [kind])
    have hsub : (remaining (w g)).Sublist (powersOf w (factorGroups us [])).factors := by
      rw [factors_powersOf]
      exact List.sublist_flatten_of_mem (List.mem_map.mpr ⟨g, hg, rfl⟩)
    exact hlen.trans hsub.length_le
  · by_contra hlt
    refine hnodup ?_
    rcases hfs : (gathered w us).factors with _ | ⟨a, _ | ⟨b, fs⟩⟩
    · exact List.nodup_nil
    · exact List.nodup_singleton _
    · rw [hfs] at hlt
      simp at hlt

section

variable {again : Expr → Traced Expr} {err : Error}

theorem flattened_eq_error {e : Expr} (h : (flattened again e).outcome = .error err) :
    ∃ d ∈ e.children, (again d).outcome = .error err := by
  simp only [flattened, Traced.outcome_bind_eq_error] at h
  rcases h with h | ⟨us, -, h⟩
  · exact Traced.mapAll_eq_error h
  · cases h

theorem groupPowers_eq_error {gs : Groups} (h : (groupPowers again gs).outcome = .error err) :
    ∃ g ∈ live gs, (again (.pow g.1 g.2)).outcome = .error err := by
  induction gs with
  | nil => cases h
  | cons g gs ih =>
    obtain ⟨b, p⟩ := g
    by_cases hp : p = 0
    · rw [groupPowers, if_pos hp] at h
      rw [live_cons_of_eq gs hp]
      exact ih h
    · rw [groupPowers, if_neg hp] at h
      simp only [Traced.outcome_bind_eq_error] at h
      rw [live_cons_of_ne gs hp]
      rcases h with h | ⟨n, -, h | ⟨ps, -, h⟩⟩
      · exact ⟨(b, p), List.mem_cons_self, h⟩
      · obtain ⟨g, hg, h⟩ := ih h
        exact ⟨g, List.mem_cons_of_mem _ hg, h⟩
      · cases h

theorem sum_eq_error {us : List Expr} (hus : ∀ u ∈ us, Reduced guess u)
    (h : (Canonical.sum again us).outcome = .error err) :
    ∃ terms d, collected us = .ok (terms, true) ∧ Expr.sumOf terms = .ok d ∧
      (again d).outcome = .error err := by
  have hterms := collected_of_wellFormed fun u hu => (hus u hu).wellFormed
  rw [Canonical.sum, hterms] at h
  cases hunwraps : unwraps us with
  | false =>
    rw [hunwraps] at h
    exact absurd h total_ne_error
  | true =>
    have hd := sumOf_eq_ok_iff.mpr ⟨two_le_length_collectedTerms hus hunwraps, rfl⟩
    rw [hunwraps] at h hterms
    refine ⟨_, _, hterms, hd, ?_⟩
    have h : ((Traced.lift (Expr.sumOf (collectedTerms us))) >>= again).outcome = .error err := h
    rw [hd] at h
    exact h

theorem product_eq_error (hagain : ∀ {d n}, (again d).outcome = .ok n → Yields guess d n)
    {us : List Expr} (h : (product again us).outcome = .error err) :
    (∃ g ∈ live (factorGroups us []), (again (.pow g.1 g.2)).outcome = .error err) ∨
      ∃ w d, (∀ g ∈ live (factorGroups us []), Yields guess (.pow g.1 g.2) (w g)) ∧
        (gathered w us).Regroups ∧
        Expr.prodOf ((gathered w us).factors ++ [.num (gathered w us).constant]) = .ok d ∧
        (again d).outcome = .error err := by
  rw [product, Traced.outcome_bind_eq_error] at h
  rcases h with h | ⟨ps, hps, h⟩
  · exact Or.inl (groupPowers_eq_error h)
  · obtain ⟨hw, rfl⟩ := groupPowers_eq_ok hps
    simp only [Rational.multiply_eq] at h
    split_ifs at h with hzero hregroups
    · cases h
    · have hw : ∀ g ∈ live (factorGroups us []), Yields guess (.pow g.1 g.2) (powerBy again g) :=
        fun g hg => hagain (hw g hg)
      have hlen : 2 ≤ ((gathered (powerBy again) us).factors ++
          [Expr.num (gathered (powerBy again) us).constant]).length := by
        have := two_le_length_of_regroups (fun g hg => reduced_of_yields (hw g hg)) hregroups
        rw [List.length_append]
        omega
      have hd := prodOf_eq_ok_iff.mpr ⟨hlen, rfl⟩
      refine Or.inr ⟨powerBy again, _, hw, hregroups, hd, ?_⟩
      have h : (Traced.lift (Expr.prodOf ((gathered (powerBy again) us).factors ++
          [.num (gathered (powerBy again) us).constant])) >>= again).outcome = .error err := h
      rw [hd] at h
      exact h
    · exact absurd h productOr_ne_error

/-- A reduction fails where one of its calls fails or, for a power, where its base has no such
power. -/
theorem reduce_eq_error (hagain : ∀ {d n}, (again d).outcome = .ok n → Yields guess d n) {e : Expr}
    (h : (reduce guess again e).outcome = .error err) :
    (∃ d, Calls guess e d ∧ (again d).outcome = .error err) ∨
      ∃ b p b', e = .pow b p ∧ (again b).outcome = .ok b' ∧ power guess b' p = .error err := by
  cases e with
  | num | sym => cases h
  | pow b p =>
    simp only [reduce, Traced.outcome_bind_eq_error] at h
    rcases h with h | ⟨b', hb, h⟩
    · exact Or.inl ⟨b, .child List.mem_cons_self, h⟩
    · exact Or.inr ⟨b, p, b', rfl, hb, h⟩
  | sum ts =>
    left
    simp only [reduce, Traced.outcome_bind_eq_error] at h
    rcases h with h | ⟨us, hus, h⟩
    · obtain ⟨d, hd, h⟩ := flattened_eq_error h
      exact ⟨d, .child hd, h⟩
    · obtain ⟨hv, rfl⟩ := flattened_eq_ok hus
      have hv : ∀ t ∈ ts, Yields guess t (formBy again t) := fun t ht => hagain (hv t ht)
      obtain ⟨terms, d, hterms, hd, h⟩ :=
        sum_eq_error (reduced_spliced_of_yields hv) h
      exact ⟨d, .sumAgain (formBy again) hv hterms hd, h⟩
  | prod fs =>
    left
    simp only [reduce, Traced.outcome_bind_eq_error] at h
    rcases h with h | ⟨us, hus, h⟩
    · obtain ⟨d, hd, h⟩ := flattened_eq_error h
      exact ⟨d, .child hd, h⟩
    · obtain ⟨hv, rfl⟩ := flattened_eq_ok hus
      have hv : ∀ f ∈ fs, Yields guess f (formBy again f) := fun f hf => hagain (hv f hf)
      rcases product_eq_error hagain h with ⟨g, hg, h⟩ | ⟨w, d, hw, hregroups, hd, h⟩
      · exact ⟨_, .group (formBy again) hv hg, h⟩
      · exact ⟨d, .prodAgain (formBy again) w hv hw rfl hregroups hd, h⟩

end

/-- If the pass fails, it does at a power that it comes to. -/
theorem exists_power_of_error {e : Expr} {err : Error} (h : e.simplify guess = .error err) :
    ∃ b p b', Relation.ReflTransGen (Calls guess) e (.pow b p) ∧ b.simplify guess = .ok b' ∧
      power guess b' p = .error err := by
  induction e using (wellFounded_calls guess).induction with
  | _ e ih =>
    rw [Expr.simplify, ← reduce_eq_simplifyTraced fun _ _ => rfl] at h
    rcases reduce_eq_error yields_of_simplifyTraced h with ⟨d, hd, h⟩ | ⟨b, p, b', rfl, hb, h⟩
    · obtain ⟨b, p, b', hcalls, hb⟩ := ih d hd h
      exact ⟨b, p, b', .head hd hcalls, hb⟩
    · exact ⟨b, p, b', .refl, hb, h⟩

/-- The pass ends: all that a reduction asks for is its calls, these are for expressions of smaller
weight, and the pass never fails for want of steps. -/
theorem pass_ends (guess : RootGuess) :
    (∀ e d, Calls guess e d → weight d < weight e) ∧
      (∀ e again, (∀ d, Calls guess e d → again d = d.simplifyTraced guess) →
        reduce guess again e = e.simplifyTraced guess) ∧
      ∀ e : Expr, e.simplify guess ≠ .error .outOfSteps := by
  refine ⟨fun e d => weight_lt_of_calls, fun e again => reduce_eq_simplifyTraced, fun e h => ?_⟩
  obtain ⟨b, p, b', -, -, h⟩ := exists_power_of_error h
  rcases (power_eq_error guess h).2 with ⟨-, h⟩ | ⟨-, h⟩
  · cases h
  · cases h

end ExactAlgebra.Canonical
