import ExactAlgebra.Proofs.Canonical.Folding.Factors

/-!
# Quotients

An expression divided by itself comes to the factors of its form beside those of the reciprocal
(`simplify_quotient`). They multiply to one if the form is a number other than zero, or if its base
is neither a number nor, with the exponent one or minus one, a product (`productForm_num_inverse`,
`productForm_inverse`).

The others are not cancelled. The factors of a product are spliced into the quotient, while the
reciprocal of the product stays one power (`productForm_of_product`). The reciprocal of a power of a
number is a power of the reciprocal of the number, which is another base, or minus one again
(`productForm_roots_ne_one`).
-/

namespace ExactAlgebra

namespace Canonical

open ExactAlgebra.Expr

variable {guess : RootGuess}

theorem drawnTogether_eq (n : Expr) (p : Rat) : drawnTogether n p = (n.base, p * n.exponent) := by
  cases n with
  | pow c i => exact drawnTogether_pow c i p
  | num | sym | prod | sum => exact congrArg _ (mul_one p).symm

/-- The quotient of an expression and itself comes to what its form and the reciprocal of that come
to. -/
theorem simplify_quotient {e n : Expr} (hn : e.simplify guess = .ok n) :
    ∃ m, power guess n (-1) = .ok m ∧
      (e.times e.inverted).simplify guess = productForm guess (n.factors ++ m.factors) := by
  have hdefined : ZerothDefined guess e.inverted :=
    powers_pow.mpr ⟨fun h => absurd h (by norm_num), zerothDefined_of_simplify hn⟩
  obtain ⟨m, hm⟩ := exists_simplify_iff.mpr hdefined
  have hes : ∀ d ∈ [e, e.inverted], ∃ n, d.simplify guess = .ok n := by
    simp [hm, hn]
  refine ⟨m, ?_, ?_⟩
  · rw [← hm, inverted, simplify_pow hn]
  · rw [times, simplify_ofFactors hes, parts_cons _ _ hn, parts_cons _ _ hm,
      spliced_product_singleton, spliced_product_singleton]
    show productForm guess (_ ++ (_ ++ [])) = _
    rw [List.append_nil]

theorem productForm_nil : productForm guess [] = .ok (.num 1) := by
  have hone : (constantFactor [] : Rat) ≠ 0 := one_ne_zero
  have hfirm : Firm guess .product [] := by simp [Firm]
  rw [productForm_of_nodup hfirm List.nodup_nil, if_neg hone]
  rfl

theorem productForm_eq_one {us : List Expr} (hus : ∀ u ∈ us, Reduced guess u)
    (h : worthAll factorWorth us = 0) : productForm guess us = .ok (.num 1) := by
  have hnil : ∀ u ∈ ([] : List Expr), Reduced guess u := by simp
  rw [← productForm_nil]
  exact productForm_congr hus hnil h

/-- The reciprocal of a number is worked out, or left as a first power. -/
theorem power_num_neg_one {q : Rat} {m : Expr} (hq : q ≠ 0)
    (hm : power guess (.num q) (-1) = .ok m) : m = .num q⁻¹ ∨ m = .pow (.num q⁻¹) 1 := by
  have hraises : Raises guess (.num q) (-1) m := raises_of_power guess hm
  have hupright : upright q (-1) = (q⁻¹, 1) := by
    rw [upright, if_pos (by norm_num), neg_neg]
  cases hraises with
  | zero => exact absurd rfl hq
  | @root _ _ r _ _ _ hroot =>
    rw [hupright] at hroot ⊢
    exact Or.inl (congrArg Expr.num hroot)
  | left =>
    rw [hupright]
    exact Or.inr rfl
  | keep hrat => exact absurd rfl hrat

/-- The first power of a number is the number, where it is the power of a group. -/
theorem groupPower_num_one (q : Rat) : groupPower guess (.num q, 1) = .num q := by
  have hnum : Irreducible guess (.num q) := irreducible_num q
  have hpower := power_eq_groupPower hnum one_ne_zero
  have hone : power guess (.num q) 1 = .ok (.num q) := by
    rw [power, drawnTogether_of_ne (by simp [kind])]
    exact if_pos rfl
  rw [hone] at hpower
  exact (Except.ok.inj hpower).symm

/-- A number other than zero is cancelled by its reciprocal, worked out or not. -/
theorem productForm_num_inverse {q : Rat} {m : Expr} (hq : q ≠ 0)
    (hm : power guess (.num q) (-1) = .ok m) :
    productForm guess (.num q :: m.factors) = .ok (.num 1) := by
  have hreduced : ∀ u ∈ Expr.num q :: m.factors, Reduced guess u :=
    List.forall_mem_cons.mpr ⟨reduced_num q, (reduced_of_power (reduced_num q) hm).reduced_factors⟩
  rcases power_num_neg_one hq hm with rfl | rfl
  · refine productForm_eq_one hreduced ?_
    rw [worthAll_cons]
    show factorWorth (.num q) + worthAll factorWorth [.num q⁻¹] = 0
    rw [worthAll_singleton, ← factorWorth_mul, mul_inv_cancel₀ hq, factorWorth_one]
  · have hgroups : groupedFactors guess [.num q, .pow (.num q⁻¹) 1] = ⟨1, [], false⟩ := by
      have hpowers : powersOf (groupPower guess) (factorGroups [.num q, .pow (.num q⁻¹) 1] []) =
          .cons (groupPower guess (.num q⁻¹, 1)) .none := rfl
      have hconstant : constantFactor [.num q, .pow (.num q⁻¹) 1] = q := constantFactor_singleton q
      have hpower : Powers.cons (.num q⁻¹) .none = ⟨q⁻¹, [], false⟩ := by
        rw [Powers.cons, Powers.none, Rational.multiply_eq, mul_one]
      rw [groupedFactors, gathered, hpowers, groupPower_num_one, hpower, hconstant,
        mul_inv_cancel₀ hq]
    have hreduced : ∀ u ∈ [Expr.num q, .pow (.num q⁻¹) 1], Reduced guess u := hreduced
    show productForm guess [.num q, .pow (.num q⁻¹) 1] = _
    rw [productForm_eq hreduced, hgroups]
    rfl

/-- The reciprocal of a form whose base is no number has the same base and the opposite exponent,
unless it is a product. -/
theorem base_of_power_neg_one {n m : Expr} (hbase : n.base.kind ≠ .power)
    (hrat : n.base.kind ≠ .rational) (hprod : n.base.kind = .product → n.exponent ≠ -1)
    (hm : power guess n (-1) = .ok m) :
    m.kind ≠ .rational ∧ m.kind ≠ .product ∧ m.base = n.base ∧ m.exponent = -n.exponent := by
  have hraises := raises_of_power guess hm
  rw [drawnTogether_eq, neg_one_mul] at hraises
  generalize hb : n.base = b at hraises hrat hprod hbase
  generalize hp : -n.exponent = p at hraises
  have hexp : n.exponent = -p := by rw [← hp, neg_neg]
  cases hraises with
  | one =>
    obtain ⟨hmbase, hmexp⟩ := base_of_ne_power hbase
    exact ⟨hrat, fun hkind => hprod hkind hexp, hmbase, hmexp⟩
  | zero | unit | root | left => exact absurd rfl hrat
  | keep => simp [kind, base, exponent]

/-- Two factors of one base with opposite exponents are worth nothing together. -/
theorem factorWorth_add_eq_zero {u v : Expr} (hu : u.kind ≠ .rational) (hv : v.kind ≠ .rational)
    (hbase : v.base = u.base) (hexp : v.exponent = -u.exponent) :
    factorWorth u + factorWorth v = 0 := by
  rw [factorWorth_of_ne hu, factorWorth_of_ne hv, hbase, hexp, ← ofMul_mul,
    AddMonoidAlgebra.single_mul_single, ← Finsupp.single_add, add_neg_cancel, Finsupp.single_zero,
    one_mul]
  rfl

/-- A form other than a number is cancelled by its reciprocal if it is no product, nor the
reciprocal of a product, nor a power of a number. -/
theorem productForm_inverse {n m : Expr} (hn : Reduced guess n) (hrat : n.base.kind ≠ .rational)
    (hprod : n.base.kind = .product → n.exponent ≠ 1 ∧ n.exponent ≠ -1)
    (hm : power guess n (-1) = .ok m) :
    productForm guess (n.factors ++ m.factors) = .ok (.num 1) := by
  obtain ⟨hnrat, hnprod⟩ : n.kind ≠ .rational ∧ n.kind ≠ .product := by
    cases n with
    | num => exact absurd rfl hrat
    | prod => exact absurd rfl (hprod rfl).1
    | sym | pow | sum => simp [kind]
  obtain ⟨hmrat, hmprod, hmbase, hmexp⟩ :=
    base_of_power_neg_one (hn.isBase hnrat).ne_power hrat (fun hkind => (hprod hkind).2) hm
  refine productForm_eq_one ?_ ?_
  · exact List.forall_mem_append.mpr ⟨hn.reduced_factors, (reduced_of_power hn hm).reduced_factors⟩
  · rw [worthAll_append, factors_eq_singleton hnprod, factors_eq_singleton hmprod,
      worthAll_singleton, worthAll_singleton]
    exact factorWorth_add_eq_zero hnrat hmrat hmbase hmexp

/-! ### What is not cancelled -/

/-- The bases of the factors of a product are smaller than the product. -/
theorem notMem_bases (fs : List Expr) : Expr.prod fs ∉ (nonNumbers fs).map Expr.base := by
  intro hmem
  obtain ⟨f, hf, heq⟩ := List.mem_map.mp hmem
  have hle : f.base.size ≤ f.size := by
    cases f with
    | pow => exact Nat.le_succ _
    | num | sym | prod | sum => exact le_rfl
  have := size_le_sizeAll (mem_nonNumbers.mp hf).1
  rw [heq, size_prod] at hle
  omega

/-- The factors of a product, beside its reciprocal. -/
theorem firm_inverse_cons {fs : List Expr} (h : Irreducible guess (.prod fs)) :
    Firm guess .product (.pow (.prod fs) (-1) :: fs) := by
  have hne : ∀ q, Expr.prod fs ≠ .num q := by simp
  have hnormal : NormalPower (.prod fs) (-1) :=
    ⟨by simp [kind], by norm_num, fun q hq => absurd hq (hne q)⟩
  have hreduced := reduced_pow h.reduced hnormal (fun q hq => absurd hq (hne q))
    fun hone => absurd hone (by norm_num)
  have hone : (Expr.pow (.prod fs) (-1)).OneFree := h.oneFree.pow (by norm_num)
  exact List.forall_mem_cons.mpr ⟨⟨⟨hreduced, hone⟩, by simp [kind]⟩, h.firm_factors⟩

/-- The factors of a product, beside its reciprocal, come to the product of them all. -/
theorem productForm_inverse_cons {fs : List Expr} (h : Irreducible guess (.prod fs)) :
    productForm guess (.pow (.prod fs) (-1) :: fs) =
      .ok (ofFactors (.pow (.prod fs) (-1) :: fs)) := by
  have hn : NormalProduct fs := h.reduced.normal
  obtain ⟨hnumbers, h0⟩ := besides_constantFactor hn
  have hbases : ((nonNumbers (.pow (.prod fs) (-1) :: fs)).map Expr.base).Nodup := by
    rw [nonNumbers_cons_of_ne fs (by simp [kind])]
    exact List.nodup_cons.mpr ⟨notMem_bases fs, hn.nodup_bases⟩
  have hlen : 2 ≤ (Expr.pow (.prod fs) (-1) :: fs).length :=
    h.reduced.wellFormed.1.trans (Nat.le_succ _)
  rw [productForm_of_nodup (firm_inverse_cons h) hbases,
    constantFactor_cons_of_ne fs (by simp [kind]), if_neg h0,
    nonNumbers_cons_of_ne fs (by simp [kind]), hnumbers, List.cons_append,
    productOr_eq_of_perm _ ((nonNumbers_append_numbers_perm fs).cons _),
    productOr_of_two_le _ hlen]

/-- A form that is a product, or the reciprocal of one, is not cancelled: the factors are spliced
into the quotient, and the reciprocal is not. -/
theorem productForm_of_product {n m : Expr} (hm : power guess n (-1) = .ok m) {fs : List Expr}
    (h : Irreducible guess (.prod fs)) (hprod : n = .prod fs ∨ n = .pow (.prod fs) (-1)) :
    productForm guess (n.factors ++ m.factors) =
      .ok (ofFactors (.pow (.prod fs) (-1) :: fs)) := by
  have hperm : (n.factors ++ m.factors).Perm (.pow (.prod fs) (-1) :: fs) := by
    rcases hprod with rfl | rfl
    · have hpow : power guess (.prod fs) (-1) = .ok (.pow (.prod fs) (-1)) := rfl
      rw [hpow] at hm
      rw [← Except.ok.inj hm]
      exact List.perm_append_singleton _ fs
    · have hone : power guess (.pow (.prod fs) (-1)) (-1) = .ok (.prod fs) := by
        rw [power, drawnTogether_eq]
        exact if_pos (show (-1 * -1 : Rat) = 1 by norm_num)
      rw [hone] at hm
      rw [← Except.ok.inj hm]
      exact List.Perm.refl (_ :: fs)
  have hfirm := firm_inverse_cons h
  rw [← productForm_inverse_cons h]
  exact productForm_congr (fun u hu => (hfirm u (hperm.mem_iff.mp hu)).1.reduced)
    (fun u hu => (hfirm u hu).1.reduced) (worthAll_perm factorWorth hperm)

/-! ### Powers of numbers -/

/-- The reciprocal of an irreducible power of a number is the power of the reciprocal. -/
theorem power_inverse_of_root {q p : Rat} (h : Irreducible guess (.pow (.num q) p)) :
    power guess (.pow (.num q) p) (-1) = .ok (.pow (.num q⁻¹) p) ∧
      Irreducible guess (.pow (.num q⁻¹) p) := by
  have hn : NormalPower (.num q) p := h.reduced.normal
  obtain ⟨hq, hp⟩ := hn.upright q rfl
  have hmissing : RootMissing guess q⁻¹ p := (rootMissing_inv guess hq).mpr h.reduced.rootMissing
  have hp1 : p ≠ 1 := by
    rintro rfl
    exact h.oneFree.root _ rfl
  constructor
  · have hupright : upright q (-p) = (q⁻¹, p) := by
      rw [upright, if_pos (neg_lt_zero.mpr hp), neg_neg]
    rw [power, drawnTogether_eq]
    show raised guess (.num q) (-1 * p) = _
    rw [neg_one_mul, raised, if_neg (by linarith)]
    show numberPower guess q (-p) = _
    have hmissing' : RootMissing guess q (-p) := by
      rw [← rootMissing_upright guess hq, hupright]
      exact hmissing
    rw [numberPower_of_rootMissing guess hq (neg_ne_zero.mpr hp.ne') hmissing', hupright]
  · refine ⟨reduced_pow (reduced_num _) ⟨by simp [kind], hp.ne', ?_⟩ ?_ fun _ => rfl,
      (oneFree_num _).pow hp1⟩
    · intro r hr
      obtain rfl := Expr.num.inj hr
      exact ⟨inv_ne_zero hq, hp⟩
    · intro r hr
      obtain rfl := Expr.num.inj hr
      exact hmissing

/-- Twice a number with an even denominator has an odd numerator. -/
theorem odd_num_add_self {p : Rat} (h : p.den % 2 = 0) : (p + p).num % 2 = 1 := by
  by_contra heven
  obtain ⟨j, hj⟩ : (2 : ℤ) ∣ (p + p).num := by omega
  have hp : p = Rat.divInt j (p + p).den := by
    have htwo : (((p + p).num : ℤ) : ℚ) / (p + p).den = p + p := Rat.num_div_den _
    rw [hj, Int.cast_mul, mul_div_assoc, Int.cast_ofNat] at htwo
    rw [Rat.divInt_eq_div, Int.cast_natCast]
    linarith
  have hdvd : (p.den : ℤ) ∣ (p + p).den := by
    nth_rewrite 1 [hp]
    exact Rat.den_dvd j _
  have hcoprime : (p + p).num.natAbs.Coprime (p + p).den := (p + p).reduced
  have hden : 2 ∣ (p + p).den :=
    (Nat.dvd_of_mod_eq_zero h).trans (Int.natCast_dvd_natCast.mp hdvd)
  have htwo : 2 ∣ Nat.gcd (p + p).num.natAbs (p + p).den := Nat.dvd_gcd (by omega) hden
  rw [hcoprime] at htwo
  omega

/-- A power of minus one to twice an exponent with an even denominator is not one. -/
theorem groupPower_neg_one (guess : RootGuess) {p : Rat} (hp : 0 < p) (heven : p.den % 2 = 0) :
    (∃ v, v ≠ 1 ∧ groupPower guess (.num (-1), p + p) = .num v) ∨
      groupPower guess (.num (-1), p + p) = .pow (.num (-1)) (p + p) := by
  have hpos := add_pos hp hp
  have hodd := odd_num_add_self heven
  have hbase : IsBase guess (.num (-1)) (p + p) := by
    refine ⟨reduced_num _, by simp [kind], ?_⟩
    intro r hr
    obtain rfl := Expr.num.inj hr
    exact ⟨by norm_num, hpos⟩
  have hraises := raises_groupPower (irreducible_num _) hbase hpos.ne'
  generalize groupPower guess (.num (-1), p + p) = n at hraises
  generalize hc : Expr.num (-1) = c at hraises
  generalize p + p = e at hraises hodd hpos
  cases hraises with
  | one => exact Or.inl ⟨-1, by norm_num, hc.symm⟩
  | zero => cases hc
  | unit => exact absurd rfl hpos.ne
  | @root q _ r _ _ _ hroot =>
    obtain rfl := Expr.num.inj hc
    rw [upright_of_pos hpos] at hroot ⊢
    have hroot : r ^ e.den = -1 := hroot
    have hk : Odd e.num.toNat := by
      have := Rat.num_pos.mpr hpos
      exact Nat.odd_iff.mpr (by omega)
    refine Or.inl ⟨r ^ e.num.toNat, fun hone => ?_, rfl⟩
    have hsign : (-1 : Rat) ^ e.num.toNat = 1 := by
      rw [← hroot, pow_right_comm, hone, one_pow]
    rw [hk.neg_one_pow] at hsign
    exact absurd hsign (by norm_num)
  | left =>
    obtain rfl := Expr.num.inj hc
    rw [upright_of_pos hpos]
    exact Or.inr rfl
  | keep hrat => exact absurd (by rw [← hc]; rfl) hrat

/-- An irreducible power of minus one, multiplied by itself, does not come to one. -/
theorem productForm_neg_one_ne_one {p : Rat} (h : Irreducible guess (.pow (.num (-1)) p))
    (heven : p.den % 2 = 0) :
    productForm guess [.pow (.num (-1)) p, .pow (.num (-1)) p] ≠ .ok (.num 1) := by
  have hn : NormalPower (.num (-1)) p := h.reduced.normal
  have hp := (hn.upright (-1) rfl).2
  have hfirm : Firm guess .product [.pow (.num (-1)) p, .pow (.num (-1)) p] := by
    simp [Firm, h, kind]
  have hfolded : foldedFactors guess [.pow (.num (-1)) p, .pow (.num (-1)) p] =
      (groupPower guess (.num (-1), p + p)).factors ++ [.num 1] := by
    have hgroup : groupFactors guess (.num (-1), p + p) =
        (groupPower guess (.num (-1), p + p)).factors := if_neg (add_pos hp hp).ne'
    have hcollect : Groups.collect (factorEntries [.pow (.num (-1)) p, .pow (.num (-1)) p]) =
        [(.num (-1), p + p)] := by
      show Groups.add (.num (-1)) p [(.num (-1), p)] = _
      rw [Groups.add, if_pos rfl, Rational.add_eq]
    rw [foldedFactors, hcollect, List.flatMap_singleton, hgroup]
    rfl
  have hfirm' := firm_foldedFactors hfirm
  rw [← productForm_foldedFactors hfirm]
  rw [hfolded] at hfirm' ⊢
  rcases groupPower_neg_one guess hp heven with ⟨v, hv, hpower⟩ | hpower
  · have hconstant : constantFactor [Expr.num v, .num 1] = v := by
      rw [constantFactor_num_cons, constantFactor_singleton, mul_one]
    rw [hpower] at hfirm' ⊢
    have hfirm' : Firm guess .product [.num v, .num 1] := hfirm'
    show productForm guess [.num v, .num 1] ≠ _
    rw [productForm_of_nodup hfirm' List.nodup_nil, hconstant, besides, if_neg hv]
    split_ifs
    · simp
    · intro hone
      exact hv (Expr.num.inj (Except.ok.inj hone))
  · rw [hpower] at hfirm' ⊢
    have hfirm' : Firm guess .product [.pow (.num (-1)) (p + p), .num 1] := hfirm'
    show productForm guess [.pow (.num (-1)) (p + p), .num 1] ≠ _
    have hone : constantFactor [Expr.pow (.num (-1)) (p + p), .num 1] = 1 :=
      constantFactor_singleton 1
    rw [productForm_of_nodup hfirm' (List.nodup_singleton _), hone, if_neg one_ne_zero]
    intro heq
    cases heq

/-- An irreducible power of a number and its reciprocal do not come to one. -/
theorem productForm_roots_ne_one {q p : Rat} (h : Irreducible guess (.pow (.num q) p)) :
    productForm guess [.pow (.num q) p, .pow (.num q⁻¹) p] ≠ .ok (.num 1) := by
  have hn : NormalPower (.num q) p := h.reduced.normal
  have hq := (hn.upright q rfl).1
  by_cases hsquare : q * q = 1
  · obtain ⟨rfl, heven⟩ := even_den_of_rootMissing guess hsquare h.reduced.rootMissing
    rw [inv_neg_one]
    exact productForm_neg_one_ne_one h heven
  · have hfirm : Firm guess .product [.pow (.num q) p, .pow (.num q⁻¹) p] := by
      simp [Firm, h, (power_inverse_of_root h).2, kind]
    have hne : q ≠ q⁻¹ := by
      intro heq
      apply hsquare
      nth_rewrite 2 [heq]
      exact mul_inv_cancel₀ hq
    have hbases : ((nonNumbers [.pow (.num q) p, .pow (.num q⁻¹) p]).map Expr.base).Nodup := by
      show [Expr.num q, .num q⁻¹].Nodup
      simpa using hne
    have hone : constantFactor [.pow (.num q) p, .pow (.num q⁻¹) p] ≠ 0 := one_ne_zero
    rw [productForm_of_nodup hfirm hbases, if_neg hone]
    intro heq
    cases heq

end Canonical

end ExactAlgebra
