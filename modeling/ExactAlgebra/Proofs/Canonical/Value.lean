import ExactAlgebra.Number.Estimate
import ExactAlgebra.Proofs.Canonical.Results
import ExactAlgebra.Proofs.PositiveValues

/-!
# The pass keeps values

In every lawful reading a result of the pass has the value of the expression, and it is admissible
if the expression is (`value_of_yields`). Nothing is lost by putting like terms together, since the
values of the terms under one stem add up as their coefficients do, nor by putting like factors
together, since the values of the factors over one base are multiplied as their exponents are
added.

Reading expressions with integer exponents in rational numbers is such a reading (`value_simplify`),
and so is reading expressions of positive numbers, with any exponents, in a semifield without zero
(`value_simplify_positive`). It makes no difference to the values which roots are found.
-/

namespace ExactAlgebra

namespace Canonical

open ExactAlgebra.Expr

variable {K : Type} [CommSemiring K] {r : Reading K} {guess : RootGuess}

/-! ### Splicing -/

theorem admissible_spliced {kind : Kind} (hkind : kind ≠ .power) {us : List Expr}
    (h : ∀ u ∈ us, u.Admissible r) : ∀ u ∈ spliced kind us, u.Admissible r :=
  forall_mem_spliced h fun _ hu hk _ hd => hu.child (hk ▸ hkind) hd

theorem sum_value_spliced (us : List Expr) :
    ((spliced .sum us).map (value r)).sum = (us.map (value r)).sum := by
  induction us with
  | nil => rfl
  | cons u us ih =>
    have hu : ((if u.kind = .sum then u.children else [u]).map (value r)).sum = u.value r := by
      split_ifs with h
      · cases u with
        | sum ts => exact (value_sum r ts).symm
        | num | sym | pow | prod => cases h
      · simp
    rw [spliced, List.flatMap_cons, List.map_append, List.sum_append, hu, List.map_cons,
      List.sum_cons]
    exact congrArg (u.value r + ·) ih

theorem prod_value_spliced (us : List Expr) :
    ((spliced .product us).map (value r)).prod = (us.map (value r)).prod := by
  induction us with
  | nil => rfl
  | cons u us ih =>
    have hu : ((if u.kind = .product then u.children else [u]).map (value r)).prod = u.value r := by
      split_ifs with h
      · cases u with
        | prod fs => exact (value_prod r fs).symm
        | num | sym | pow | sum => cases h
      · simp
    rw [spliced, List.flatMap_cons, List.map_append, List.prod_append, hu, List.map_cons,
      List.prod_cons]
    exact congrArg (u.value r * ·) ih

/-! ### Terms with coefficients -/

theorem admissible_withCoefficient_iff {c : Rat} {k : Expr} (h : c ≠ 1) :
    (withCoefficient c k).Admissible r ↔ r.IsNum c ∧ k.Admissible r := by
  rw [withCoefficient, if_neg h, admissible_ofFactors_iff, List.forall_mem_cons,
    admissible_factors_iff]
  exact Iff.rfl

theorem admissible_likeTermsOf {g : Expr × Rat} (hc : r.IsNum g.2) (hk : g.1.Admissible r) :
    ∀ t ∈ likeTermsOf g, t.Admissible r := by
  intro t ht
  obtain ⟨k, c⟩ := g
  cases hu : isUnwrapped (k, c) with
  | true =>
    rw [likeTermsOf_of_unwrapped hu] at ht
    exact hk.child (by rw [(isUnwrapped_iff.mp hu).1]; decide) ht
  | false =>
    obtain ⟨-, rfl⟩ := mem_likeTermsOf hu ht
    by_cases h1 : c = 1
    · rw [withCoefficient, if_pos h1]
      exact hk
    · exact (admissible_withCoefficient_iff h1).mpr ⟨hc, hk⟩

/-! ### Children -/

/-- Terms that keep their values keep that of their sum when they are spliced. -/
theorem value_spliced_sum {ts : List Expr} {v : Expr → Expr} (he : (Expr.sum ts).Admissible r)
    (hv : ∀ t ∈ ts, t.Admissible r → (v t).Admissible r ∧ (v t).value r = t.value r) :
    (∀ u ∈ spliced .sum (ts.map v), u.Admissible r) ∧
      ((spliced .sum (ts.map v)).map (value r)).sum = (Expr.sum ts).value r := by
  have hts : ∀ t ∈ ts, t.Admissible r := (everywhere_sum.mp he).2
  refine ⟨admissible_spliced (by decide) ?_, ?_⟩
  · exact List.forall_mem_map.mpr fun t ht => (hv t ht (hts t ht)).1
  · rw [sum_value_spliced, value_sum, List.map_map]
    exact congrArg List.sum (List.map_congr_left fun t ht => (hv t ht (hts t ht)).2)

/-- Factors that keep their values keep that of their product when they are spliced. -/
theorem value_spliced_product {fs : List Expr} {v : Expr → Expr} (he : (Expr.prod fs).Admissible r)
    (hv : ∀ f ∈ fs, f.Admissible r → (v f).Admissible r ∧ (v f).value r = f.value r) :
    (∀ u ∈ spliced .product (fs.map v), u.Admissible r) ∧
      ((spliced .product (fs.map v)).map (value r)).prod = (Expr.prod fs).value r := by
  have hfs : ∀ f ∈ fs, f.Admissible r := admissible_prod_iff.mp he
  refine ⟨admissible_spliced (by decide) ?_, ?_⟩
  · exact List.forall_mem_map.mpr fun f hf => (hv f hf (hfs f hf)).1
  · rw [prod_value_spliced, value_prod, List.map_map]
    exact congrArg List.prod (List.map_congr_left fun f hf => (hv f hf (hfs f hf)).2)

section

variable (hr : r.Lawful)

include hr

/-! ### Powers -/

/-- Making a power of a number upright keeps its value. -/
theorem value_upright {q p : Rat} (hq : r.IsNum q) (hq0 : q ≠ 0) (h : r.IsPow (r.num q) p) :
    r.IsNum (upright q p).1 ∧ r.IsPow (r.num (upright q p).1) (upright q p).2 ∧
      r.pow (r.num (upright q p).1) (upright q p).2 = r.pow (r.num q) p := by
  unfold upright
  split_ifs with hneg
  · exact hr.inv_pow hq hq0 hneg h
  · exact ⟨hq, h, rfl⟩

theorem value_of_raises {c n : Expr} {p : Rat} (hc : c.Admissible r) (hp : r.IsPow (c.value r) p)
    (h : Raises guess c p n) : n.Admissible r ∧ n.value r = r.pow (c.value r) p := by
  cases h with
  | one => exact ⟨hc, (hr.pow_one (hc.isValue hr)).2.symm⟩
  | zero hp0 _ => exact ⟨hc, (hr.zero_pow hc hp hp0).symm⟩
  | unit _ => exact ⟨hr.isNum_one, hr.num_one.trans (hr.pow_zero hp).symm⟩
  | root hq hp0 _ hroot hpos =>
    obtain ⟨hnum, hpow, hvalue⟩ := value_upright hr hc hq hp
    obtain ⟨hn, hv⟩ := hr.root_pow hnum (upright_spec hq hp0).2 hpow hroot
      fun h => hpos (upright_pos_iff.mp h)
    exact ⟨hn, hv.trans hvalue⟩
  | left hq _ _ _ =>
    obtain ⟨hnum, hpow, hvalue⟩ := value_upright hr hc hq hp
    exact ⟨⟨hpow, hnum⟩, hvalue⟩
  | keep => exact ⟨⟨hp, hc⟩, rfl⟩

theorem value_of_power {b n : Expr} {p : Rat} (hb : b.Admissible r) (hp : r.IsPow (b.value r) p)
    (h : power guess b p = .ok n) : n.Admissible r ∧ n.value r = r.pow (b.value r) p := by
  have hraises := raises_of_power guess h
  cases b with
  | pow c i =>
    obtain ⟨hmul, hvalue⟩ := hr.pow_pow hb.1 hp
    rw [drawnTogether_pow] at hraises
    obtain ⟨hn, hv⟩ := value_of_raises hr hb.2 hmul hraises
    exact ⟨hn, hv.trans hvalue⟩
  | num | sym | prod | sum => exact value_of_raises hr hb hp hraises

/-! ### Bases -/

/-- The expression is worth what its base is worth, raised to its exponent. -/
structure PowerOfBase (r : Reading K) (u : Expr) : Prop where
  admissible : u.base.Admissible r
  isPow : r.IsPow (u.base.value r) u.exponent
  value : r.pow (u.base.value r) u.exponent = u.value r

theorem powerOfBase {u : Expr} (h : u.Admissible r) (hrat : u.kind ≠ .rational) :
    PowerOfBase r u := by
  cases u with
  | num => exact absurd rfl hrat
  | pow b p => exact ⟨h.2, h.1, rfl⟩
  | sym | prod | sum =>
    obtain ⟨hpow, hvalue⟩ := hr.pow_one (h.isValue hr)
    exact ⟨h, hpow, hvalue⟩

end

section

variable (hr : r.Additive)

include hr

/-! ### Terms -/

theorem value_withCoefficient (c : Rat) (k : Expr) :
    (withCoefficient c k).value r = r.num c * k.value r := by
  rw [withCoefficient]
  split_ifs with h
  · rw [h, hr.num_one, one_mul]
  · rw [value_ofFactors, List.map_cons, List.prod_cons, prod_value_factors, value_num]

/-- The value of a term is that of its stem, times its coefficient. -/
theorem admissible_stem {u : Expr} (hu : Reduced guess u) (hrat : u.kind ≠ .rational)
    (h : u.Admissible r) : (r.IsNum u.coefficient ∧ u.stem.Admissible r) ∧
      r.num u.coefficient * u.stem.value r = u.value r := by
  obtain ⟨-, -, hterm⟩ := hu.stem_spec hrat
  rw [← value_withCoefficient hr, hterm]
  refine ⟨?_, rfl⟩
  by_cases hc : u.coefficient = 1
  · rw [hc, withCoefficient, if_pos rfl] at hterm
    rw [hc, hterm]
    exact ⟨hr.isNum_one, h⟩
  · rw [← hterm] at h
    exact (admissible_withCoefficient_iff hc).mp h

/-- The value of a group of like terms. -/
theorem sum_value_likeTermsOf (g : Expr × Rat) :
    ((likeTermsOf g).map (value r)).sum = r.num g.2 * g.1.value r := by
  obtain ⟨k, c⟩ := g
  cases hu : isUnwrapped (k, c) with
  | true =>
    obtain ⟨hsum, rfl⟩ := isUnwrapped_iff.mp hu
    rw [likeTermsOf_of_unwrapped hu, hr.num_one, one_mul]
    cases k with
    | sum ts => exact (value_sum r ts).symm
    | num | sym | pow | prod => cases hsum
  | false =>
    rw [likeTermsOf_of_plain hu]
    split_ifs with h0
    · rw [show c = 0 from h0, hr.num_zero, zero_mul]
      rfl
    · rw [List.map_singleton, List.sum_singleton, value_withCoefficient hr]

/-- The numbers among some terms are worth their sum. -/
theorem num_constantTerm {us : List Expr} (h : ∀ u ∈ us, u.Admissible r) :
    (constantTerm us ≠ 0 → r.IsNum (constantTerm us)) ∧
      ((nonNumbers us).map (value r)).sum + r.num (constantTerm us) = (us.map (value r)).sum := by
  induction us with
  | nil => exact ⟨fun hne => absurd rfl hne, by simp [nonNumbers, constantTerm, hr.num_zero]⟩
  | cons u us ih =>
    obtain ⟨hu, hus⟩ := List.forall_mem_cons.mp h
    obtain ⟨hnum, hsum⟩ := ih hus
    by_cases hrat : u.kind = .rational
    · obtain ⟨q, rfl⟩ := kind_eq_rational_iff.mp hrat
      rw [nonNumbers_num_cons, constantTerm_num_cons, List.map_cons, List.sum_cons, ← hsum]
      by_cases h0 : constantTerm us = 0
      · rw [h0, add_zero, hr.num_zero, add_zero, value_num, add_comm]
        exact ⟨fun _ => hu, rfl⟩
      · obtain ⟨hadd, hvalue⟩ := hr.num_add hu (hnum h0)
        rw [hvalue, value_num, add_left_comm]
        exact ⟨fun _ => hadd, rfl⟩
    · rw [nonNumbers_cons_of_ne us hrat, constantTerm_cons_of_ne us hrat, List.map_cons,
        List.sum_cons, List.map_cons, List.sum_cons, add_assoc, hsum]
      exact ⟨hnum, rfl⟩

/-- What some entries are worth, as terms with coefficients. -/
def worth (r : Reading K) (es : List (Expr × Rat)) : K :=
  Groups.total (· + ·) 0 (fun g => r.num g.2 * g.1.value r) es

theorem sum_value_flatMap (gs : Groups) :
    ((gs.flatMap likeTermsOf).map (value r)).sum = worth r gs := by
  induction gs with
  | nil => rfl
  | cons g gs ih =>
    rw [List.flatMap_cons, List.map_append, List.sum_append, sum_value_likeTermsOf hr, ih]
    rfl

/-- A number that is left out where it is zero makes no difference beside other terms. -/
theorem sum_value_append_besides (ts : List Expr) (c : Rat) :
    ((ts ++ besides c 0).map (value r)).sum = (ts.map (value r)).sum + r.num c := by
  rw [List.map_append, List.sum_append, besides]
  split_ifs with h
  · rw [h, hr.num_zero]
    rfl
  · rw [List.map_singleton, List.sum_singleton, value_num]

/-- Terms have the value of their total. -/
theorem value_of_total {ts : List Expr} {n : Expr} (h : Expr.total ts = .ok n) :
    n.value r = (ts.map (value r)).sum := by
  rcases total_eq_ok h with ⟨rfl, rfl⟩ | rfl | ⟨-, rfl⟩
  · exact hr.num_zero
  · exact (List.sum_singleton).symm
  · exact value_ofTerms r ts

/-- Collecting terms keeps their value. -/
theorem value_collectedTerms {us : List Expr} (hus : ∀ u ∈ us, Reduced guess u)
    (h : ∀ u ∈ us, u.Admissible r) :
    (∀ t ∈ collectedTerms us, t.Admissible r) ∧
      ((collectedTerms us).map (value r)).sum = (us.map (value r)).sum := by
  obtain ⟨hconstant, hnumbers⟩ := num_constantTerm hr h
  have hadd : ∀ (k : Expr) (x y : Rat), r.IsNum x ∧ k.Admissible r → r.IsNum y ∧ k.Admissible r →
      r.IsNum (x + y) ∧ k.Admissible r := fun k x y hx hy => ⟨(hr.num_add hx.1 hy.1).1, hx.2⟩
  have hentries : ∀ g ∈ termEntries us, r.IsNum g.2 ∧ g.1.Admissible r :=
    forall_mem_termEntries fun u hu hrat => (admissible_stem hr (hus u hu) hrat (h u hu)).1
  have hgroups := Groups.forall_mem_collect hadd hentries
  constructor
  · refine forall_mem_append_besides (fun t ht => ?_) hconstant
    obtain ⟨g, hg, ht⟩ := List.mem_flatMap.mp ht
    exact admissible_likeTermsOf (hgroups g hg).1 (hgroups g hg).2 t ht
  · have hcollect : worth r (Groups.collect (termEntries us)) = worth r (termEntries us) := by
      refine Groups.total_collect_eq hadd (fun k x y hx hy => ?_) 0 hentries
      rw [(hr.num_add hx.1 hy.1).2, add_mul]
    have hworth : worth r (termEntries us) = ((nonNumbers us).map (value r)).sum := by
      rw [worth, Groups.total, termEntries, List.map_map]
      refine congrArg List.sum (List.map_congr_left fun u hu => ?_)
      obtain ⟨hu, hrat⟩ := mem_nonNumbers.mp hu
      exact (admissible_stem hr (hus u hu) hrat (h u hu)).2
    rw [collectedTerms, sum_value_append_besides hr, sum_value_flatMap hr, hcollect, hworth,
      hnumbers]

/-! ### Factors -/

/-- The numbers among some factors are worth their product. -/
theorem num_constantFactor {us : List Expr} (h : ∀ u ∈ us, u.Admissible r) :
    r.IsNum (constantFactor us) ∧
      r.num (constantFactor us) * ((nonNumbers us).map (value r)).prod =
        (us.map (value r)).prod := by
  induction us with
  | nil => exact ⟨hr.isNum_one, by simp [nonNumbers, constantFactor, hr.num_one]⟩
  | cons u us ih =>
    obtain ⟨hu, hus⟩ := List.forall_mem_cons.mp h
    obtain ⟨hnum, hprod⟩ := ih hus
    by_cases hrat : u.kind = .rational
    · obtain ⟨q, rfl⟩ := kind_eq_rational_iff.mp hrat
      obtain ⟨hmul, hvalue⟩ := hr.num_mul hu hnum
      rw [nonNumbers_num_cons, constantFactor_num_cons, List.map_cons, List.prod_cons, ← hprod,
        hvalue, value_num, mul_assoc]
      exact ⟨hmul, rfl⟩
    · rw [nonNumbers_cons_of_ne us hrat, constantFactor_cons_of_ne us hrat, List.map_cons,
        List.prod_cons, List.map_cons, List.prod_cons, mul_left_comm, hprod]
      exact ⟨hnum, rfl⟩

/-- What some entries are worth, as powers. -/
def worthPowers (r : Reading K) (es : List (Expr × Rat)) : K :=
  Groups.total (· * ·) 1 (fun g => r.pow (g.1.value r) g.2) es

/-- The groups of some factors are worth what the factors are worth. -/
theorem worthPowers_groups {us : List Expr}
    (h : ∀ u ∈ us, u.kind ≠ .rational → PowerOfBase r u) :
    (∀ g ∈ factorGroups us [], g.1.Admissible r ∧ r.IsPow (g.1.value r) g.2) ∧
      worthPowers r (factorGroups us []) = ((nonNumbers us).map (value r)).prod := by
  have hadd : ∀ (b : Expr) (x y : Rat), b.Admissible r ∧ r.IsPow (b.value r) x →
      b.Admissible r ∧ r.IsPow (b.value r) y → b.Admissible r ∧ r.IsPow (b.value r) (x + y) :=
    fun b x y hx hy => ⟨hx.1, (hr.pow_add hx.2 hy.2).1⟩
  have hentries : ∀ g ∈ factorEntries us, g.1.Admissible r ∧ r.IsPow (g.1.value r) g.2 :=
    forall_mem_factorEntries fun u hu hrat => ⟨(h u hu hrat).admissible, (h u hu hrat).isPow⟩
  rw [factorGroups_eq]
  refine ⟨Groups.forall_mem_collect hadd hentries, ?_⟩
  have hcollect : worthPowers r (Groups.collect (factorEntries us)) =
      worthPowers r (factorEntries us) := by
    refine Groups.total_collect_eq hadd (fun b x y hx hy => ?_) 1 hentries
    exact (hr.pow_add hx.2 hy.2).2
  rw [hcollect, worthPowers, Groups.total, factorEntries, List.map_map]
  refine congrArg List.prod (List.map_congr_left fun u hu => ?_)
  obtain ⟨hu, hrat⟩ := mem_nonNumbers.mp hu
  exact (h u hu hrat).value

/-- Groups that leave nothing are worth one. -/
theorem worthPowers_live {gs : Groups} (h : ∀ g ∈ gs, r.IsPow (g.1.value r) g.2) :
    worthPowers r (live gs) = worthPowers r gs := by
  induction gs with
  | nil => rfl
  | cons g gs ih =>
    obtain ⟨hg, hgs⟩ := List.forall_mem_cons.mp h
    have hcons : worthPowers r (g :: gs) = r.pow (g.1.value r) g.2 * worthPowers r gs := rfl
    by_cases h0 : g.2 = 0
    · rw [h0] at hg
      rw [live_cons_of_eq gs h0, ih hgs, hcons, h0, hr.pow_zero hg, one_mul]
    · rw [live_cons_of_ne gs h0, hcons, ← ih hgs]
      rfl

/-- A power of a group is worth its number and its remaining factors. -/
theorem value_remaining {p : Expr} (h : p.Admissible r) :
    r.IsNum (constantOf p) ∧ (∀ f ∈ remaining p, f.Admissible r) ∧
      r.num (constantOf p) * ((remaining p).map (value r)).prod = p.value r := by
  by_cases hrat : p.kind = .rational
  · obtain ⟨q, rfl⟩ := kind_eq_rational_iff.mp hrat
    exact ⟨h, nofun, mul_one _⟩
  · rw [constantOf_of_ne hrat, remaining, if_neg hrat, hr.num_one, one_mul, prod_value_factors]
    exact ⟨hr.isNum_one, admissible_factors_iff.mpr h, rfl⟩

/-- The powers of groups are worth what they leave. -/
theorem value_powersOf {w : Expr × Rat → Expr} {gs : Groups}
    (hw : ∀ g ∈ live gs, (w g).Admissible r) :
    r.IsNum (powersOf w gs).constant ∧ (∀ f ∈ (powersOf w gs).factors, f.Admissible r) ∧
      r.num (powersOf w gs).constant * ((powersOf w gs).factors.map (value r)).prod =
        ((live gs).map fun g => (w g).value r).prod := by
  rw [constant_powersOf, factors_powersOf]
  generalize live gs = ls at hw
  induction ls with
  | nil => exact ⟨hr.isNum_one, nofun, by simp [hr.num_one]⟩
  | cons g ls ih =>
    obtain ⟨hg, hgs⟩ := List.forall_mem_cons.mp hw
    obtain ⟨hnum, hadm, hvalue⟩ := ih hgs
    obtain ⟨hnum', hadm', hvalue'⟩ := value_remaining hr hg
    obtain ⟨hmul, hmulvalue⟩ := hr.num_mul hnum' hnum
    refine ⟨hmul, ?_, ?_⟩
    · rw [List.flatMap_cons]
      exact List.forall_mem_append.mpr ⟨hadm', hadm⟩
    · rw [List.flatMap_cons, List.map_append, List.prod_append, List.map_cons, List.foldr_cons,
        hmulvalue, List.map_cons, List.prod_cons, ← hvalue, ← hvalue']
      ac_rfl

/-- Gathering factors keeps their value. -/
theorem value_gathered {w : Expr × Rat → Expr} {us : List Expr} (h : ∀ u ∈ us, u.Admissible r)
    (hbase : ∀ u ∈ us, u.kind ≠ .rational → PowerOfBase r u)
    (hw : ∀ g ∈ live (factorGroups us []), (Expr.pow g.1 g.2).Admissible r →
      (w g).Admissible r ∧ (w g).value r = (Expr.pow g.1 g.2).value r) :
    r.IsNum (gathered w us).constant ∧ (∀ f ∈ (gathered w us).factors, f.Admissible r) ∧
      r.num (gathered w us).constant * ((gathered w us).factors.map (value r)).prod =
        (us.map (value r)).prod := by
  obtain ⟨hgroups, hworth⟩ := worthPowers_groups hr hbase
  obtain ⟨hnum, hconstant⟩ := num_constantFactor hr h
  have hw : ∀ g ∈ live (factorGroups us []),
      (w g).Admissible r ∧ (w g).value r = r.pow (g.1.value r) g.2 := fun g hg => by
    obtain ⟨hb, hp⟩ := hgroups g (List.mem_filter.mp hg).1
    exact hw g hg ⟨hp, hb⟩
  obtain ⟨hnum', hadm, hvalue⟩ := value_powersOf hr fun g hg => (hw g hg).1
  obtain ⟨hmul, hmulvalue⟩ := hr.num_mul hnum hnum'
  refine ⟨hmul, hadm, ?_⟩
  have hlive : ((live (factorGroups us [])).map fun g => (w g).value r).prod =
      worthPowers r (live (factorGroups us [])) :=
    congrArg List.prod (List.map_congr_left fun g hg => (hw g hg).2)
  rw [hlive, worthPowers_live hr fun g hg => (hgroups g hg).2, hworth] at hvalue
  show r.num (constantFactor us * _) * _ = _
  rw [hmulvalue, mul_assoc]
  exact (congrArg (r.num (constantFactor us) * ·) hvalue).trans hconstant

/-- A number that is left out where it is one makes no difference beside other factors. -/
theorem prod_value_append_besides (fs : List Expr) (c : Rat) :
    ((fs ++ besides c 1).map (value r)).prod = r.num c * (fs.map (value r)).prod := by
  rw [List.map_append, List.prod_append, besides]
  split_ifs with h
  · rw [h, hr.num_one, one_mul]
    exact mul_one _
  · rw [List.map_singleton, List.prod_singleton, value_num, mul_comm]

/-- Factors with a number beside them have the value of what they multiply to. -/
theorem value_of_productOr {fs : List Expr} {c : Rat} {n : Expr}
    (h : Expr.productOr (.num c) (fs ++ besides c 1) = .ok n) :
    n.value r = r.num c * (fs.map (value r)).prod := by
  rw [← prod_value_append_besides hr]
  rcases productOr_eq_ok h with ⟨hnil, rfl⟩ | hone | ⟨-, rfl⟩
  · -- the number is left out, so it is one
    rw [besides] at hnil
    split_ifs at hnil with hc
    · rw [besides, if_pos hc, hnil, hc]
      exact hr.num_one
    · simp at hnil
  · rw [hone]
    exact (List.prod_singleton).symm
  · exact value_ofFactors r _

end

theorem value_ofFactors_concat (fs : List Expr) (c : Rat) :
    (ofFactors (fs ++ [.num c])).value r = r.num c * (fs.map (value r)).prod := by
  rw [value_ofFactors, List.map_append, List.prod_append, List.map_singleton,
    List.prod_singleton, value_num, mul_comm]

section

variable (hr : r.Lawful)

include hr

/-! ### Every result -/

/-- What the terms of a sum are collected to is worth the sum. -/
theorem value_collectedTerms_of_yields {ts : List Expr} {v : Expr → Expr}
    (he : (Expr.sum ts).Admissible r) (hv : ∀ t ∈ ts, Yields guess t (v t))
    (ih : ∀ t ∈ ts, t.Admissible r → (v t).Admissible r ∧ (v t).value r = t.value r) :
    (∀ t ∈ collectedTerms (spliced .sum (ts.map v)), t.Admissible r) ∧
      ((collectedTerms (spliced .sum (ts.map v))).map (value r)).sum = (Expr.sum ts).value r := by
  obtain ⟨hus, hsum⟩ := value_spliced_sum he ih
  obtain ⟨hadm, hvalue⟩ := value_collectedTerms hr.toAdditive (reduced_spliced_of_yields hv) hus
  exact ⟨hadm, hvalue.trans hsum⟩

/-- What the factors of a product come down to is worth the product. -/
theorem value_gathered_of_yields {fs : List Expr} {v : Expr → Expr} {w : Expr × Rat → Expr}
    (he : (Expr.prod fs).Admissible r)
    (ih : ∀ f ∈ fs, f.Admissible r → (v f).Admissible r ∧ (v f).value r = f.value r)
    (ihw : ∀ g ∈ live (factorGroups (spliced .product (fs.map v)) []),
      (Expr.pow g.1 g.2).Admissible r →
        (w g).Admissible r ∧ (w g).value r = (Expr.pow g.1 g.2).value r)
    {ps : Powers} (hps : ps = gathered w (spliced .product (fs.map v))) :
    r.IsNum ps.constant ∧ (∀ f ∈ ps.factors, f.Admissible r) ∧
      r.num ps.constant * (ps.factors.map (value r)).prod = (Expr.prod fs).value r := by
  obtain ⟨hus, hprod⟩ := value_spliced_product he ih
  have hbase : ∀ u ∈ spliced .product (fs.map v), u.kind ≠ .rational → PowerOfBase r u :=
    fun u hu hrat => powerOfBase hr (hus u hu) hrat
  obtain ⟨hnum, hadm, hvalue⟩ := value_gathered hr.toAdditive hus hbase ihw
  rw [hps]
  exact ⟨hnum, hadm, hvalue.trans hprod⟩

/-- A result of the pass is admissible if the expression is, and has its value. -/
theorem value_of_yields {e n : Expr} (h : Yields guess e n) (he : e.Admissible r) :
    n.Admissible r ∧ n.value r = e.value r := by
  induction h with
  | num | sym => exact ⟨he, rfl⟩
  | @pow b b' n p _ hn ih =>
    obtain ⟨hb, hvalue⟩ := ih he.2
    have hp : r.IsPow (b'.value r) p := hvalue ▸ he.1
    obtain ⟨hadm, hv⟩ := value_of_power hr hb hp hn
    exact ⟨hadm, by rw [hv, hvalue, value_pow]⟩
  | @sum ts terms n v hv hterms hn ih =>
    obtain ⟨rfl, -⟩ := eq_of_collected (reduced_spliced_of_yields hv) hterms
    obtain ⟨hadm, hvalue⟩ := value_collectedTerms_of_yields hr he hv ih
    have hsum : n.value r = (Expr.sum ts).value r := (value_of_total hr.toAdditive hn).trans hvalue
    have hisValue : r.IsValue ((Expr.sum ts).value r) := he.isValue hr
    refine ⟨of_total hn (fun hnil => ?_) hadm fun _ => ?_, hsum⟩
    · rw [← hvalue, hnil] at hisValue
      exact hr.isNum_zero hisValue
    · rw [← hvalue, ← value_ofTerms] at hisValue
      exact admissible_ofTerms_iff.mpr ⟨hisValue, hadm⟩
  | @sumAgain ts terms d n v hv hterms hd _ ih ihd =>
    obtain ⟨-, rfl⟩ := eq_of_sumAgain hv hterms hd
    obtain ⟨hadm, hvalue⟩ := value_collectedTerms_of_yields hr he hv ih
    rw [← value_ofTerms] at hvalue
    obtain ⟨hn, hv⟩ := ihd (admissible_ofTerms_iff.mpr ⟨hvalue ▸ he.isValue hr, hadm⟩)
    exact ⟨hn, hv.trans hvalue⟩
  | @prodZero fs v w _ _ hzero ih ihw =>
    obtain ⟨hnum, -, hvalue⟩ := value_gathered_of_yields hr he ih ihw rfl
    rw [hzero] at hnum hvalue
    rw [← hvalue, hr.num_zero, zero_mul]
    exact ⟨hnum, hr.num_zero⟩
  | @prod fs ps n v w _ _ hps _ _ hn ih ihw =>
    obtain ⟨hnum, hadm, hvalue⟩ := value_gathered_of_yields hr he ih ihw hps
    have hadm : ∀ f ∈ ps.factors ++ besides ps.constant 1, f.Admissible r :=
      forall_mem_append_besides hadm fun _ => hnum
    refine ⟨of_productOr hn (fun _ => hnum) hadm fun _ => ?_, ?_⟩
    · exact admissible_ofFactors_iff.mpr hadm
    · exact (value_of_productOr hr.toAdditive hn).trans hvalue
  | @prodAgain fs ps d n v w _ _ hps _ _ hd _ ih ihw ihd =>
    obtain ⟨hnum, hadm, hvalue⟩ := value_gathered_of_yields hr he ih ihw hps
    obtain ⟨-, rfl⟩ := prodOf_eq_ok_iff.mp hd
    have hadm : ∀ f ∈ ps.factors ++ [.num ps.constant], f.Admissible r :=
      List.forall_mem_append.mpr ⟨hadm, List.forall_mem_singleton.mpr hnum⟩
    obtain ⟨hn, hv⟩ := ihd (admissible_ofFactors_iff.mpr hadm)
    exact ⟨hn, hv.trans ((value_ofFactors_concat ps.factors ps.constant).trans hvalue)⟩

end

end Canonical

namespace Expr

variable {guess : RootGuess}

/-- The canonical form of an expression with integer exponents has integer exponents and, wherever
the expression is defined, is defined and has its value. -/
theorem value_simplify {e n : Expr} (σ : Letter → ℚ) (hint : e.IntegerExponents)
    (hdef : e.DefinedAt σ) (h : e.simplify guess = .ok n) :
    n.IntegerExponents ∧ n.DefinedAt σ ∧
      n.value (Reading.rational σ) = e.value (Reading.rational σ) := by
  have he : e.Admissible (Reading.rational σ) := admissible_rational_iff.mpr ⟨hint, hdef⟩
  obtain ⟨hn, hvalue⟩ :=
    Canonical.value_of_yields (Reading.lawful_rational σ) (Canonical.yields_of_within h) he
  obtain ⟨hint', hdef'⟩ := admissible_rational_iff.mp hn
  exact ⟨hint', hdef', hvalue⟩

/-- The inverse of a letter, and the letter divided by its square. -/
def twoInverses : Expr :=
  sum [pow (sym ⟨'x', by decide⟩) (-1),
    prod [sym ⟨'x', by decide⟩, pow (sym ⟨'x', by decide⟩) (-2)]]

theorem value_simplify_twoInverses :
    twoInverses.IntegerExponents ∧ twoInverses.DefinedAt (fun _ => 3) ∧
      twoInverses.simplify Estimate.root =
        .ok (prod [num 2, pow (sym ⟨'x', by decide⟩) (-1)]) ∧
      (prod [num 2, pow (sym ⟨'x', by decide⟩) (-1)]).IntegerExponents ∧
      (prod [num 2, pow (sym ⟨'x', by decide⟩) (-1)]).DefinedAt (fun _ => 3) ∧
      (prod [num 2, pow (sym ⟨'x', by decide⟩) (-1)]).value (Reading.rational fun _ => 3) =
        twoInverses.value (Reading.rational fun _ => 3) := by
  have hint : twoInverses.IntegerExponents := by
    simp [twoInverses, IntegerExponents]
  have hdef : twoInverses.DefinedAt fun _ => 3 := by
    simp [twoInverses, DefinedAt, Reading.rational]
  refine (fun h => ⟨hint, hdef, h, value_simplify (fun _ => 3) hint hdef h⟩) ?_
  decide +kernel

/-- The canonical form of an expression of positive numbers, with any exponents, is one of positive
numbers, and it has the same value in every semifield without zero that has rational powers. -/
theorem value_simplify_positive {e n : Expr} (hwf : e.WellFormed) (hpos : e.PositiveNumbers)
    (h : e.simplify guess = .ok n) :
    n.PositiveNumbers ∧ ∀ (S : Type) [RootSemifield S] (σ : Letter → S),
      ∃ s : S, e.value (Reading.positive σ) = s ∧ n.value (Reading.positive σ) = s := by
  have hkeeps : ∀ (S : Type) [RootSemifield S] (σ : Letter → S),
      n.Admissible (Reading.positive σ) ∧
        n.value (Reading.positive σ) = e.value (Reading.positive σ) := by
    intro S _ σ
    exact Canonical.value_of_yields (Reading.lawful_positive σ) (Canonical.yields_of_within h)
      (admissible_positive σ hwf hpos)
  -- the numbers of the canonical form do not depend on the semifield, so one of them will do
  refine ⟨positiveNumbers_of_admissible (hkeeps {x : ℝ // 0 < x} 1).1, ?_⟩
  intro S _ σ
  obtain ⟨s, hs⟩ := exists_value_positive (admissible_positive σ hwf hpos)
  exact ⟨s, hs, (hkeeps S σ).2.trans hs⟩

/-- A root that is found once the number is inverted, one that there is not, and two roots of a
product. -/
def scaledRoots : Expr :=
  prod [pow (num (1 / 4)) (-1 / 2), pow (num 2) (1 / 2),
    pow (prod [sym ⟨'r', by decide⟩, sym ⟨'s', by decide⟩]) (1 / 2),
    pow (prod [sym ⟨'r', by decide⟩, sym ⟨'s', by decide⟩]) (1 / 2)]

/-- The canonical form of `scaledRoots`. -/
def scaledRootsReduced : Expr :=
  prod [num 2, pow (num 2) (1 / 2), sym ⟨'r', by decide⟩, sym ⟨'s', by decide⟩]

theorem value_simplify_positive_scaledRoots :
    scaledRoots.WellFormed ∧ scaledRoots.PositiveNumbers ∧
      scaledRoots.simplify Estimate.root = .ok scaledRootsReduced ∧
      scaledRootsReduced.PositiveNumbers ∧
      ∃ s : {x : ℝ // 0 < x},
        scaledRoots.value (Reading.positive fun _ => (1 : {x : ℝ // 0 < x})) = s ∧
        scaledRootsReduced.value (Reading.positive fun _ => (1 : {x : ℝ // 0 < x})) = s := by
  have hwf : scaledRoots.WellFormed := by
    refine ⟨by decide, by decide +kernel, trivial, trivial, ?_, ?_, trivial⟩
    · exact ⟨Nat.le_refl 2, by decide, trivial, trivial, trivial⟩
    · exact ⟨Nat.le_refl 2, by decide, trivial, trivial, trivial⟩
  have hpos : scaledRoots.PositiveNumbers := by
    simp [scaledRoots, PositiveNumbers]
  have h : scaledRoots.simplify Estimate.root = .ok scaledRootsReduced := by decide +kernel
  obtain ⟨hpos', hvalue⟩ := value_simplify_positive hwf hpos h
  exact ⟨hwf, hpos, h, hpos', hvalue {x : ℝ // 0 < x} fun _ => 1⟩

end Expr

end ExactAlgebra
