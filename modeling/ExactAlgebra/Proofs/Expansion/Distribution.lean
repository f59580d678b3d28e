import ExactAlgebra.Canonical.Parts
import ExactAlgebra.Expansion
import ExactAlgebra.Proofs.Nodes
import Mathlib.Algebra.BigOperators.Group.List.Basic
import Mathlib.Algebra.Order.Field.Rat
import Mathlib.Data.List.Induction

/-!
# Multiplying out

What one step of multiplying out comes to is said in two equations. If one of the two expressions is
a sum, the result is the sum of the products of a term of the one with a term of the other
(`distribute_of_sum`); if none is, it is one product (`distribute_of_plain`). Everything about a
step is proved from these two.

Some factors multiplied out are all but the last of them multiplied out, distributed over the last
(`multiplyOut_concat`). So what a step keeps the whole run keeps, and what a step computes from the
two expressions the run computes from the list (`multiplyOut_run`).

The last section is about the exponents that an expansion leaves. They have the numerators one and
minus one, so expanding once more only multiplies out, and the power of an expanded base is the
expansion of that base repeated (`expand_pow_of_one_lt`).
-/

namespace ExactAlgebra.Expr

/-! ### Passes over lists -/

theorem multipliedOutAll_eq_map (es : List Expr) : multipliedOutAll es = es.map multipliedOut := by
  induction es with
  | nil => rfl
  | cons e es ih => rw [multipliedOutAll, ih, List.map_cons]

theorem expandAll_eq_map (es : List Expr) : expandAll es = es.map expand := by
  induction es with
  | nil => rfl
  | cons e es ih => rw [expandAll, ih, List.map_cons]

theorem multipliedOut_prod (fs : List Expr) :
    (prod fs).multipliedOut = multiplyOut (fs.map multipliedOut) := by
  rw [multipliedOut, multipliedOutAll_eq_map]

theorem multipliedOut_sum (ts : List Expr) :
    (sum ts).multipliedOut = ofTerms (ts.map multipliedOut) := by
  rw [multipliedOut, multipliedOutAll_eq_map]

theorem expand_pow (b : Expr) (p : Rat) : (pow b p).expand = expandPower b.expand p := rfl

theorem expand_prod (fs : List Expr) : (prod fs).expand = multiplyOut (fs.map expand) := by
  rw [expand, expandAll_eq_map]

theorem expand_sum (ts : List Expr) : (sum ts).expand = ofTerms (ts.map expand) := by
  rw [expand, expandAll_eq_map]

/-! ### One step -/

/-- The terms of an expression, which is its own only term where it is no sum. -/
def summands : Expr → List Expr
  | sum ts => ts
  | u => [u]

/-- The products of a term of the one expression with a term of the other. -/
def crossTerms (a b : Expr) : List Expr :=
  a.summands.flatMap fun x => b.summands.map fun y => times x y

theorem summands_of_ne {u : Expr} (h : u.kind ≠ .sum) : u.summands = [u] := by
  cases u with
  | sum => exact absurd rfl h
  | num | sym | pow | prod => rfl

theorem times_comm (a b : Expr) : times a b = times b a :=
  congrArg prod (sort_eq_of_perm (.swap b a []))

theorem crossTerms_of_ne {a : Expr} (b : Expr) (h : a.kind ≠ .sum) :
    crossTerms a b = b.summands.map fun y => times y a := by
  rw [crossTerms, summands_of_ne h, List.flatMap_singleton]
  exact List.map_congr_left fun y _ => times_comm a y

theorem distribute_of_sum {a b : Expr} (first : Bool) (h : a.kind = .sum ∨ b.kind = .sum) :
    distribute a b first = ofTerms (crossTerms a b) := by
  cases a with
  | sum as =>
    cases b with
    | sum bs => rfl
    | num | sym | pow | prod => exact congrArg ofTerms List.map_eq_flatMap
  | num | sym | pow | prod =>
    cases b with
    | sum bs =>
      rw [crossTerms_of_ne _ (by simp [kind])]
      rfl
    | num | sym | pow | prod => exact absurd h (by simp [kind])

theorem distribute_of_plain {a b : Expr} (first : Bool) (ha : a.kind ≠ .sum) (hb : b.kind ≠ .sum) :
    distribute a b first = ofFactors ((if first then [a] else a.factors) ++ [b]) := by
  cases a with
  | sum => exact absurd rfl ha
  | num | sym | pow | prod =>
    cases b with
    | sum => exact absurd rfl hb
    | num | sym | pow | prod => cases first <;> rfl

theorem mem_crossTerms {a b c : Expr} :
    c ∈ crossTerms a b ↔ ∃ x ∈ a.summands, ∃ y ∈ b.summands, times x y = c := by
  simp only [crossTerms, List.mem_flatMap, List.mem_map]

theorem length_crossTerms (a b : Expr) :
    (crossTerms a b).length = a.summands.length * b.summands.length := by
  simp [crossTerms, List.length_flatMap]

/-- Where a factor that joins a product stands: among the factors of the product, or beside it. -/
theorem forall_mem_joined {P : Expr → Prop} {a b : Expr} (first : Bool) (ha : P a)
    (hfactors : ∀ f ∈ a.factors, P f) (hb : P b) :
    ∀ f ∈ (if first then [a] else a.factors) ++ [b], P f := by
  intro f hf
  rcases List.mem_append.mp hf with hf | hf
  · cases first with
    | true => exact List.mem_singleton.mp hf ▸ ha
    | false => exact hfactors f hf
  · exact List.mem_singleton.mp hf ▸ hb

/-! ### The whole run -/

theorem multiplyOut_concat {fs : List Expr} (h : fs ≠ []) (g : Expr) :
    multiplyOut (fs ++ [g]) = distribute (multiplyOut fs) g (fs.length = 1) := by
  rcases fs with _ | ⟨f, _ | ⟨f', fs⟩⟩
  · exact absurd rfl h
  · rfl
  · exact List.foldl_append

/-- What every step keeps and computes, the whole run keeps and computes. -/
theorem multiplyOut_run {I : Expr → Prop} {α : Type} {f : Expr → α} {op : α → α → α} {unit : α}
    (hunit : ∀ x, op unit x = x) (hone : I (num 1) ∧ f (num 1) = unit)
    (step : ∀ {a b : Expr} (first : Bool), I a → I b →
      I (distribute a b first) ∧ f (distribute a b first) = op (f a) (f b))
    {us : List Expr} (h : ∀ u ∈ us, I u) :
    I (multiplyOut us) ∧ f (multiplyOut us) = (us.map f).foldl op unit := by
  induction us using List.reverseRecOn with
  | nil => exact hone
  | append_singleton us g ih =>
    obtain ⟨hus, hg⟩ := List.forall_mem_append.mp h
    have hg : I g := List.forall_mem_singleton.mp hg
    rw [List.map_append, List.foldl_append]
    rcases us.eq_nil_or_concat' with rfl | ⟨us', u, rfl⟩
    · exact ⟨hg, (hunit _).symm⟩
    · obtain ⟨hinv, hvalue⟩ := ih hus
      rw [multiplyOut_concat (by simp), ← hvalue]
      exact step _ hinv hg

/-- What every step keeps, the whole run keeps. -/
theorem multiplyOut_keeps {I : Expr → Prop} (hone : I (num 1))
    (step : ∀ {a b : Expr} (first : Bool), I a → I b → I (distribute a b first))
    {us : List Expr} (h : ∀ u ∈ us, I u) : I (multiplyOut us) := by
  have run := @multiplyOut_run I Unit (fun _ => ()) (fun _ _ => ()) () (fun _ => rfl) ⟨hone, rfl⟩
    (fun first ha hb => ⟨step first ha hb, rfl⟩) us h
  exact run.1

/-! ### What is built is well formed -/

theorem two_le_length_summands {u : Expr} (hu : u.WellFormed) (h : u.kind = .sum) :
    2 ≤ u.summands.length := by
  cases u with
  | sum ts => exact hu.1
  | num | sym | pow | prod => cases h

theorem length_summands_pos {u : Expr} (hu : u.WellFormed) : 0 < u.summands.length := by
  by_cases h : u.kind = .sum
  · have := two_le_length_summands hu h
    omega
  · rw [summands_of_ne h]
    exact Nat.one_pos

theorem wellFormed_summands {u : Expr} (hu : u.WellFormed) : ∀ t ∈ u.summands, t.WellFormed := by
  cases u with
  | sum ts => exact allWellFormed_iff.mp hu.2.2
  | num | sym | pow | prod => exact List.forall_mem_singleton.mpr hu

theorem wellFormed_factors {u : Expr} (hu : u.WellFormed) : ∀ f ∈ u.factors, f.WellFormed := by
  cases u with
  | prod fs => exact allWellFormed_iff.mp hu.2.2
  | num | sym | pow | sum => exact List.forall_mem_singleton.mpr hu

theorem length_factors_pos {u : Expr} (hu : u.WellFormed) : 0 < u.factors.length := by
  cases u with
  | prod fs => exact Nat.lt_of_lt_of_le Nat.two_pos hu.1
  | num | sym | pow | sum => exact Nat.one_pos

theorem wellFormed_distribute {a b : Expr} (first : Bool) (ha : a.WellFormed) (hb : b.WellFormed) :
    (distribute a b first).WellFormed := by
  by_cases h : a.kind = .sum ∨ b.kind = .sum
  · rw [distribute_of_sum first h]
    refine wellFormed_ofTerms (fun c hc => ?_) ?_
    · obtain ⟨x, hx, y, hy, rfl⟩ := mem_crossTerms.mp hc
      exact wellFormed_times (wellFormed_summands ha x hx) (wellFormed_summands hb y hy)
    · rw [length_crossTerms]
      rcases h with h | h
      · exact Nat.mul_le_mul (two_le_length_summands ha h) (length_summands_pos hb)
      · exact Nat.mul_le_mul (length_summands_pos ha) (two_le_length_summands hb h)
  · rw [not_or] at h
    rw [distribute_of_plain first h.1 h.2]
    refine wellFormed_ofFactors (forall_mem_joined first ha (wellFormed_factors ha) hb) ?_
    have := length_factors_pos ha
    rw [List.length_append, List.length_singleton]
    split_ifs
    · exact Nat.le_refl 2
    · omega

theorem wellFormed_multiplyOut {us : List Expr} (h : ∀ u ∈ us, u.WellFormed) :
    (multiplyOut us).WellFormed :=
  multiplyOut_keeps trivial (fun first => wellFormed_distribute first) h

theorem wellFormed_multipliedOut {e : Expr} (h : e.WellFormed) : e.multipliedOut.WellFormed := by
  induction e with
  | num | sym => exact h
  | pow b p ih => exact ih h
  | prod fs ih =>
    rw [multipliedOut_prod]
    have hfs := allWellFormed_iff.mp h.2.2
    exact wellFormed_multiplyOut (List.forall_mem_map.mpr fun f hf => ih f hf (hfs f hf))
  | sum ts ih =>
    rw [multipliedOut_sum]
    exact wellFormed_ofTerms_map h ih

theorem wellFormed_expandPower {b : Expr} (h : b.WellFormed) (p : Rat) :
    (expandPower b p).WellFormed := by
  have hrepeated : (multiplyOut (List.replicate p.num.natAbs b.multipliedOut)).WellFormed :=
    wellFormed_multiplyOut fun u hu => List.eq_of_mem_replicate hu ▸ wellFormed_multipliedOut h
  rw [expandPower]
  split_ifs
  · exact h
  · trivial
  · exact hrepeated
  · exact hrepeated
  · exact h

/-- An expansion makes no sum and no product of fewer than two children. -/
theorem wellFormed_expand {e : Expr} (h : e.WellFormed) : e.expand.WellFormed := by
  induction e with
  | num | sym => exact h
  | pow b p ih =>
    rw [expand_pow]
    exact wellFormed_expandPower (ih h) p
  | prod fs ih =>
    rw [expand_prod]
    have hfs := allWellFormed_iff.mp h.2.2
    exact wellFormed_multiplyOut (List.forall_mem_map.mpr fun f hf => ih f hf (hfs f hf))
  | sum ts ih =>
    rw [expand_sum]
    exact wellFormed_ofTerms_map h ih

/-! ### Exponents -/

variable {P : Rat → Prop}

theorem exponents_summands {u : Expr} (h : u.Exponents P) : ∀ t ∈ u.summands, t.Exponents P := by
  cases u with
  | sum ts => exact exponents_sum.mp h
  | num | sym | pow | prod => exact List.forall_mem_singleton.mpr h

theorem exponents_factors {u : Expr} (h : u.Exponents P) : ∀ f ∈ u.factors, f.Exponents P := by
  cases u with
  | prod fs => exact exponents_prod.mp h
  | num | sym | pow | sum => exact List.forall_mem_singleton.mpr h

theorem exponents_distribute {a b : Expr} (first : Bool) (ha : a.Exponents P)
    (hb : b.Exponents P) : (distribute a b first).Exponents P := by
  by_cases h : a.kind = .sum ∨ b.kind = .sum
  · rw [distribute_of_sum first h]
    refine exponents_ofTerms.mpr fun c hc => ?_
    obtain ⟨x, hx, y, hy, rfl⟩ := mem_crossTerms.mp hc
    exact exponents_ofFactors.mpr (List.forall_mem_cons.mpr ⟨exponents_summands ha x hx,
      List.forall_mem_singleton.mpr (exponents_summands hb y hy)⟩)
  · rw [not_or] at h
    rw [distribute_of_plain first h.1 h.2]
    exact exponents_ofFactors.mpr (forall_mem_joined first ha (exponents_factors ha) hb)

theorem exponents_multiplyOut {us : List Expr} (h : ∀ u ∈ us, u.Exponents P) :
    (multiplyOut us).Exponents P :=
  multiplyOut_keeps (exponents_num 1) (fun first => exponents_distribute first) h

theorem exponents_multipliedOut {e : Expr} (h : e.Exponents P) : e.multipliedOut.Exponents P := by
  induction e with
  | num | sym => exact h
  | pow b p ih =>
    obtain ⟨hp, hb⟩ := exponents_pow.mp h
    exact exponents_pow.mpr ⟨hp, ih hb⟩
  | prod fs ih =>
    rw [multipliedOut_prod]
    have hfs := exponents_prod.mp h
    exact exponents_multiplyOut (List.forall_mem_map.mpr fun f hf => ih f hf (hfs f hf))
  | sum ts ih =>
    rw [multipliedOut_sum]
    have hts := exponents_sum.mp h
    exact exponents_ofTerms.mpr (List.forall_mem_map.mpr fun t ht => ih t ht (hts t ht))

/-- The exponent is one over a whole number, or minus that; one itself is left out. -/
def IsUnitFraction (p : Rat) : Prop :=
  p.num.natAbs = 1 ∧ p ≠ 1

theorem residue_eq (p : Rat) :
    residue p = ⟨if 0 < p.num then 1 else -1, p.den, p.den_nz, by
      split_ifs <;> exact Nat.coprime_one_left _⟩ :=
  (Rational.inLowestTerms_eq _ (Rational.den_ne_zero p)).trans Rat.mk_eq_divInt.symm

theorem natAbs_num_residue (p : Rat) : (residue p).num.natAbs = 1 := by
  rw [residue_eq]
  show (if 0 < p.num then (1 : Int) else -1).natAbs = 1
  split_ifs <;> rfl

/-- Nothing is left of a natural exponent but one. -/
theorem residue_natCast {n : ℕ} (h : n ≠ 0) : residue (n : Rat) = 1 := by
  have hpos : 0 < (n : Rat).num := by
    rw [Rat.num_natCast]
    omega
  rw [residue_eq]
  exact Rat.ext (if_pos hpos) (Rat.den_natCast n)

theorem expandPower_natCast (b : Expr) (n : ℕ) :
    expandPower b n = if n = 1 then b else if n = 0 then num 1
      else multiplyOut (List.replicate n b.multipliedOut) := by
  rw [expandPower, Rat.num_natCast, Int.natAbs_natCast]
  simp only [Nat.cast_eq_one, Nat.cast_eq_zero]
  split_ifs with h1 h0 _ hres
  · rfl
  · rfl
  · rfl
  · exact absurd (residue_natCast h0) hres
  · omega

theorem expandPower_of_isUnitFraction (b : Expr) {p : Rat} (h : IsUnitFraction p) :
    expandPower b p = pow b p := by
  have h0 : p ≠ 0 := by
    rintro rfl
    exact absurd h.1 (by decide)
  rw [expandPower, if_neg h.2, if_neg h0, if_neg (by rw [h.1]; exact Nat.lt_irrefl 1)]

theorem exponents_expandPower {b : Expr} (h : b.Exponents IsUnitFraction) (p : Rat) :
    (expandPower b p).Exponents IsUnitFraction := by
  have hrepeated : (multiplyOut (List.replicate p.num.natAbs b.multipliedOut)).Exponents
      IsUnitFraction :=
    exponents_multiplyOut fun u hu => List.eq_of_mem_replicate hu ▸ exponents_multipliedOut h
  rw [expandPower]
  split_ifs with h1 h0 hlt hres
  · exact h
  · exact exponents_num 1
  · exact hrepeated
  · exact exponents_pow.mpr ⟨⟨natAbs_num_residue p, hres⟩, hrepeated⟩
  · have : p.num.natAbs ≠ 0 := fun h => h0 (Rat.num_eq_zero.mp (Int.natAbs_eq_zero.mp h))
    exact exponents_pow.mpr ⟨⟨by omega, h1⟩, h⟩

/-- The exponents that an expansion leaves are unit fractions. -/
theorem exponents_expand (e : Expr) : e.expand.Exponents IsUnitFraction := by
  induction e with
  | num | sym => exact nofun
  | pow b p ih =>
    rw [expand_pow]
    exact exponents_expandPower ih p
  | prod fs ih =>
    rw [expand_prod]
    exact exponents_multiplyOut (List.forall_mem_map.mpr ih)
  | sum ts ih =>
    rw [expand_sum]
    exact exponents_ofTerms.mpr (List.forall_mem_map.mpr ih)

/-- Where all exponents are unit fractions, expanding only multiplies out. -/
theorem expand_eq_multipliedOut {e : Expr} (h : e.Exponents IsUnitFraction) :
    e.expand = e.multipliedOut := by
  induction e with
  | num | sym => rfl
  | pow b p ih =>
    obtain ⟨hp, hb⟩ := exponents_pow.mp h
    rw [expand_pow, ih hb, expandPower_of_isUnitFraction _ hp, multipliedOut]
  | prod fs ih =>
    have hfs := exponents_prod.mp h
    rw [expand_prod, multipliedOut_prod, List.map_congr_left fun f hf => ih f hf (hfs f hf)]
  | sum ts ih =>
    have hts := exponents_sum.mp h
    rw [expand_sum, multipliedOut_sum, List.map_congr_left fun t ht => ih t ht (hts t ht)]

/-- An exponent with more than one in its numerator is neither one nor zero. -/
theorem ne_one_and_ne_zero {p : Rat} (h : 1 < p.num.natAbs) : p ≠ 1 ∧ p ≠ 0 := by
  constructor
  · rintro rfl
    exact absurd h (by decide)
  · rintro rfl
    exact absurd h (by decide)

/-- A power with more than one in its numerator expands to the product of so many copies of the
expanded base, expanded in its turn, raised to what is left of the exponent. -/
theorem expand_pow_of_one_lt (b : Expr) {p : Rat} (h : 1 < p.num.natAbs) :
    (pow b p).expand =
      if residue p = 1 then (ofFactors (List.replicate p.num.natAbs b.expand)).expand
      else pow (ofFactors (List.replicate p.num.natAbs b.expand)).expand (residue p) := by
  have hrepeated : (ofFactors (List.replicate p.num.natAbs b.expand)).expand =
      multiplyOut (List.replicate p.num.natAbs b.expand.multipliedOut) := by
    rw [ofFactors, expand_prod, List.perm_replicate.mp (sort_perm _), List.map_replicate,
      expand_eq_multipliedOut (exponents_expand b)]
  obtain ⟨h1, h0⟩ := ne_one_and_ne_zero h
  rw [hrepeated, expand_pow, expandPower, if_neg h1, if_neg h0, if_pos h]

end ExactAlgebra.Expr
