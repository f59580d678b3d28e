import ExactAlgebra.Proofs.Canonical.Folding.Factors
import ExactAlgebra.Proofs.Canonical.Idempotence
import ExactAlgebra.Proofs.Canonical.NumberPowers
import ExactAlgebra.Proofs.Canonical.Value
import ExactAlgebra.Proofs.Estimate.Roots

/-!
# Constant expressions

An expression without letters whose exponents are integers has a rational value, where zero is not
raised to an exponent that is zero or negative. Its canonical form may be a number, and then it is
that value; the number also serves as an exponent.

It is one throughout the expression exactly if every power is worked out (`simplify_constant`). A
power is not left to multiplication: its base is looked up as its own first root. That root is found
for all bases of up to 53 bits (`everywhere_folds_of_narrow`), and for those of more than 1000 bits;
in between the guess may miss it, and the power is left as it is (`not_folds_wideNumber`).
-/

namespace ExactAlgebra

variable {guess : RootGuess}

/-! ### First roots -/

namespace Root

/-- The first root of an integer, which is the integer itself, is found. -/
def OwnRoot (guess : RootGuess) (n : ℕ) : Prop :=
  IsFound guess n 1 n

instance (n : ℕ) : Decidable (OwnRoot guess n) :=
  inferInstanceAs (Decidable (IsFound guess n 1 n))

/-- The first root of an integer is missed where the guess misses it. -/
theorem exactRoot_one_eq_none_iff {n : ℕ} : exactRoot guess n 1 = .ok none ↔ ¬ OwnRoot guess n := by
  have hfound : exactRoot guess n (1 : ℕ) = .ok (some (n : ℤ)) ↔ OwnRoot guess n :=
    (exactRoot_eq_some_iff guess le_rfl).trans (and_iff_right (pow_one n))
  obtain ⟨o, ho, hroot⟩ := exactRoot_spec guess (n := n) (r := 1) le_rfl
  rw [← hfound, ← Nat.cast_one, ho]
  cases o with
  | none => simp
  | some c =>
    obtain rfl : c = n := (pow_one c).symm.trans (hroot c rfl).2
    simp

end Root

namespace Canonical

open ExactAlgebra.Expr

/-! ### Powers of numbers -/

/-- A power of a number with an integer exponent is worked out: there is nothing to do, or the
number is found to be its own root. -/
def WorkedOut (guess : RootGuess) (q p : ℚ) : Prop :=
  p = 0 ∨ p = 1 ∨ (Root.OwnRoot guess q.num.natAbs ∧ Root.OwnRoot guess q.den)

instance (q p : ℚ) : Decidable (WorkedOut guess q p) :=
  inferInstanceAs (Decidable (_ ∨ _ ∨ _))

theorem rootMissing_of_den_eq_one_iff {q p : ℚ} (hp : p.den = 1) :
    RootMissing guess q p ↔ ¬ (Root.OwnRoot guess q.num.natAbs ∧ Root.OwnRoot guess q.den) := by
  rw [rootMissing_iff, hp, Nat.cast_one, Root.exactRoot_one_eq_none_iff,
    Root.exactRoot_one_eq_none_iff, not_and_or]
  exact or_iff_right fun h => absurd h.2 (by decide)

/-- A power of a number is a number again exactly if it is worked out. -/
theorem raised_eq_num_iff {q p : ℚ} (hp : p.den = 1) (h0 : p ≤ 0 → q ≠ 0) :
    (∃ v, raised guess (.num q) p = .ok (.num v)) ↔ WorkedOut guess q p := by
  by_cases hq : q = 0
  · -- zero is its own root
    subst hq
    have hp0 : p ≠ 0 := by
      rintro rfl
      exact h0 le_rfl rfl
    refine iff_of_true ⟨0, ?_⟩ (Or.inr (Or.inr ⟨Or.inl (by decide), Or.inl (by decide)⟩))
    by_cases hp1 : p = 1
    · exact if_pos hp1
    · rw [raised, if_neg hp1]
      show numberPower guess 0 p = _
      rw [numberPower, if_pos rfl, if_neg hp0]
  · rw [raised_num_eq_num_iff guess hq, rootMissing_of_den_eq_one_iff hp, not_not, WorkedOut]

/-! ### Sums and products of numbers -/

section

variable {us : List Expr} (hus : ∀ u ∈ us, u.kind = .rational)

include hus

theorem firm_of_rational {kind : Kind} (hkind : kind ≠ .rational) : Firm guess kind us := by
  intro u hu
  obtain ⟨q, rfl⟩ := kind_eq_rational_iff.mp (hus u hu)
  exact ⟨irreducible_num q, hkind.symm⟩

theorem nonNumbers_of_rational : nonNumbers us = [] :=
  List.filter_eq_nil_iff.mpr fun u hu => by simp [hus u hu]

/-- Numbers add up to a number. -/
theorem sumForm_of_rational : sumForm guess us = .ok (.num (constantTerm us)) := by
  have hfirm : Firm guess .sum us := firm_of_rational hus (by decide)
  have hnumbers := nonNumbers_of_rational hus
  rw [sumForm_of_nodup (fun u hu => (hfirm u hu).1.reduced) (fun u hu => (hfirm u hu).2)
    (by rw [hnumbers]; exact List.nodup_nil), hnumbers, List.nil_append, besides]
  split_ifs with h
  · rw [h]
    rfl
  · rfl

/-- Numbers multiply to a number. -/
theorem productForm_of_rational : productForm guess us = .ok (.num (constantFactor us)) := by
  have hfirm : Firm guess .product us := firm_of_rational hus (by decide)
  have hnumbers := nonNumbers_of_rational hus
  rw [productForm_of_nodup hfirm (by rw [hnumbers]; exact List.nodup_nil), hnumbers,
    List.nil_append, besides]
  split_ifs with h h1
  · rw [h]
  · rfl
  · rfl

end

/-! ### Zero -/

theorem constantTerm_eq_zero {us : List Expr} (h : ∀ u ∈ us, u = .num 0) : constantTerm us = 0 := by
  induction us with
  | nil => rfl
  | cons u us ih =>
    obtain ⟨rfl, hus⟩ := List.forall_mem_cons.mp h
    rw [constantTerm_num_cons, zero_add, ih hus]

theorem constantFactor_eq_zero {us : List Expr} (h : .num 0 ∈ us) : constantFactor us = 0 := by
  obtain ⟨vs, ws, rfl⟩ := List.append_of_mem h
  rw [constantFactor_append, constantFactor_num_cons, zero_mul, mul_zero]

/-- Terms that come to zero add up to zero. -/
theorem simplify_ofTerms_eq_zero {ts : List Expr}
    (hts : ∀ t ∈ ts, t.simplify guess = .ok (.num 0)) :
    (ofTerms ts).simplify guess = .ok (.num 0) := by
  have hparts : ∀ u ∈ parts guess .sum ts, u = .num 0 := by
    refine List.forall_mem_flatMap.mpr (List.forall_mem_map.mpr fun t ht => ?_)
    rw [formBy_eq (hts t ht)]
    exact List.forall_mem_singleton.mpr rfl
  have hrational : ∀ u ∈ parts guess .sum ts, u.kind = .rational :=
    fun u hu => hparts u hu ▸ rfl
  rw [simplify_ofTerms fun t ht => ⟨_, hts t ht⟩, sumForm_of_rational hrational,
    constantTerm_eq_zero hparts]

/-- A factor that comes to zero makes the product zero, if the other factors come to anything. -/
theorem simplify_ofFactors_eq_zero {fs : List Expr}
    (hfs : ∀ f ∈ fs, ∃ n, f.simplify guess = .ok n)
    (hzero : ∃ f ∈ fs, f.simplify guess = .ok (.num 0)) :
    (ofFactors fs).simplify guess = .ok (.num 0) := by
  obtain ⟨f, hf, hform⟩ := hzero
  have hmem : .num 0 ∈ parts guess .product fs := by
    refine List.mem_flatMap.mpr ⟨_, List.mem_map_of_mem hf, ?_⟩
    rw [formBy_eq hform]
    exact List.mem_singleton_self _
  rw [simplify_ofFactors hfs,
    productForm_of_zero (reduced_parts hfs .product) (constantFactor_eq_zero hmem)]

/-! ### What folds -/

/-- The canonical form of the expression is a number. -/
def Folds (guess : RootGuess) (e : Expr) : Prop :=
  ∃ q, e.simplify guess = .ok (.num q)

section

variable {es : List Expr} (hes : ∀ e ∈ es, Folds guess e)

include hes

theorem kind_of_mem_parts (kind : Kind) : ∀ u ∈ parts guess kind es, u.kind = .rational := by
  refine forall_mem_spliced (List.forall_mem_map.mpr fun e he => ?_) fun u hu _ d hd => ?_
  · obtain ⟨q, hq⟩ := hes e he
    rw [formBy_eq hq]
    rfl
  · -- a number has no children
    obtain ⟨q, rfl⟩ := kind_eq_rational_iff.mp hu
    cases hd

theorem exists_form_of_folds : ∀ e ∈ es, ∃ n, e.simplify guess = .ok n := by
  intro e he
  obtain ⟨q, hq⟩ := hes e he
  exact ⟨.num q, hq⟩

theorem folds_sum : Folds guess (.sum es) := by
  rw [Folds, simplify_sum (exists_form_of_folds hes)]
  exact ⟨_, sumForm_of_rational (kind_of_mem_parts hes .sum)⟩

theorem folds_prod : Folds guess (.prod es) := by
  rw [Folds, simplify_prod (exists_form_of_folds hes)]
  exact ⟨_, productForm_of_rational (kind_of_mem_parts hes .product)⟩

end

end Canonical

namespace Expr

open Canonical

/-! ### Constants -/

/-- The value of an expression in rational numbers, for one without letters. -/
def exactValue (e : Expr) : ℚ :=
  e.value (Reading.rational fun _ => 0)

/-- The expression can be worked out exactly: it has no letters, its exponents are integers, and it
does not raise zero to an exponent that is zero or negative. -/
structure IsConstant (e : Expr) : Prop where
  letterFree : e.Everywhere fun d => ∀ x, d ≠ sym x
  integerExponents : e.IntegerExponents
  defined : e.Powers fun b p => p ≤ 0 → b.exactValue ≠ 0

namespace IsConstant

theorem base {b : Expr} {p : ℚ} (h : (pow b p).IsConstant) : b.IsConstant :=
  ⟨h.letterFree.2, h.integerExponents.2, (powers_pow.mp h.defined).2⟩

theorem term {t : Expr} {ts : List Expr} (h : (sum ts).IsConstant) (ht : t ∈ ts) : t.IsConstant :=
  ⟨(everywhere_sum.mp h.letterFree).2 t ht, (everywhere_sum.mp h.integerExponents).2 t ht,
    powers_sum.mp h.defined t ht⟩

theorem factor {f : Expr} {fs : List Expr} (h : (prod fs).IsConstant) (hf : f ∈ fs) :
    f.IsConstant :=
  ⟨(everywhere_prod.mp h.letterFree).2 f hf, (everywhere_prod.mp h.integerExponents).2 f hf,
    powers_prod.mp h.defined f hf⟩

theorem admissible {e : Expr} (h : e.IsConstant) :
    e.Admissible (Reading.rational fun _ => 0) :=
  admissible_rational_iff.mpr
    ⟨h.integerExponents, h.defined.mono fun _ _ hp hneg => hp hneg.le⟩

/-- A constant that folds, folds to its value. -/
theorem eq_exactValue {e : Expr} (h : e.IsConstant) {q : ℚ} (hq : e.simplify guess = .ok (num q)) :
    q = e.exactValue :=
  (value_of_yields (Reading.lawful_rational _) (yields_of_within hq) h.admissible).2

theorem folds_iff_simplify {e : Expr} (h : e.IsConstant) :
    Folds guess e ↔ e.simplify guess = .ok (num e.exactValue) := by
  constructor
  · rintro ⟨q, hq⟩
    rw [hq, h.eq_exactValue hq]
  · exact fun hq => ⟨_, hq⟩

/-- A power whose base folds does so itself exactly if it is worked out. -/
theorem folds_pow_iff {b : Expr} {p : ℚ} (h : (pow b p).IsConstant) (hb : Folds guess b) :
    Folds guess (pow b p) ↔ WorkedOut guess b.exactValue p := by
  rw [Folds, simplify_pow (h.base.folds_iff_simplify.mp hb)]
  exact raised_eq_num_iff (h.integerExponents.1 b p rfl) ((powers_pow.mp h.defined).1)

/-- All of a constant folds exactly if all its powers are worked out. -/
theorem everywhere_folds_iff {e : Expr} (h : e.IsConstant) :
    e.Everywhere (Folds guess) ↔ e.Powers fun b p => WorkedOut guess b.exactValue p := by
  induction e with
  | num q => exact iff_of_true ⟨q, rfl⟩ (powers_num q)
  | sym x => exact absurd rfl (h.letterFree x)
  | pow b p ih =>
    rw [everywhere_pow, powers_pow, ← ih h.base]
    refine and_congr_left fun hb => ?_
    exact h.folds_pow_iff hb.root
  | prod fs ih =>
    rw [everywhere_prod, powers_prod]
    refine Iff.trans (and_iff_right_of_imp fun hfs => ?_) ?_
    · exact folds_prod fun f hf => (hfs f hf).root
    · exact forall₂_congr fun f hf => ih f hf (h.factor hf)
  | sum ts ih =>
    rw [everywhere_sum, powers_sum]
    refine Iff.trans (and_iff_right_of_imp fun hts => ?_) ?_
    · exact folds_sum fun t ht => (hts t ht).root
    · exact forall₂_congr fun t ht => ih t ht (h.term ht)

/-- With the guess in use a constant folds altogether if no power in it has a base with more than 53
bits in its numerator or denominator. -/
theorem everywhere_folds_of_narrow {e : Expr} (h : e.IsConstant)
    (hnarrow : e.Powers fun b _ =>
      b.exactValue.num.natAbs < 2 ^ 53 ∧ b.exactValue.den < 2 ^ 53) :
    e.Everywhere (Folds Estimate.root) := by
  refine h.everywhere_folds_iff.mpr (hnarrow.mono fun b p hb => ?_)
  exact Or.inr (Or.inr ⟨Root.isFound_one hb.1, Root.isFound_one hb.2⟩)

/-- Every part of a constant is one. -/
theorem everywhere {e : Expr} (h : e.IsConstant) : e.Everywhere IsConstant := by
  induction e with
  | num | sym => exact h
  | pow b p ih => exact ⟨h, ih h.base⟩
  | prod fs ih => exact everywhere_prod.mpr ⟨h, fun f hf => ih f hf (h.factor hf)⟩
  | sum ts ih => exact everywhere_sum.mpr ⟨h, fun t ht => ih t ht (h.term ht)⟩

end IsConstant

/-! ### Exponents -/

/-- A constant whose canonical form is a number has its value as canonical form. It and all its
parts have theirs, and come down to these as exponents, exactly if every power in it is worked out:
the exponent is zero or one, or the numerator and the denominator of what its base is worth are
found to be their own roots. -/
theorem simplify_constant {e : Expr} (h : e.IsConstant) :
    (∀ q, e.simplify guess = .ok (num q) → q = e.exactValue) ∧
      (e.Everywhere (fun d => d.simplify guess = .ok (num d.exactValue) ∧
          (d.toExponent guess).outcome = .ok d.exactValue) ↔
        e.Powers fun b p => WorkedOut guess b.exactValue p) := by
  refine ⟨fun q => h.eq_exactValue, ?_⟩
  simp only [toExponent_eq_ok_iff, and_self]
  rw [← h.everywhere_folds_iff]
  constructor
  · exact Everywhere.mono fun d hd => ⟨_, hd⟩
  · intro hfolds
    refine Everywhere.mono (fun d hd => ?_) (everywhere_and.mpr ⟨h.everywhere, hfolds⟩)
    exact hd.1.folds_iff_simplify.mp hd.2

/-- The fourth power of ten ninths, from powers and a sum. -/
def tenNinths : Expr :=
  pow (sum [num 1, pow (num 3) (-2)]) 4

theorem simplify_constant_tenNinths :
    tenNinths.IsConstant ∧
      (∀ q, tenNinths.simplify Estimate.root = .ok (num q) → q = tenNinths.exactValue) ∧
      (tenNinths.Everywhere (fun d => d.simplify Estimate.root = .ok (num d.exactValue) ∧
          (d.toExponent Estimate.root).outcome = .ok d.exactValue) ↔
        tenNinths.Powers fun b p => WorkedOut Estimate.root b.exactValue p) ∧
      (tenNinths.Powers fun b p => WorkedOut Estimate.root b.exactValue p) ∧
      tenNinths.simplify Estimate.root = .ok (num (10000 / 6561)) := by
  have hsum : (sum [num 1, pow (num 3) (-2)]).exactValue = 10 / 9 := by
    simp [exactValue, Reading.rational]
    norm_num
  have hthree : (num 3).exactValue = 3 := rfl
  have hconstant : tenNinths.IsConstant := by
    refine ⟨?_, ?_, ?_⟩
    · simp [tenNinths]
    · simp [tenNinths, IntegerExponents]
    · simp [tenNinths, hsum, hthree]
  have hpowers : tenNinths.Powers fun b p => WorkedOut Estimate.root b.exactValue p := by
    have hroots : WorkedOut Estimate.root (10 / 9) 4 ∧ WorkedOut Estimate.root 3 (-2) := by
      decide +kernel
    simpa [tenNinths, hsum, hthree] using hroots
  have hvalue : tenNinths.exactValue = 10000 / 6561 := by
    simp [tenNinths, exactValue, Reading.rational]
    norm_num
  obtain ⟨hright, hall⟩ := simplify_constant hconstant
  refine ⟨hconstant, hright, hall, hpowers, ?_⟩
  rw [← hvalue]
  exact (hall.mpr hpowers).root.1

/-- The square of a number that is not found to be its own root is a constant. It is left as it is,
and it is refused as an exponent. -/
theorem not_folds_wideNumber :
    (pow (num wideNumber) 2).IsConstant ∧
      (pow (num wideNumber) 2).exactValue = 10000000000000000001400000000000000000049 ∧
      (pow (num wideNumber) 2).simplify Estimate.root = .ok (pow (num wideNumber) 2) ∧
      ((pow (num wideNumber) 2).toExponent Estimate.root).outcome =
        .error (.invalid (.unreducedExponent (pow (num wideNumber) 2))) := by
  refine ⟨⟨?_, ?_, ?_⟩, ?_, ?_, ?_⟩
  · simp
  · simp [IntegerExponents]
  · simp
  · simp [exactValue, Reading.rational, wideNumber]
    norm_num
  · decide +kernel
  · decide +kernel

end Expr

end ExactAlgebra
