import ExactAlgebra.Proofs.Derivative.Rules
import ExactAlgebra.Proofs.Values
import Mathlib.Algebra.DualNumber
import Mathlib.Tactic.FieldSimp
import Mathlib.Tactic.Ring

/-!
# The value of a derivative

An expression with integer exponents is read in the dual numbers `ℚ[ε]`, where `ε * ε = 0`, with one
letter moved by `ε` (`Reading.dual`). The rational part of what it is worth is its value, and the
part at `ε` is the value of its partial derivative in that letter (`value_derivative`).

The reading knows nothing of the rules for derivatives: its powers are made of multiplication and
inversion alone (`dualPow`, `dualPow_add_one`). For products the two agree factor by factor
(`sum_value_replaceEach`), since `ε` is kept by one factor at most; for powers the agreement is that
of `snd_dualPow`.

The derivative is defined wherever no power of an exponent that is not positive has a base of the
value zero (`RegularAt`). A power of exponent zero is among these, as its derivative has a power
whose exponent is minus one.
-/

namespace ExactAlgebra

open TrivSqZeroExt

namespace Reading

/-! ### Dual numbers -/

/-- The power of a dual number with an integer exponent. -/
def dualPow (a : DualNumber ℚ) : ℤ → DualNumber ℚ
  | .ofNat n => a ^ n
  | .negSucc n => (a ^ (n + 1))⁻¹

theorem fst_dualPow (a : DualNumber ℚ) (m : ℤ) : (dualPow a m).fst = a.fst ^ m := by
  cases m with
  | ofNat n => simp [dualPow]
  | negSucc n => simp [dualPow, zpow_negSucc]

/-- The power rule. -/
theorem snd_dualPow (a : DualNumber ℚ) (m : ℤ) :
    (dualPow a m).snd = m * a.fst ^ (m - 1) * a.snd := by
  cases m with
  | ofNat n =>
    cases n with
    | zero => simp [dualPow]
    | succ n => simp [dualPow, mul_assoc]
  | negSucc n =>
    have hpred : Int.negSucc n - 1 = Int.negSucc (n + 1) := rfl
    rw [hpred, zpow_negSucc, dualPow, snd_inv, fst_pow, snd_pow]
    by_cases h : a.fst = 0
    · simp [h]
    · simp only [MulOpposite.smul_eq_mul_unop, MulOpposite.unop_op, smul_eq_mul, nsmul_eq_mul,
        Nat.pred_eq_sub_one, add_tsub_cancel_right, Int.cast_negSucc, Nat.cast_add, Nat.cast_one]
      field_simp
      ring

/-- Where there is an inverse, powers of dual numbers go by multiplication. -/
theorem dualPow_add_one {a : DualNumber ℚ} (h : a.fst ≠ 0) (m : ℤ) :
    dualPow a (m + 1) = dualPow a m * a := by
  ext
  · rw [fst_mul, fst_dualPow, fst_dualPow, zpow_add_one₀ h]
  · rw [DualNumber.snd_mul, snd_dualPow, snd_dualPow, fst_dualPow, add_sub_cancel_right]
    have hm : a.fst ^ m = a.fst ^ (m - 1) * a.fst := by
      rw [← zpow_add_one₀ h, sub_add_cancel]
    rw [hm]
    push_cast
    ring

/-- The reading in dual numbers in which one letter is moved by `ε`. -/
def dual (σ : Letter → ℚ) (v : Letter) : Reading (DualNumber ℚ) where
  num q := inl q
  letter x := if x = v then inl (σ x) + DualNumber.eps else inl (σ x)
  pow a p := dualPow a p.num
  IsNum _ := True
  IsPow a p := p.den = 1 ∧ (p < 0 → a.fst ≠ 0)
  IsValue _ := True

end Reading

namespace Expr

variable {σ : Letter → ℚ} {v : Letter}

/-! ### The rational part -/

theorem fst_value_dual (e : Expr) :
    (e.value (Reading.dual σ v)).fst = e.value (Reading.rational σ) := by
  induction e with
  | num q => rfl
  | sym x =>
    show (if x = v then inl (σ x) + DualNumber.eps else inl (σ x)).fst = σ x
    split_ifs
    · simp
    · simp
  | pow b p ih =>
    rw [value_pow, value_pow, ← ih]
    exact Reading.fst_dualPow _ _
  | prod fs ih =>
    rw [value_prod, value_prod, fst_list_prod, List.map_map]
    exact congrArg List.prod (List.map_congr_left ih)
  | sum ts ih =>
    rw [value_sum, value_sum]
    refine (map_list_sum (fstHom ℚ ℚ ℚ) _).trans ?_
    rw [List.map_map]
    exact congrArg List.sum (List.map_congr_left ih)

/-- The reading in dual numbers makes sense of what has a value. -/
theorem admissible_dual_iff {e : Expr} :
    e.Admissible (Reading.dual σ v) ↔ e.Admissible (Reading.rational σ) := by
  have hnode : ∀ d, AdmissibleNode (Reading.dual σ v) d ↔ AdmissibleNode (Reading.rational σ) d := by
    intro d
    cases d with
    | pow b p =>
      show (p.den = 1 ∧ (p < 0 → (b.value (Reading.dual σ v)).fst ≠ 0)) ↔ _
      rw [fst_value_dual]
      rfl
    | num | sym | prod | sum => exact Iff.rfl
  exact ⟨Everywhere.mono fun d => (hnode d).mp, Everywhere.mono fun d => (hnode d).mpr⟩

/-! ### Where there is a derivative -/

/-- No power of an exponent that is not positive has a base of the value zero. -/
def RegularAt (σ : Letter → ℚ) (e : Expr) : Prop :=
  e.Powers fun b p => p ≤ 0 → b.value (Reading.rational σ) ≠ 0

theorem RegularAt.definedAt {e : Expr} (h : e.RegularAt σ) : e.DefinedAt σ :=
  Powers.mono (fun _ _ hreg hneg => hreg hneg.le) h

theorem integerExponents_derivative {e : Expr} (hint : e.IntegerExponents) :
    (e.derivative v).IntegerExponents := by
  refine (powers_derivative_iff (P := fun _ p => p.den = 1) hint).mpr ?_
  refine Powers.mono (fun b p hp => ?_) hint
  lift p to ℤ using hp
  exact_mod_cast Rat.den_intCast (p - 1)

theorem definedAt_derivative {e : Expr} (hint : e.IntegerExponents) (hreg : e.RegularAt σ) :
    (e.derivative v).DefinedAt σ := by
  refine (powers_derivative_iff hreg.definedAt).mpr ?_
  refine Everywhere.mono (fun d hd b p hbp hneg => hd.2 b p hbp ?_) (everywhere_and.mpr ⟨hint, hreg⟩)
  -- an integer that is less than one is at most zero
  have hp : p.den = 1 := hd.1 b p hbp
  lift p to ℤ using hp
  have hneg : p - 1 < 0 := by exact_mod_cast hneg
  have hle : p ≤ 0 := by omega
  exact_mod_cast hle

/-! ### The part at `ε` -/

/-- The product rule, for factors that have their derivatives. -/
theorem sum_value_replaceEach {fs : List Expr}
    (h : ∀ f ∈ fs, (f.derivative v).value (Reading.rational σ) =
      (f.value (Reading.dual σ v)).snd) :
    ((replaceEach fs (fs.map (derivative v))).map fun l =>
        (l.map (value (Reading.rational σ))).prod).sum =
      (fs.map (value (Reading.dual σ v))).prod.snd := by
  induction fs with
  | nil => rfl
  | cons f fs ih =>
    obtain ⟨hf, hfs⟩ := List.forall_mem_cons.mp h
    have hrest : (fs.map (value (Reading.dual σ v))).prod.fst =
        (fs.map (value (Reading.rational σ))).prod := by
      rw [← value_prod, ← value_prod, fst_value_dual]
    simp only [List.map_cons, replaceEach, List.sum_cons, List.prod_cons, List.map_map,
      Function.comp_def]
    -- the derivative is taken of the first factor, or else of one among the others
    rw [List.sum_map_mul_left, ih hfs, hf, DualNumber.snd_mul, fst_value_dual, hrest]
    exact add_comm _ _

/-- The part at `ε` is the value of the derivative. Where a base that is inverted is zero, both sides
take zero for its inverse. -/
theorem value_derivative_eq {e : Expr} (hint : e.IntegerExponents) :
    (e.derivative v).value (Reading.rational σ) = (e.value (Reading.dual σ v)).snd := by
  induction e with
  | num q => rfl
  | sym x =>
    show _ = (if x = v then inl (σ x) + DualNumber.eps else inl (σ x)).snd
    rw [derivative]
    split_ifs
    · simp [Reading.rational]
    · simp [Reading.rational]
  | pow b p ih =>
    obtain ⟨hp, hb⟩ := powers_pow.mp hint
    lift p to ℤ using hp with m
    have hpred : (m : ℚ) - 1 = (m - 1 : ℤ) := by push_cast; rfl
    have hpow : ((pow b m).value (Reading.dual σ v)).snd =
        (m : ℚ) * b.value (Reading.rational σ) ^ (m - 1) * (b.value (Reading.dual σ v)).snd := by
      rw [← fst_value_dual (v := v), ← Reading.snd_dualPow, ← Rat.num_intCast m]
      rfl
    rw [hpow, derivative_pow, value_ofFactors, hpred, ← ih hb]
    simp only [List.map_cons, List.map_nil, List.prod_cons, List.prod_nil, mul_one, value_num,
      value_pow, Reading.pow_intCast, mul_assoc]
    rfl
  | prod fs ih =>
    have hfs := powers_prod.mp hint
    rw [derivative_prod, value_ofTerms, List.map_map, value_prod,
      ← sum_value_replaceEach fun f hf => ih f hf (hfs f hf)]
    exact congrArg List.sum (List.map_congr_left fun l _ => value_ofFactors _ l)
  | sum ts ih =>
    have hts := powers_sum.mp hint
    rw [derivative_sum, value_ofTerms, List.map_map, value_sum]
    refine Eq.trans ?_ (map_list_sum (sndHom ℚ ℚ) _).symm
    rw [List.map_map]
    exact congrArg List.sum (List.map_congr_left fun t ht => ih t ht (hts t ht))

/-- The derivative of an expression with integer exponents is one as well. Wherever the expression
is regular, it is worth a dual number, the derivative is defined, and its value is what the dual
number has at `ε`. -/
theorem value_derivative {e : Expr} (v : Letter) (σ : Letter → ℚ) (hint : e.IntegerExponents)
    (hreg : e.RegularAt σ) :
    e.Admissible (Reading.dual σ v) ∧
      (e.derivative v).IntegerExponents ∧ (e.derivative v).DefinedAt σ ∧
        (e.derivative v).value (Reading.rational σ) = (e.value (Reading.dual σ v)).snd := by
  refine ⟨?_, integerExponents_derivative hint, definedAt_derivative hint hreg,
    value_derivative_eq hint⟩
  exact admissible_dual_iff.mpr (admissible_rational_iff.mpr ⟨hint, hreg.definedAt⟩)

/-- A letter divided by the square of one more than it. -/
def letterOverSquare : Expr :=
  prod [sym ⟨'w', by decide⟩, pow (sum [num 1, sym ⟨'w', by decide⟩]) (-2)]

theorem value_derivative_letterOverSquare :
    letterOverSquare.IntegerExponents ∧ letterOverSquare.RegularAt (fun _ => 3) ∧
      letterOverSquare.Admissible (Reading.dual (fun _ => 3) ⟨'w', by decide⟩) ∧
      (letterOverSquare.derivative ⟨'w', by decide⟩).IntegerExponents ∧
      (letterOverSquare.derivative ⟨'w', by decide⟩).DefinedAt (fun _ => 3) ∧
      (letterOverSquare.derivative ⟨'w', by decide⟩).value (Reading.rational fun _ => 3) =
        (letterOverSquare.value (Reading.dual (fun _ => 3) ⟨'w', by decide⟩)).snd := by
  have hint : letterOverSquare.IntegerExponents := by
    simp [letterOverSquare, IntegerExponents]
  have hreg : letterOverSquare.RegularAt fun _ => 3 := by
    norm_num [letterOverSquare, RegularAt, Reading.rational]
  exact ⟨hint, hreg, value_derivative ⟨'w', by decide⟩ (fun _ => 3) hint hreg⟩

end Expr

end ExactAlgebra
