import ExactAlgebra.Proofs.Canonical.Constants
import ExactAlgebra.Proofs.Derivative.Rules

/-!
# The canonical form of a derivative

The power rule makes a power of exponent zero of every power of exponent one, whose base need not
have such a power. This is the only way in which an expression that has a canonical form can have a
derivative without one (`exists_simplify_derivative_iff`). It makes no difference by which letter
the derivative is, nor that the power stands where the derivative comes to zero: nothing is left out
of a derivative.

Where the letter does not occur, each term that the rules write down has a factor that comes to
zero, whatever the other factors are, so the derivative comes to zero
(`simplify_derivative_of_lacks`).
-/

namespace ExactAlgebra.Expr

open Canonical

variable {guess : RootGuess}

/-- The powers of exponent zero in a derivative are those of exponent one in the expression. -/
theorem zerothDefined_derivative_iff {e : Expr} (x : Letter) (h : ZerothDefined guess e) :
    ZerothDefined guess (e.derivative x) ↔ e.Powers fun b p => p = 1 → HasUnit guess b := by
  have hrule := powers_derivative_iff (x := x) h
  simp only [sub_eq_zero] at hrule
  exact hrule

/-- The derivative of an expression without powers of exponent zero has a canonical form exactly if
the bases of the powers of exponent one come down to numbers other than zero, or to powers of such
numbers. -/
theorem exists_simplify_derivative_iff (guess : RootGuess) (x : Letter) {e : Expr}
    (he : ZeroFree e) :
    (∃ n, (e.derivative x).simplify guess = .ok n) ↔
      e.Powers fun b p => p = 1 → HasUnit guess b := by
  rw [exists_simplify_iff]
  exact zerothDefined_derivative_iff x he.zerothDefined

/-- The first power of a number, times the square of a letter. -/
def scaledSquare : Expr :=
  prod [pow (num 5) 1, pow (sym ⟨'t', by decide⟩) 2]

theorem exists_simplify_derivative_scaledSquare :
    ZeroFree scaledSquare ∧
      ((∃ n, (scaledSquare.derivative ⟨'t', by decide⟩).simplify Estimate.root = .ok n) ↔
        scaledSquare.Powers fun b p => p = 1 → HasUnit Estimate.root b) := by
  have hzero : ZeroFree scaledSquare := by
    simp [ZeroFree, scaledSquare]
  exact ⟨hzero, exists_simplify_derivative_iff Estimate.root ⟨'t', by decide⟩ hzero⟩

/-- The derivative of the first power of a letter has no canonical form. -/
theorem simplify_derivative_firstPower :
    ZeroFree (pow (sym ⟨'t', by decide⟩) 1) ∧
      ((pow (sym ⟨'t', by decide⟩) 1).derivative ⟨'t', by decide⟩).simplify Estimate.root =
        .error (.undefined (.vanishedExponent (sym ⟨'t', by decide⟩))) := by
  refine ⟨?_, ?_⟩
  · simp [ZeroFree]
  · decide +kernel

/-! ### Derivatives that come to zero -/

section

variable {x : Letter}

theorem simplify_derivative_pow_eq_zero {b : Expr} {p : Rat}
    (hlowered : ∃ n, (pow b (p - 1)).simplify guess = .ok n)
    (hb : (b.derivative x).simplify guess = .ok (num 0)) :
    ((pow b p).derivative x).simplify guess = .ok (num 0) := by
  rw [derivative_pow]
  refine simplify_ofFactors_eq_zero ?_ ⟨b.derivative x, by simp, hb⟩
  rw [List.forall_mem_cons, List.forall_mem_cons, List.forall_mem_singleton]
  exact ⟨⟨_, rfl⟩, hlowered, ⟨_, hb⟩⟩

/-- Each term that the product rule writes down has a factor that comes to zero. -/
theorem simplify_derivative_prod_eq_zero {fs : List Expr}
    (hfs : ∀ f ∈ fs, ∃ n, f.simplify guess = .ok n)
    (hzero : ∀ f ∈ fs, (f.derivative x).simplify guess = .ok (num 0)) :
    ((prod fs).derivative x).simplify guess = .ok (num 0) := by
  have hzero : ∀ d ∈ fs.map (derivative x), d.simplify guess = .ok (num 0) :=
    List.forall_mem_map.mpr hzero
  have hparts : ∀ l ∈ replaceEach fs (fs.map (derivative x)), ∀ d ∈ l,
      ∃ n, d.simplify guess = .ok n := by
    rw [forall_mem_replaceEach_iff (by simp) hfs]
    exact fun d hd => ⟨_, hzero d hd⟩
  rw [derivative_prod]
  refine simplify_ofTerms_eq_zero (List.forall_mem_map.mpr fun l hl => ?_)
  obtain ⟨d, hd, hmem⟩ := exists_mem_of_mem_replaceEach hl
  exact simplify_ofFactors_eq_zero (hparts l hl) ⟨d, hmem, hzero d hd⟩

theorem simplify_derivative_sum_eq_zero {ts : List Expr}
    (hzero : ∀ t ∈ ts, (t.derivative x).simplify guess = .ok (num 0)) :
    ((sum ts).derivative x).simplify guess = .ok (num 0) := by
  rw [derivative_sum]
  exact simplify_ofTerms_eq_zero (List.forall_mem_map.mpr hzero)

end

/-- The letter does not occur in the expression. -/
def Lacks (x : Letter) (e : Expr) : Prop :=
  e.Everywhere fun d => d ≠ sym x

/-- The derivative in a letter that does not occur comes to zero. -/
theorem simplify_derivative_of_lacks (guess : RootGuess) {x : Letter} {e : Expr} (hx : Lacks x e)
    (he : e.Exponents fun p => p ≠ 0 ∧ p ≠ 1) :
    (e.derivative x).simplify guess = .ok (num 0) := by
  -- what the rules copy has a form, since no exponent in it is zero
  have hzeroFree : ∀ {d : Expr}, d.Exponents (fun p => p ≠ 0 ∧ p ≠ 1) → ZeroFree d :=
    fun hd => exponents_ne_iff.mp (Powers.mono (fun _ _ hp => hp.1) hd)
  induction e with
  | num q => rfl
  | sym y =>
    have hne : y ≠ x := fun h => hx (congrArg sym h)
    rw [derivative, if_neg hne]
    rfl
  | pow b p ih =>
    obtain ⟨⟨-, hp1⟩, hb⟩ := exponents_pow.mp he
    refine simplify_derivative_pow_eq_zero ?_ (ih hx.2 hb)
    refine exists_simplify_of_zerothDefined (powers_pow.mpr ⟨fun h => ?_, ?_⟩)
    · exact absurd (sub_eq_zero.mp h) hp1
    · exact (hzeroFree hb).zerothDefined
  | prod fs ih =>
    have hx := (everywhere_prod.mp hx).2
    have hfs := exponents_prod.mp he
    refine simplify_derivative_prod_eq_zero (fun f hf => ?_) fun f hf => ?_
    · exact exists_simplify_eq_ok guess (hzeroFree (hfs f hf))
    · exact ih f hf (hx f hf) (hfs f hf)
  | sum ts ih =>
    have hx := (everywhere_sum.mp hx).2
    have hts := exponents_sum.mp he
    exact simplify_derivative_sum_eq_zero fun t ht => ih t ht (hx t ht) (hts t ht)

/-- A root of two times the inverse square of a sum. -/
def rootOverSquare : Expr :=
  prod [pow (num 2) (1 / 2), pow (sum [num 1, sym ⟨'t', by decide⟩]) (-2)]

theorem simplify_derivative_of_lacks_rootOverSquare :
    Lacks ⟨'v', by decide⟩ rootOverSquare ∧
      (rootOverSquare.Exponents fun p => p ≠ 0 ∧ p ≠ 1) ∧
        (rootOverSquare.derivative ⟨'v', by decide⟩).simplify Estimate.root = .ok (num 0) := by
  have hlacks : Lacks ⟨'v', by decide⟩ rootOverSquare := by
    simp [Lacks, rootOverSquare]
  have hexponents : rootOverSquare.Exponents fun p => p ≠ 0 ∧ p ≠ 1 := by
    norm_num [rootOverSquare]
  exact ⟨hlacks, hexponents, simplify_derivative_of_lacks Estimate.root hlacks hexponents⟩

end ExactAlgebra.Expr
