import ExactAlgebra.Number.Estimate
import ExactAlgebra.Proofs.Canonical.Failures

/-!
# Reducing twice

A canonical form has a canonical form again, and that is the same one exactly if no power of
exponent one is left in it (`simplify_simplify`). Such a power is left where the exponent was minus
one and the base a number whose first root, which is the number itself, was not found: the exponent
is looked at before it is turned around. The second pass then drops it.
-/

namespace ExactAlgebra.Expr

open Canonical

variable {guess : RootGuess}

/-- The form of a canonical form is the form itself if no power of exponent one is left in it, and
smaller otherwise. -/
theorem eq_or_size_lt {n m : Expr} (hn : Reduced guess n) (h : Yields guess n m) :
    (n.OneFree ∧ m = n) ∨ (¬ n.OneFree ∧ m.size < n.size) := by
  by_cases hone : n.OneFree
  · exact Or.inl ⟨hone, eq_of_yields ⟨hn, hone⟩ h⟩
  · have := size_of_yields h
    have := mt size_le_core_iff.mp hone
    exact Or.inr ⟨hone, by omega⟩

/-- A power of exponent one in a canonical form is of a number that is not found to be its own
root. -/
theorem rationalRoot_of_pow_one {d : Expr} (hd : ReducedNode guess d) {b : Expr}
    (h : d = pow b 1) : ∃ q, b = num q ∧ Root.rationalRoot guess q 1 = .ok none := by
  obtain ⟨q, rfl⟩ := kind_eq_rational_iff.mp (hd.base_of_one b h)
  rcases hd.rootMissing q 1 h with ⟨-, heven⟩ | hnone
  · exact absurd heven (by decide)
  · exact ⟨q, rfl, hnone⟩

/-- A canonical form has a canonical form, which is the same one exactly if no power of exponent one
is left in the first; one that is left is of a number that is not found to be its own root. -/
theorem simplify_simplify {e n : Expr} (h : e.simplify guess = .ok n) :
    (∃ m, n.simplify guess = .ok m) ∧ (n.simplify guess = .ok n ↔ n.OneFree) ∧
      n.Everywhere fun d => ∀ b, d = pow b 1 →
        ∃ q, b = num q ∧ Root.rationalRoot guess q 1 = .ok none := by
  have hn := reduced_of_yields (yields_of_simplifyTraced h)
  obtain ⟨m, hm⟩ := exists_simplify_eq_ok guess hn.zeroFree
  refine ⟨⟨m, hm⟩, ?_, hn.nodes.mono fun d hd b => rationalRoot_of_pow_one hd⟩
  rw [hm, Except.ok.injEq]
  rcases eq_or_size_lt hn (yields_of_simplifyTraced hm) with ⟨hone, rfl⟩ | ⟨hone, hlt⟩
  · exact ⟨fun _ => hone, fun _ => rfl⟩
  · constructor
    · rintro rfl
      exact absurd hlt (lt_irrefl _)
    · exact fun h => absurd h hone

/-- A number of more digits than a guess has: it is not found to be its own root. -/
def wideNumber : Rat := 100000000000000000007

theorem simplify_simplify_wideNumber :
    (pow (num wideNumber) (-1)).simplify Estimate.root = .ok (pow (num wideNumber⁻¹) 1) ∧
      (∃ m, (pow (num wideNumber⁻¹) 1).simplify Estimate.root = .ok m) ∧
        ((pow (num wideNumber⁻¹) 1).simplify Estimate.root = .ok (pow (num wideNumber⁻¹) 1) ↔
          (pow (num wideNumber⁻¹) 1).OneFree) ∧
        (pow (num wideNumber⁻¹) 1).Everywhere fun d => ∀ b, d = pow b 1 →
          ∃ q, b = num q ∧ Root.rationalRoot Estimate.root q 1 = .ok none := by
  refine (fun h => ⟨h, simplify_simplify h⟩) ?_
  decide +kernel

/-- The second pass may change the result of the first. -/
theorem simplify_ne_simplify :
    (pow (num wideNumber) (-1)).simplify Estimate.root = .ok (pow (num wideNumber⁻¹) 1) ∧
      (pow (num wideNumber⁻¹) 1).simplify Estimate.root = .ok (num wideNumber⁻¹) ∧
        num wideNumber⁻¹ ≠ pow (num wideNumber⁻¹) 1 :=
  ⟨by decide +kernel, by decide +kernel, nofun⟩

end ExactAlgebra.Expr
