import ExactAlgebra.Proofs.Canonical.Idempotence
import ExactAlgebra.Proofs.Canonical.Parts

/-!
# Normal forms

An expression is in normal form if nothing is left to do at any of its nodes (`SettledNode`). That
is said of the expression alone, without reference to the pass, and exactly the expressions in
normal form are left as they are by it (`simplify_eq_self_iff`).

A settled node is a reduced one that is no power of exponent one. So the expressions in normal form
are the irreducible ones (`irreducible_iff`).
-/

namespace ExactAlgebra.Canonical

open ExactAlgebra.Expr

variable {guess : RootGuess}

/-- Nothing is left to do at the node: it is normal and no power of exponent one, and if it is a
power of a number, the root of the number is missing. -/
structure SettledNode (guess : RootGuess) (e : Expr) : Prop where
  normal : e.NormalNode
  exponent_ne_one : ∀ b, e ≠ .pow b 1
  rootMissing : ∀ q p, e = .pow (.num q) p → RootMissing guess q p

theorem SettledNode.reducedNode {e : Expr} (h : SettledNode guess e) : ReducedNode guess e where
  normal := h.normal
  rootMissing := h.rootMissing
  base_of_one b he := absurd he (h.exponent_ne_one b)

/-- The irreducible expressions are those in normal form. -/
theorem irreducible_iff {e : Expr} (hwf : e.WellFormed) :
    Irreducible guess e ↔ e.Everywhere (SettledNode guess) := by
  constructor
  · rintro ⟨hreduced, hone⟩
    refine (everywhere_and.mpr ⟨hreduced.nodes, hone⟩).mono ?_
    rintro d ⟨hd, hd1⟩
    exact ⟨hd.normal, hd1, hd.rootMissing⟩
  · intro h
    exact ⟨⟨hwf, h.mono fun _ => SettledNode.reducedNode⟩, h.mono fun _ hd => hd.exponent_ne_one⟩

end ExactAlgebra.Canonical

namespace ExactAlgebra.Expr

open Canonical

variable {guess : RootGuess}

/-- The expressions that have themselves as their canonical form are exactly those in normal
form. -/
theorem simplify_eq_self_iff {e : Expr} (hwf : e.WellFormed) :
    e.simplify guess = .ok e ↔ e.Everywhere (SettledNode guess) := by
  rw [← irreducible_iff hwf]
  constructor
  · intro h
    have hyields := yields_of_simplifyTraced h
    have hreduced := reduced_of_yields hyields
    rcases eq_or_size_lt hreduced hyields with ⟨hone, -⟩ | ⟨-, hlt⟩
    · exact ⟨hreduced, hone⟩
    · exact absurd hlt (lt_irrefl _)
  · exact simplify_of_irreducible

/-- A sum of a number, a power, and a product of a number, a root of two and a letter. -/
def settledSum : Expr :=
  ofTerms [num 3, pow (sym ⟨'j', by decide⟩) (-1 / 2),
    ofFactors [num (-2), pow (num 2) (1 / 2), sym ⟨'j', by decide⟩]]

theorem simplify_settledSum :
    settledSum.WellFormed ∧ settledSum.Everywhere (SettledNode Estimate.root) ∧
      settledSum.simplify Estimate.root = .ok settledSum := by
  have hwf : settledSum.WellFormed := by
    have hproduct :
        (ofFactors [num (-2), pow (num 2) (1 / 2), sym ⟨'j', by decide⟩]).WellFormed :=
      wellFormed_ofFactors (by simp [WellFormed]) (by decide)
    refine wellFormed_ofTerms (List.forall_mem_cons.mpr ⟨trivial, ?_⟩) (by decide)
    exact List.forall_mem_cons.mpr ⟨trivial, List.forall_mem_singleton.mpr hproduct⟩
  refine (fun h => ⟨hwf, (simplify_eq_self_iff hwf).mp h, h⟩) ?_
  decide +kernel

end ExactAlgebra.Expr
