import ExactAlgebra.Expr.Order
import ExactAlgebra.Number.Rational

/-!
# Groups

Amounts collected under keys, in the order in which the keys first appeared. Adding an amount under
a key that is there leaves the order as it is; a new key goes to the end.
-/

namespace ExactAlgebra

/-- Amounts under keys, each key once. -/
abbrev Groups := List (Expr × Rat)

namespace Groups

/-- Adds an amount under a key. -/
def add (key : Expr) (amount : Rat) : Groups → Groups
  | [] => [(key, amount)]
  | (k, a) :: gs => if k = key then (k, Rational.add a amount) :: gs else (k, a) :: add key amount gs

/-- The amount under a key, zero where there is none. -/
def amount (key : Expr) : Groups → Rat
  | [] => 0
  | (k, a) :: gs => if k = key then a else amount key gs

/-- The amounts counted under each key of a list, one for each time it appears. -/
def count (keys : List Expr) : Groups :=
  keys.foldl (fun gs k => gs.add k 1) []

/-- The keys after an addition: a new one comes last. -/
theorem keys_add (key : Expr) (a : Rat) (gs : Groups) :
    (gs.add key a).map Prod.fst =
      if key ∈ gs.map Prod.fst then gs.map Prod.fst else gs.map Prod.fst ++ [key] := by
  induction gs with
  | nil => simp [add]
  | cons g gs ih =>
    obtain ⟨k, b⟩ := g
    simp only [add]
    split
    · rename_i h
      simp [h]
    · rename_i h
      simp only [List.map_cons, ih, List.mem_cons, Ne.symm h, false_or]
      split <;> rfl

/-- An addition changes the amount under its own key, and no other. -/
theorem amount_add (key other : Expr) (a : Rat) (gs : Groups) :
    (gs.add key a).amount other = gs.amount other + (if other = key then a else 0) := by
  induction gs with
  | nil =>
    rw [add, amount, amount, Rat.zero_add]
    simp only [amount, eq_comm]
  | cons g gs ih =>
    obtain ⟨k, b⟩ := g
    simp only [add]
    split
    · rename_i h
      subst h
      simp only [amount]
      by_cases hk : k = other
      · rw [if_pos hk, if_pos hk, if_pos hk.symm, Rational.add_eq]
      · rw [if_neg hk, if_neg hk, if_neg (Ne.symm hk), Rat.add_zero]
    · rename_i h
      simp only [amount]
      split
      · rename_i hk
        subst hk
        rw [if_neg h, Rat.add_zero]
      · exact ih

end Groups

end ExactAlgebra
