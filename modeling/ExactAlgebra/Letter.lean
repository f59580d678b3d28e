import ExactAlgebra.Scalar

/-!
# Letters

The unknowns of the algebra are the 26 small letters.
-/

namespace ExactAlgebra

/-- A letter from `a` to `z`. -/
structure Letter where
  char : Char
  isLower : 'a' ≤ char ∧ char ≤ 'z'
deriving DecidableEq

namespace Letter

/-- The letter that a character is. -/
def ofChar? (c : Char) : Option Letter :=
  if h : 'a' ≤ c ∧ c ≤ 'z' then some ⟨c, h⟩ else none

/-- The letter that a text of one character is. -/
def ofString? (s : String) : Option Letter :=
  match s.toList with
  | [c] => ofChar? c
  | _ => none

/-- The letter that a scalar names. -/
def ofScalar? (s : Scalar) : Option Letter :=
  s.asText?.bind ofString?

@[ext]
theorem ext {x y : Letter} (h : x.char = y.char) : x = y := by
  cases x; cases y; cases h; rfl

theorem ofChar?_eq_some_iff {c : Char} {x : Letter} : ofChar? c = some x ↔ x.char = c := by
  unfold ofChar?
  split
  · simp [Letter.ext_iff, eq_comm]
  · rename_i h
    constructor
    · simp
    · rintro rfl
      exact absurd x.isLower h

theorem ofString?_eq_some_iff {s : String} {x : Letter} :
    ofString? s = some x ↔ s = String.ofList [x.char] := by
  constructor
  · intro h
    rw [ofString?] at h
    split at h
    · rename_i c hs
      rw [ofChar?_eq_some_iff.mp h, ← hs, String.ofList_toList]
    · cases h
  · rintro rfl
    rw [ofString?, String.toList_ofList]
    exact ofChar?_eq_some_iff.mpr rfl

end Letter

end ExactAlgebra
