import ExactAlgebra.Canonical.Parts
import ExactAlgebra.Proofs.Nodes
import Mathlib.Algebra.Group.End

/-!
# Renaming letters

A permutation of the letters renames an expression. The renamed expression is built anew, since
other names have another order (`rename`). What it is made of is the same but for names and order:
its children are a permutation of the renamed children (`children_rename_perm`).

On well-formed expressions renaming can be undone, so different ones stay different
(`eq_of_rename_eq`).
-/

namespace ExactAlgebra.Expr

variable (s t : Equiv.Perm Letter)

/-! ### Renamed expressions -/

mutual

/-- The expression with its letters renamed, built anew with its children in order. -/
def rename : Expr → Expr
  | num q => num q
  | sym x => sym (s x)
  | pow b p => pow b.rename p
  | prod fs => ofFactors (renameAll fs)
  | sum ts => ofTerms (renameAll ts)

/-- The expressions of a list with their letters renamed. -/
def renameAll : List Expr → List Expr
  | [] => []
  | e :: es => e.rename :: renameAll es

end

theorem renameAll_eq_map (es : List Expr) : renameAll s es = es.map (rename s) := by
  induction es with
  | nil => rfl
  | cons e es ih => rw [renameAll, ih, List.map_cons]

@[simp] theorem rename_num (q : Rat) : (num q).rename s = num q := rfl

@[simp] theorem rename_pow (b : Expr) (p : Rat) : (pow b p).rename s = pow (b.rename s) p := rfl

theorem rename_prod (fs : List Expr) : (prod fs).rename s = ofFactors (fs.map (rename s)) := by
  rw [rename, renameAll_eq_map]

theorem rename_sum (ts : List Expr) : (sum ts).rename s = ofTerms (ts.map (rename s)) := by
  rw [rename, renameAll_eq_map]

theorem rename_ofFactors (fs : List Expr) :
    (ofFactors fs).rename s = ofFactors (fs.map (rename s)) := by
  rw [ofFactors, rename_prod, ofFactors, sort_eq_of_perm ((sort_perm fs).map _), ofFactors]

theorem rename_ofTerms (ts : List Expr) :
    (ofTerms ts).rename s = ofTerms (ts.map (rename s)) := by
  rw [ofTerms, rename_sum, ofTerms, sort_eq_of_perm ((sort_perm ts).map _), ofTerms]

/-- Two letters of a product change places, and are put in order again. -/
example :
    (prod [sym ⟨'m', by decide⟩, sym ⟨'n', by decide⟩]).rename
        (Equiv.swap ⟨'m', by decide⟩ ⟨'n', by decide⟩) =
      prod [sym ⟨'m', by decide⟩, sym ⟨'n', by decide⟩] := by
  decide

/-! ### What is the same under other names -/

@[simp] theorem kind_rename (e : Expr) : (e.rename s).kind = e.kind := by
  cases e <;> rfl

theorem rename_eq_num_iff {e : Expr} {q : Rat} : e.rename s = num q ↔ e = num q := by
  cases e with
  | num p => exact Iff.rfl
  | sym | pow | prod | sum => exact iff_of_false nofun nofun

theorem base_rename (u : Expr) : (u.rename s).base = u.base.rename s := by
  cases u <;> rfl

theorem exponent_rename (u : Expr) : (u.rename s).exponent = u.exponent := by
  cases u <;> rfl

/-- The children of a renamed node are the renamed children, in order again. -/
theorem children_rename_perm (e : Expr) :
    (e.rename s).children.Perm (e.children.map (rename s)) := by
  cases e with
  | num | sym | pow => exact .refl _
  | prod es | sum es =>
    rw [rename, renameAll_eq_map]
    exact sort_perm _

theorem factors_rename_perm (u : Expr) : (u.rename s).factors.Perm (u.factors.map (rename s)) := by
  cases u with
  | prod fs => exact children_rename_perm s (prod fs)
  | num | sym | pow | sum => exact .refl _

/-- What is built anew is well formed. -/
theorem wellFormed_rename {e : Expr} (h : e.WellFormed) : (e.rename s).WellFormed := by
  induction e with
  | num | sym => exact h
  | pow b p ih => exact ih h
  | prod fs ih =>
    obtain ⟨hlen, -, hfs⟩ := h
    rw [allWellFormed_iff] at hfs
    rw [rename_prod]
    refine wellFormed_ofFactors (List.forall_mem_map.mpr fun f hf => ih f hf (hfs f hf)) ?_
    rwa [List.length_map]
  | sum ts ih =>
    rw [rename_sum]
    exact wellFormed_ofTerms_map h ih

/-! ### Renaming and renaming back -/

/-- Renaming twice is renaming by one permutation after the other. -/
theorem rename_rename (e : Expr) : (e.rename s).rename t = e.rename (t * s) := by
  induction e with
  | num | sym => rfl
  | pow b p ih => rw [rename_pow, rename_pow, ih, rename_pow]
  | prod es ih =>
    rw [rename_prod, rename_ofFactors, List.map_map, rename_prod]
    exact congrArg ofFactors (List.map_congr_left ih)
  | sum es ih =>
    rw [rename_sum, rename_ofTerms, List.map_map, rename_sum]
    exact congrArg ofTerms (List.map_congr_left ih)

/-- A well-formed expression is as it is built anew. -/
theorem rename_one {e : Expr} (h : e.WellFormed) : e.rename 1 = e := by
  induction e with
  | num | sym => rfl
  | pow b p ih => rw [rename_pow, ih h]
  | prod es ih =>
    obtain ⟨-, hsorted, hes⟩ := h
    rw [allWellFormed_iff] at hes
    rw [rename_prod, List.map_congr_left fun e he => ih e he (hes e he), List.map_id', ofFactors,
      sort_eq_self hsorted]
  | sum es ih =>
    obtain ⟨-, hsorted, hes⟩ := h
    rw [allWellFormed_iff] at hes
    rw [rename_sum, List.map_congr_left fun e he => ih e he (hes e he), List.map_id', ofTerms,
      sort_eq_self hsorted]

/-- Different expressions have different names. -/
theorem eq_of_rename_eq {d e : Expr} (hd : d.WellFormed) (he : e.WellFormed)
    (h : d.rename s = e.rename s) : d = e := by
  have hback := congrArg (rename s⁻¹) h
  rwa [rename_rename, rename_rename, inv_mul_cancel, rename_one hd, rename_one he] at hback

end ExactAlgebra.Expr
