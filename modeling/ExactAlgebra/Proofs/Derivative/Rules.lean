import ExactAlgebra.Derivative
import ExactAlgebra.Proofs.Nodes

/-!
# What a derivative is made of

The product rule writes down one product for each factor, in which the derivative of that factor
stands in its place (`forall_mem_replaceEach_iff`). So a derivative is made of parts of the
expression, of the derivatives of all its factors and terms, and of the powers of the power rule.
What all powers of an expression have, those of its derivative have exactly if the power rule keeps
it (`powers_derivative_iff`).
-/

namespace ExactAlgebra.Expr

/-! ### Replacing one member of a list -/

theorem length_replaceEach {fs ds : List Expr} (h : fs.length = ds.length) :
    (replaceEach fs ds).length = fs.length := by
  induction fs generalizing ds with
  | nil => rfl
  | cons f fs ih =>
    cases ds with
    | nil => cases h
    | cons d ds => simp [replaceEach, ih (Nat.succ.inj h)]

theorem length_of_mem_replaceEach {fs ds l : List Expr} (h : l ∈ replaceEach fs ds) :
    l.length = fs.length := by
  induction fs generalizing ds l with
  | nil => cases h
  | cons f fs ih =>
    cases ds with
    | nil => cases h
    | cons d ds =>
      simp only [replaceEach, List.mem_cons, List.mem_map] at h
      obtain rfl | ⟨k, hk, rfl⟩ := h
      · rfl
      · simp [ih hk]

/-- Every list has a member of the second list in it. -/
theorem exists_mem_of_mem_replaceEach {fs ds l : List Expr} (h : l ∈ replaceEach fs ds) :
    ∃ d ∈ ds, d ∈ l := by
  induction fs generalizing ds l with
  | nil => cases h
  | cons f fs ih =>
    cases ds with
    | nil => cases h
    | cons d ds =>
      simp only [replaceEach, List.mem_cons, List.mem_map] at h
      obtain rfl | ⟨k, hk, rfl⟩ := h
      · exact ⟨d, List.mem_cons_self, List.mem_cons_self⟩
      · obtain ⟨d', hd', hmem⟩ := ih hk
        exact ⟨d', List.mem_cons_of_mem _ hd', List.mem_cons_of_mem _ hmem⟩

/-- The lists are made of the members of the two lists, and every member of the second is in one. -/
theorem forall_mem_replaceEach_iff {P : Expr → Prop} {fs ds : List Expr}
    (hlen : fs.length = ds.length) (hfs : ∀ f ∈ fs, P f) :
    (∀ l ∈ replaceEach fs ds, ∀ e ∈ l, P e) ↔ ∀ d ∈ ds, P d := by
  induction fs generalizing ds with
  | nil =>
    cases ds with
    | nil => simp [replaceEach]
    | cons d ds => cases hlen
  | cons f fs ih =>
    cases ds with
    | nil => cases hlen
    | cons d ds =>
      rw [List.forall_mem_cons] at hfs
      obtain ⟨hf, hfs⟩ := hfs
      simp only [replaceEach, List.forall_mem_cons, List.forall_mem_map, hf, true_and]
      rw [ih (Nat.succ.inj hlen) hfs]
      exact and_congr_left fun _ => and_iff_left hfs

/-! ### The rules -/

variable {x : Letter}

theorem derivatives_eq_map (x : Letter) (es : List Expr) :
    derivatives x es = es.map (derivative x) := by
  induction es with
  | nil => rfl
  | cons e es ih => rw [derivatives, ih, List.map_cons]

theorem derivative_sum (ts : List Expr) :
    (sum ts).derivative x = ofTerms (ts.map (derivative x)) := by
  rw [derivative, derivatives_eq_map]

theorem derivative_prod (fs : List Expr) :
    (prod fs).derivative x = ofTerms ((replaceEach fs (fs.map (derivative x))).map ofFactors) := by
  rw [derivative, derivatives_eq_map]

theorem derivative_pow (b : Expr) (p : Rat) :
    (pow b p).derivative x = ofFactors [num p, pow b (p - 1), b.derivative x] := by
  rw [derivative, Rational.add_eq, Rat.sub_eq_add_neg]

theorem wellFormed_derivative {e : Expr} (h : e.WellFormed) : (e.derivative x).WellFormed := by
  induction e with
  | num q => exact trivial
  | sym y =>
    rw [derivative]
    split
    · exact trivial
    · exact trivial
  | pow b p ih =>
    rw [derivative_pow]
    refine wellFormed_ofFactors ?_ (by simp)
    simpa using ⟨trivial, h, ih h⟩
  | prod fs ih =>
    obtain ⟨hlen, -, hfs⟩ := h
    rw [allWellFormed_iff] at hfs
    have hlen' : fs.length = (fs.map (derivative x)).length := by simp
    have hparts : ∀ l ∈ replaceEach fs (fs.map (derivative x)), ∀ e ∈ l, e.WellFormed := by
      rw [forall_mem_replaceEach_iff hlen' hfs, List.forall_mem_map]
      exact fun f hf => ih f hf (hfs f hf)
    rw [derivative_prod]
    refine wellFormed_ofTerms (List.forall_mem_map.mpr fun l hl => ?_) ?_
    · refine wellFormed_ofFactors (hparts l hl) ?_
      rwa [length_of_mem_replaceEach hl]
    · rwa [List.length_map, length_replaceEach hlen']
  | sum ts ih =>
    rw [derivative_sum]
    exact wellFormed_ofTerms_map h ih

/-- What all powers of an expression have, those of its derivative have exactly if it is not lost
when the exponent of a power is lowered by one: the product rule leaves no power out. -/
theorem powers_derivative_iff {P : Expr → Rat → Prop} {e : Expr} (h : e.Powers P) :
    (e.derivative x).Powers P ↔ e.Powers fun b p => P b (p - 1) := by
  induction e with
  | num q => simp [derivative]
  | sym y =>
    rw [derivative]
    split
    · simp
    · simp
  | pow b p ih =>
    obtain ⟨-, hb⟩ := powers_pow.mp h
    rw [derivative_pow, powers_ofFactors]
    simp [hb, ih hb]
  | prod fs ih =>
    rw [powers_prod] at h
    rw [derivative_prod, powers_ofTerms, List.forall_mem_map]
    simp only [powers_ofFactors]
    rw [forall_mem_replaceEach_iff (by simp) h, List.forall_mem_map, powers_prod]
    exact forall₂_congr fun f hf => ih f hf (h f hf)
  | sum ts ih =>
    rw [powers_sum] at h
    rw [derivative_sum, powers_ofTerms, List.forall_mem_map, powers_sum]
    exact forall₂_congr fun t ht => ih t ht (h t ht)

end ExactAlgebra.Expr
