import ExactAlgebra.Proofs.Expansion.Distribution

/-!
# Expansion ends

A power with a whole number in its exponent is expanded by visiting a product of so many copies of
its expanded base. That product may be larger than the power, so the visits do not follow the
structure of the expression (`visit`).

They end all the same. An expansion has only unit fractions as exponents (`exponents_expand`), and
so have copies of it multiplied; in such an expression no visit repeats a base, and the visits go to
children only (`expanded_of_exponents`). So a repeated base is visited once more and not again, and
the visits of any expression come to its expansion at some depth (`expandWithin_eq_expand`).
-/

namespace ExactAlgebra.Expr

/-! ### Visits -/

/-- The visit of an expression, where `again` visits the expressions that it goes on to. What is
repeated for a power is its base when it has been visited. -/
def visit (again : Expr → Option Expr) : Expr → Option Expr
  | num q => some (num q)
  | sym x => some (sym x)
  | pow b p => do
    let b ← again b
    if p = 1 then return b
    else if p = 0 then return num 1
    else if 1 < p.num.natAbs then
      let repeated ← again (ofFactors (List.replicate p.num.natAbs b))
      if residue p = 1 then return repeated else return pow repeated (residue p)
    else return pow b p
  | prod fs => do return multiplyOut (← fs.mapM again)
  | sum ts => do return ofTerms (← ts.mapM again)

/-- The visit of an expression, with visits that nest at most so deep. -/
def expandWithin : (depth : Nat) → Expr → Option Expr
  | 0, _ => none
  | depth + 1, e => visit (expandWithin depth) e

/-- The expressions that the visit of an expression goes on to, where each visit comes to the
expansion. -/
def visited : Expr → List Expr
  | num _ => []
  | sym _ => []
  | pow b p =>
    if 1 < p.num.natAbs then [b, ofFactors (List.replicate p.num.natAbs b.expand)] else [b]
  | prod fs => fs
  | sum ts => ts

/-- A computation on each element that is sure of its result. -/
theorem mapM_eq_pure_map {m : Type → Type} [Monad m] [LawfulMonad m] {α β : Type}
    {again : α → m β} {f : α → β} {as : List α} (h : ∀ a ∈ as, again a = pure (f a)) :
    as.mapM again = pure (as.map f) := by
  induction as with
  | nil => rfl
  | cons a as ih =>
    obtain ⟨ha, has⟩ := List.forall_mem_cons.mp h
    rw [List.mapM_cons, ha, ih has, pure_bind, pure_bind, List.map_cons]

/-- A visit comes to the expansion if those do that it goes on to. -/
theorem visit_eq_expand {again : Expr → Option Expr} {e : Expr}
    (h : ∀ d ∈ e.visited, again d = some d.expand) : visit again e = some e.expand := by
  cases e with
  | num | sym => rfl
  | pow b p =>
    have hb : again b = some b.expand := h b (by rw [visited]; split_ifs <;> simp)
    rw [visit, hb]
    by_cases hlt : 1 < p.num.natAbs
    · have hcopies := h (ofFactors (List.replicate p.num.natAbs b.expand)) (by simp [visited, hlt])
      obtain ⟨h1, h0⟩ := ne_one_and_ne_zero hlt
      rw [expand_pow_of_one_lt b hlt]
      simp only [Option.bind_eq_bind, Option.bind_some, if_neg h1, if_neg h0, if_pos hlt, hcopies]
      split_ifs <;> rfl
    · rw [expand_pow, expandPower, if_neg hlt]
      simp only [Option.bind_eq_bind, Option.bind_some, if_neg hlt]
      split_ifs <;> rfl
  | prod fs =>
    have hfs : ∀ f ∈ fs, again f = some f.expand := h
    rw [visit, mapM_eq_pure_map hfs, expand_prod]
    rfl
  | sum ts =>
    have hts : ∀ t ∈ ts, again t = some t.expand := h
    rw [visit, mapM_eq_pure_map hts, expand_sum]
    rfl

/-! ### The depth of visits -/

/-- The visits of the expression end, at some depth, and come to its expansion. -/
def Expanded (e : Expr) : Prop :=
  ∃ k, ∀ depth, k ≤ depth → expandWithin depth e = some e.expand

/-- Finitely many expressions have one depth at which the visits of all of them end. -/
theorem exists_depth {ds : List Expr} (h : ∀ d ∈ ds, d.Expanded) :
    ∃ k, ∀ depth, k ≤ depth → ∀ d ∈ ds, expandWithin depth d = some d.expand := by
  induction ds with
  | nil => exact ⟨0, by simp⟩
  | cons d ds ih =>
    obtain ⟨⟨k, hk⟩, hds⟩ := List.forall_mem_cons.mp h
    obtain ⟨l, hl⟩ := ih hds
    refine ⟨max k l, fun depth hdepth => List.forall_mem_cons.mpr ⟨?_, ?_⟩⟩
    · exact hk depth ((le_max_left k l).trans hdepth)
    · exact hl depth ((le_max_right k l).trans hdepth)

theorem expanded_of_visited {e : Expr} (h : ∀ d ∈ e.visited, d.Expanded) : e.Expanded := by
  obtain ⟨k, hk⟩ := exists_depth h
  refine ⟨k + 1, fun depth hdepth => ?_⟩
  obtain ⟨depth, rfl⟩ := Nat.exists_eq_add_of_le' (Nat.one_le_of_lt hdepth)
  exact visit_eq_expand (hk depth (Nat.le_of_succ_le_succ hdepth))

/-- Where all exponents are unit fractions, no base is repeated. -/
theorem expanded_of_exponents {e : Expr} (h : e.Exponents IsUnitFraction) : e.Expanded := by
  induction e with
  | num | sym => exact expanded_of_visited nofun
  | pow b p ih =>
    obtain ⟨hp, hb⟩ := exponents_pow.mp h
    refine expanded_of_visited ?_
    rw [visited, if_neg (by rw [hp.1]; exact Nat.lt_irrefl 1)]
    exact List.forall_mem_singleton.mpr (ih hb)
  | prod fs ih =>
    have hfs := exponents_prod.mp h
    exact expanded_of_visited fun f hf => ih f hf (hfs f hf)
  | sum ts ih =>
    have hts := exponents_sum.mp h
    exact expanded_of_visited fun t ht => ih t ht (hts t ht)

/-- The visits of every expression end. -/
theorem expanded (e : Expr) : e.Expanded := by
  induction e with
  | num | sym => exact expanded_of_visited nofun
  | pow b p ih =>
    have hcopies : (ofFactors (List.replicate p.num.natAbs b.expand)).Exponents IsUnitFraction :=
      exponents_ofFactors.mpr fun f hf => List.eq_of_mem_replicate hf ▸ exponents_expand b
    refine expanded_of_visited ?_
    rw [visited]
    split_ifs
    · exact List.forall_mem_cons.mpr
        ⟨ih, List.forall_mem_singleton.mpr (expanded_of_exponents hcopies)⟩
    · exact List.forall_mem_singleton.mpr ih
  | prod fs ih | sum fs ih => exact expanded_of_visited ih

/-! ### What the exponents are -/

theorem IsUnitFraction.eq_div {p : Rat} (h : IsUnitFraction p) :
    ∃ d : ℕ, (2 ≤ d ∧ p = 1 / d) ∨ (1 ≤ d ∧ p = -1 / d) := by
  obtain ⟨hnum, h1⟩ := h
  refine ⟨p.den, ?_⟩
  have hp : (p.num : Rat) / p.den = p := Rat.num_div_den p
  rcases Int.natAbs_eq_iff.mp hnum with hone | hone
  · rw [hone, Nat.cast_one, Int.cast_one] at hp
    have hden : p.den ≠ 1 := by
      intro hden
      rw [hden, Nat.cast_one, div_one] at hp
      exact h1 hp.symm
    have := p.den_pos
    exact Or.inl ⟨by omega, hp.symm⟩
  · rw [hone, Nat.cast_one, Int.cast_neg, Int.cast_one] at hp
    exact Or.inr ⟨p.den_pos, hp.symm⟩

/-- The visits of an expression end, at some depth, with its expansion, and the exponents in that
are one over a whole number from two on, or minus one over a whole number from one on. -/
theorem expandWithin_eq_expand (e : Expr) :
    (∃ k, ∀ depth, k ≤ depth → expandWithin depth e = some e.expand) ∧
      ∀ b p, pow b p ∈ e.expand.nodes →
        ∃ d : ℕ, (2 ≤ d ∧ p = 1 / d) ∨ (1 ≤ d ∧ p = -1 / d) := by
  refine ⟨e.expanded, fun b p hmem => ?_⟩
  have hexponents := everywhere_iff_forall_mem_nodes.mp (exponents_expand e)
  exact (hexponents _ hmem b p rfl).eq_div

/-- The square of a root: the visit of its copies nests a level deeper than that of the root. -/
example :
    let root := pow (sym ⟨'l', by decide⟩) (1 / 2)
    expandWithin 3 (pow root 2) = none ∧
      expandWithin 4 (pow root 2) = some (pow root 2).expand := by
  decide +kernel

end ExactAlgebra.Expr
