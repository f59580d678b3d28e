import ExactAlgebra.Number.Estimate
import ExactAlgebra.Proofs.Canonical.Parts
import Mathlib.Algebra.BigOperators.Group.List.Basic
import Mathlib.Algebra.Order.BigOperators.Group.List

/-!
# Canonical forms have no more leaves

The leaves of an expression are its numbers and letters, exponents included. The canonical form of
an expression has at most as many of them as the expression (`leaves_simplify`).

Collecting like terms writes a coefficient, and gathering like factors an exponent. Either is paid
for by the terms or factors that are put together under it (`likeLeaves_add_le`,
`factorLeaves_add_le`). A product that is gathered again is given its number even if that is one, so
the induction is on a bound that does not count what drops out of every form: an exponent of one, a
term zero and a factor one (`leafBound`).
-/

namespace ExactAlgebra

namespace Expr

/-! ### Leaves -/

mutual

/-- The number of numbers and letters in the expression, exponents included. -/
def leaves : Expr → Nat
  | num _ => 1
  | sym _ => 1
  | pow b _ => b.leaves + 1
  | prod fs => leavesAll fs
  | sum ts => leavesAll ts

/-- The leaves of all expressions of a list, added up. -/
def leavesAll : List Expr → Nat
  | [] => 0
  | e :: es => e.leaves + leavesAll es

end

@[simp] theorem leaves_num (q : Rat) : (num q).leaves = 1 := rfl

@[simp] theorem leaves_pow (b : Expr) (p : Rat) : (pow b p).leaves = b.leaves + 1 := rfl

@[simp] theorem leaves_prod (fs : List Expr) : (prod fs).leaves = leavesAll fs := rfl

@[simp] theorem leaves_sum (ts : List Expr) : (sum ts).leaves = leavesAll ts := rfl

@[simp] theorem leavesAll_nil : leavesAll [] = 0 := rfl

@[simp] theorem leavesAll_cons (e : Expr) (es : List Expr) :
    leavesAll (e :: es) = e.leaves + leavesAll es := rfl

theorem leavesAll_eq (es : List Expr) : leavesAll es = (es.map leaves).sum := by
  induction es with
  | nil => rfl
  | cons e es ih => simp [ih]

@[simp] theorem leavesAll_append (as bs : List Expr) :
    leavesAll (as ++ bs) = leavesAll as + leavesAll bs := by
  simp [leavesAll_eq]

theorem leavesAll_perm {as bs : List Expr} (h : as.Perm bs) : leavesAll as = leavesAll bs := by
  rw [leavesAll_eq, leavesAll_eq]
  exact (h.map leaves).sum_eq

@[simp] theorem leaves_ofTerms (ts : List Expr) : (ofTerms ts).leaves = leavesAll ts :=
  leavesAll_perm (sort_perm ts)

@[simp] theorem leaves_ofFactors (fs : List Expr) : (ofFactors fs).leaves = leavesAll fs :=
  leavesAll_perm (sort_perm fs)

@[simp] theorem leavesAll_factors (u : Expr) : leavesAll u.factors = u.leaves := by
  cases u <;> simp [factors]

theorem leaves_le_leavesAll {e : Expr} {es : List Expr} (h : e ∈ es) :
    e.leaves ≤ leavesAll es := by
  rw [leavesAll_eq]
  exact List.single_le_sum (fun _ _ => Nat.zero_le _) _ (List.mem_map_of_mem h)

/-- An expression has a leaf. -/
theorem leaves_pos {e : Expr} (h : e.WellFormed) : 0 < e.leaves := by
  induction e with
  | num | sym => exact Nat.one_pos
  | pow b p => exact Nat.succ_pos _
  | prod es ih | sum es ih =>
    obtain ⟨hlen, -, hes⟩ := h
    obtain ⟨d, hd⟩ := List.exists_mem_of_length_pos (Nat.zero_lt_of_lt hlen)
    exact (ih d hd (allWellFormed_iff.mp hes d hd)).trans_le (leaves_le_leavesAll hd)

/-! ### What the leaves of a form are bounded by -/

mutual

/-- The leaves that count for the canonical form. Those that drop out do not: an exponent of one, a
term zero, a factor one. A form has one leaf at least. -/
def leafBound : Expr → Nat
  | num _ => 1
  | sym _ => 1
  | pow b p => b.leafBound + if p = 1 then 0 else 1
  | prod fs => max 1 (leafBoundBeside 1 fs)
  | sum ts => max 1 (leafBoundBeside 0 ts)

/-- The leaves that count in the expressions of a list, where the number `neutral` drops out. -/
def leafBoundBeside (neutral : Rat) : List Expr → Nat
  | [] => 0
  | e :: es => (if e = num neutral then 0 else e.leafBound) + leafBoundBeside neutral es

end

theorem leafBoundBeside_eq (neutral : Rat) (es : List Expr) :
    leafBoundBeside neutral es =
      (es.map fun e => if e = num neutral then 0 else e.leafBound).sum := by
  induction es with
  | nil => rfl
  | cons e es ih => rw [leafBoundBeside, ih, List.map_cons, List.sum_cons]

theorem leafBoundBeside_perm {neutral : Rat} {as bs : List Expr} (h : as.Perm bs) :
    leafBoundBeside neutral as = leafBoundBeside neutral bs := by
  rw [leafBoundBeside_eq, leafBoundBeside_eq]
  exact (h.map _).sum_eq

theorem leafBoundBeside_le {neutral : Rat} {es : List Expr}
    (h : ∀ e ∈ es, e.leafBound ≤ e.leaves) : leafBoundBeside neutral es ≤ leavesAll es := by
  rw [leafBoundBeside_eq, leavesAll_eq]
  refine List.sum_le_sum fun e he => ?_
  split_ifs
  · exact Nat.zero_le _
  · exact h e he

/-- No more leaves count than there are. -/
theorem leafBound_le_leaves {e : Expr} (h : e.WellFormed) : e.leafBound ≤ e.leaves := by
  induction e with
  | num | sym => exact le_rfl
  | pow b p ih =>
    have := ih h
    rw [leafBound, leaves_pow]
    split_ifs <;> omega
  | prod es ih | sum es ih =>
    have hes := allWellFormed_iff.mp h.2.2
    have hpos := leaves_pos h
    exact max_le hpos (leafBoundBeside_le fun e he => ih e he (hes e he))

end Expr

namespace Canonical

open ExactAlgebra.Expr

variable {guess : RootGuess}

/-! ### Powers -/

/-- A power has a leaf more than its base, unless its exponent is one. -/
theorem leaves_of_power {b n : Expr} {p : Rat} (h : power guess b p = .ok n) :
    n.leaves ≤ b.leaves + if p = 1 then 0 else 1 :=
  le_of_power (fun _ _ => rfl) leaves_pow h

/-! ### Numbers beside other terms and factors -/

/-- The leaves of some expressions, but for those that are the number `neutral`. -/
def leavesBeside (neutral : Rat) (us : List Expr) : Nat :=
  (us.map fun u => if u = .num neutral then 0 else u.leaves).sum

theorem leavesBeside_cons (neutral : Rat) (u : Expr) (us : List Expr) :
    leavesBeside neutral (u :: us) =
      (if u = .num neutral then 0 else u.leaves) + leavesBeside neutral us := by
  rw [leavesBeside, List.map_cons, List.sum_cons, leavesBeside]

theorem leavesBeside_append (neutral : Rat) (us vs : List Expr) :
    leavesBeside neutral (us ++ vs) = leavesBeside neutral us + leavesBeside neutral vs := by
  rw [leavesBeside, List.map_append, List.sum_append, leavesBeside, leavesBeside]

theorem leavesBeside_le (neutral : Rat) (us : List Expr) :
    leavesBeside neutral us ≤ leavesAll us := by
  rw [leavesBeside, leavesAll_eq]
  refine List.sum_le_sum fun u _ => ?_
  split_ifs
  · exact Nat.zero_le _
  · exact le_rfl

theorem leavesAll_besides (c neutral : Rat) :
    leavesAll (besides c neutral) = if c = neutral then 0 else 1 := by
  rw [besides]
  split_ifs <;> rfl

/-- Numbers put together take one leaf, and none if they are all neutral. -/
theorem leavesAll_nonNumbers_add_le {neutral : Rat} {constant : List Expr → Rat}
    (hnil : constant [] = neutral)
    (hneutral : ∀ us, constant (.num neutral :: us) = constant us)
    (hother : ∀ {u} us, u.kind ≠ .rational → constant (u :: us) = constant us) (us : List Expr) :
    leavesAll (nonNumbers us) + leavesAll (besides (constant us) neutral) ≤
      leavesBeside neutral us := by
  induction us with
  | nil =>
    rw [hnil, leavesAll_besides, if_pos rfl]
    exact le_rfl
  | cons u us ih =>
    rw [leavesBeside_cons]
    by_cases hrat : u.kind = .rational
    · obtain ⟨q, rfl⟩ := kind_eq_rational_iff.mp hrat
      rw [nonNumbers_num_cons]
      by_cases hq : q = neutral
      · subst hq
        rw [hneutral, if_pos rfl, Nat.zero_add]
        exact ih
      · have hone : leavesAll (besides (constant (.num q :: us)) neutral) ≤ 1 := by
          rw [leavesAll_besides]
          split_ifs <;> omega
        rw [if_neg fun h => hq (Expr.num.inj h), leaves_num]
        omega
    · have hne : u ≠ .num neutral := fun h => hrat (h ▸ rfl)
      rw [nonNumbers_cons_of_ne us hrat, hother us hrat, if_neg hne, leavesAll_cons]
      omega

/-! ### Splicing -/

theorem leavesBeside_spliced_le (neutral : Rat) (kind : Kind) (u : Expr) :
    leavesBeside neutral (spliced kind [u]) ≤ u.leaves := by
  refine (leavesBeside_le neutral _).trans ?_
  rw [spliced_singleton]
  split_ifs
  · cases u <;> simp [children]
  · simp

/-- The children of a node, reduced and spliced, have no more leaves than count in them. -/
theorem leavesBeside_spliced_map_le {neutral : Rat} {kind : Kind} {es : List Expr}
    {v : Expr → Expr} (hnum : ∀ q, .num q ∈ es → v (.num q) = .num q)
    (hv : ∀ e ∈ es, (v e).leaves ≤ e.leafBound) :
    leavesBeside neutral (spliced kind (es.map v)) ≤ leafBoundBeside neutral es := by
  induction es with
  | nil => exact le_rfl
  | cons e es ih =>
    obtain ⟨he, hes⟩ := List.forall_mem_cons.mp hv
    have ih := ih (fun q hq => hnum q (List.mem_cons_of_mem _ hq)) hes
    have hsplit : spliced kind ((e :: es).map v) =
        spliced kind [v e] ++ spliced kind (es.map v) := spliced_append kind [v e] (es.map v)
    rw [hsplit, leavesBeside_append, leafBoundBeside]
    refine Nat.add_le_add ?_ ih
    split_ifs with hneutral
    · subst hneutral
      rw [hnum neutral List.mem_cons_self, spliced_singleton]
      split_ifs
      · exact le_rfl
      · rw [leavesBeside_cons, if_pos rfl]
        exact le_rfl
    · exact (leavesBeside_spliced_le neutral kind (v e)).trans he

/-! ### Terms -/

theorem leaves_withCoefficient (c : Rat) (k : Expr) :
    (withCoefficient c k).leaves = k.leaves + if c = 1 then 0 else 1 := by
  rw [withCoefficient]
  split_ifs
  · rfl
  · rw [leaves_ofFactors, leavesAll_cons, leavesAll_factors, leaves_num, Nat.add_comm]

/-- The leaves of the terms that a group of like terms comes down to. -/
def likeLeaves : Expr × Rat → Nat
  | (k, c) => if c = 0 then 0 else (withCoefficient c k).leaves

theorem leavesAll_likeTermsOf (g : Expr × Rat) : leavesAll (likeTermsOf g) = likeLeaves g := by
  obtain ⟨k, c⟩ := g
  cases hg : isUnwrapped (k, c) with
  | true =>
    obtain ⟨hsum, rfl⟩ := isUnwrapped_iff.mp hg
    rw [likeTermsOf_of_unwrapped hg, likeLeaves, if_neg one_ne_zero, withCoefficient, if_pos rfl]
    cases k with
    | sum ts => rfl
    | num | sym | pow | prod => cases hsum
  | false =>
    rw [likeTermsOf_of_plain hg, likeLeaves]
    split_ifs <;> simp

/-- Like terms that are put together pay for the coefficient. -/
theorem likeLeaves_add_le (k : Expr) (x y : Rat) (hk : 1 ≤ k.leaves) :
    likeLeaves (k, x + y) ≤ likeLeaves (k, x) + likeLeaves (k, y) := by
  have hlow : ∀ c, k.leaves ≤ (withCoefficient c k).leaves := by
    intro c
    rw [leaves_withCoefficient]
    exact Nat.le_add_right _ _
  have hhigh : ∀ c, (withCoefficient c k).leaves ≤ k.leaves + 1 := by
    intro c
    rw [leaves_withCoefficient]
    split_ifs <;> omega
  exact paid_add_le hk hlow hhigh x y

/-- The entry of a reduced term has the leaves of the term. -/
theorem likeLeaves_entry {u : Expr} (h : Reduced guess u) (hrat : u.kind ≠ .rational) :
    likeLeaves (u.stem, u.coefficient) = u.leaves := by
  obtain ⟨-, h0, hterm⟩ := h.stem_spec hrat
  rw [likeLeaves, if_neg h0, hterm]

theorem leavesAll_flatMap_likeTermsOf (gs : Groups) :
    leavesAll (gs.flatMap likeTermsOf) = Groups.total (· + ·) 0 likeLeaves gs := by
  induction gs with
  | nil => rfl
  | cons g gs ih =>
    rw [List.flatMap_cons, leavesAll_append, ih, leavesAll_likeTermsOf]
    rfl

/-- Collecting terms adds no leaves. -/
theorem leaves_collectedTerms {us : List Expr} (h : ∀ u ∈ us, Reduced guess u) :
    leavesAll (collectedTerms us) ≤ leavesBeside 0 us := by
  have hcollect : Groups.total (· + ·) 0 likeLeaves (Groups.collect (termEntries us)) ≤
      ((nonNumbers us).map leaves).sum := by
    refine total_collect_termEntries_le (P := fun k => 1 ≤ k.leaves) likeLeaves_add_le ?_
    intro u hu hrat
    have hstem := ((h u hu).stem_spec hrat).1.reduced.wellFormed
    exact ⟨leaves_pos hstem, (likeLeaves_entry (h u hu) hrat).le⟩
  have hnumbers : leavesAll (nonNumbers us) + leavesAll (besides (constantTerm us) 0) ≤
      leavesBeside 0 us :=
    leavesAll_nonNumbers_add_le rfl
      (fun us => (constantTerm_num_cons 0 us).trans (zero_add _)) constantTerm_cons_of_ne us
  rw [← leavesAll_eq] at hcollect
  rw [collectedTerms, leavesAll_append, leavesAll_flatMap_likeTermsOf]
  omega

/-! ### Factors -/

/-- The most leaves that the power of a group of like factors has. -/
def factorLeaves : Expr × Rat → Nat
  | (b, p) => if p = 0 then 0 else b.leaves + if p = 1 then 0 else 1

/-- Like factors that are put together pay for the exponent. -/
theorem factorLeaves_add_le (b : Expr) (x y : Rat) (hb : 1 ≤ b.leaves) :
    factorLeaves (b, x + y) ≤ factorLeaves (b, x) + factorLeaves (b, y) := by
  have hlow : ∀ p : Rat, b.leaves ≤ b.leaves + if p = 1 then 0 else 1 :=
    fun _ => Nat.le_add_right _ _
  have hhigh : ∀ p : Rat, (b.leaves + if p = 1 then 0 else 1) ≤ b.leaves + 1 := by
    intro p
    split_ifs <;> omega
  exact paid_add_le hb hlow hhigh x y

theorem factorLeaves_entry_le (u : Expr) : factorLeaves (u.base, u.exponent) ≤ u.leaves := by
  cases u with
  | pow b p =>
    show (if p = 0 then 0 else b.leaves + if p = 1 then 0 else 1) ≤ b.leaves + 1
    split_ifs <;> omega
  | num | sym | prod | sum => simp [factorLeaves, base, exponent]

/-- The groups of some factors have no more leaves than the factors. -/
theorem sum_factorLeaves_le {us : List Expr} (h : ∀ u ∈ us, Reduced guess u) :
    ((live (factorGroups us [])).map factorLeaves).sum ≤ leavesAll (nonNumbers us) := by
  rw [leavesAll_eq]
  exact sum_live_factorGroups_le (P := fun b => 1 ≤ b.leaves) factorLeaves_add_le
    fun u hu hrat => ⟨leaves_pos ((h u hu).isBase hrat).reduced.wellFormed, factorLeaves_entry_le u⟩

theorem leavesAll_besides_mul_le (c d : Rat) :
    leavesAll (besides (c * d) 1) ≤ leavesAll (besides c 1) + leavesAll (besides d 1) := by
  rw [leavesAll_besides, leavesAll_besides, leavesAll_besides]
  by_cases hc : c = 1
  · rw [hc, one_mul]
    exact Nat.le_add_left _ _
  · rw [if_neg hc]
    split_ifs <;> omega

theorem leavesAll_remaining_add (p : Expr) :
    leavesAll (remaining p) + leavesAll (besides (constantOf p) 1) ≤ p.leaves := by
  by_cases hrat : p.kind = .rational
  · obtain ⟨q, rfl⟩ := kind_eq_rational_iff.mp hrat
    rw [remaining, if_pos hrat, leavesAll_besides, leavesAll_nil]
    split_ifs <;> simp
  · rw [remaining, if_neg hrat, constantOf_of_ne hrat, leavesAll_besides, if_pos rfl,
      leavesAll_factors, Nat.add_zero]

/-- What is left of the powers of groups, their number included, has no more leaves than they. -/
theorem leaves_powersOf (w : Expr × Rat → Expr) (gs : Groups) :
    leavesAll (powersOf w gs).factors + leavesAll (besides (powersOf w gs).constant 1) ≤
      ((live gs).map fun g => (w g).leaves).sum := by
  rw [factors_powersOf, constant_powersOf]
  induction live gs with
  | nil => exact le_rfl
  | cons g gs ih =>
    have hg := leavesAll_remaining_add (w g)
    have hmul := leavesAll_besides_mul_le (constantOf (w g))
      ((gs.map fun g => constantOf (w g)).foldr (· * ·) 1)
    rw [List.flatMap_cons, leavesAll_append, List.map_cons, List.foldr_cons, List.map_cons,
      List.sum_cons]
    omega

/-- Gathering factors adds no leaves, if no power has more than it may. -/
theorem leaves_gathered {w : Expr × Rat → Expr} {us : List Expr} (h : ∀ u ∈ us, Reduced guess u)
    (hw : ∀ g ∈ live (factorGroups us []), (w g).leaves ≤ factorLeaves g) :
    leavesAll (gathered w us).factors + leavesAll (besides (gathered w us).constant 1) ≤
      leavesBeside 1 us := by
  have hpowers := leaves_powersOf w (factorGroups us [])
  have hgroups := (List.sum_le_sum hw).trans (sum_factorLeaves_le h)
  have hmul := leavesAll_besides_mul_le (constantFactor us)
    (powersOf w (factorGroups us [])).constant
  have hnumbers : leavesAll (nonNumbers us) + leavesAll (besides (constantFactor us) 1) ≤
      leavesBeside 1 us :=
    leavesAll_nonNumbers_add_le rfl
      (fun us => (constantFactor_num_cons 1 us).trans (one_mul _)) constantFactor_cons_of_ne us
  show leavesAll (powersOf w (factorGroups us [])).factors + leavesAll (besides
    (constantFactor us * (powersOf w (factorGroups us [])).constant) 1) ≤ _
  omega

/-! ### Every result -/

theorem eq_of_yields_num {q : Rat} {n : Expr} (h : Yields guess (.num q) n) : n = .num q := by
  cases h
  rfl

theorem leafBound_group_le {us : List Expr} (h : ∀ u ∈ us, Reduced guess u) :
    ∀ g ∈ live (factorGroups us []), (Expr.pow g.1 g.2).leafBound ≤ factorLeaves g := by
  rintro ⟨b, p⟩ hg
  have hb := (isBase_of_mem_groups h _ (List.mem_filter.mp hg).1).reduced.wellFormed
  rw [factorLeaves, if_neg (ne_zero_of_mem_live hg), leafBound]
  exact Nat.add_le_add_right (leafBound_le_leaves hb) _

/-- The terms of a sum have no more leaves when they are collected. -/
theorem leaves_of_collected {ts terms : List Expr} {v : Expr → Expr} {unwrapped : Bool}
    (hv : ∀ t ∈ ts, Yields guess t (v t)) (hleaves : ∀ t ∈ ts, (v t).leaves ≤ t.leafBound)
    (hterms : collected (spliced .sum (ts.map v)) = .ok (terms, unwrapped)) :
    leavesAll terms ≤ leafBoundBeside 0 ts := by
  obtain ⟨rfl, -⟩ := eq_of_collected (reduced_spliced_of_yields hv) hterms
  exact (leaves_collectedTerms (reduced_spliced_of_yields hv)).trans
    (leavesBeside_spliced_map_le (fun q hq => eq_of_yields_num (hv _ hq)) hleaves)

/-- The factors of a product have no more leaves when they are gathered. -/
theorem leaves_of_gathered {fs : List Expr} {v : Expr → Expr} {w : Expr × Rat → Expr}
    (hv : ∀ f ∈ fs, Yields guess f (v f)) (hleaves : ∀ f ∈ fs, (v f).leaves ≤ f.leafBound)
    (hw : ∀ g ∈ live (factorGroups (spliced .product (fs.map v)) []),
      (w g).leaves ≤ (Expr.pow g.1 g.2).leafBound) :
    leavesAll (gathered w (spliced .product (fs.map v))).factors +
        leavesAll (besides (gathered w (spliced .product (fs.map v))).constant 1) ≤
      leafBoundBeside 1 fs := by
  have hreduced : ∀ u ∈ spliced .product (fs.map v), Reduced guess u := reduced_spliced_of_yields hv
  have hpower := fun g hg => (hw g hg).trans (leafBound_group_le hreduced g hg)
  exact (leaves_gathered hreduced hpower).trans
    (leavesBeside_spliced_map_le (fun q hq => eq_of_yields_num (hv _ hq)) hleaves)

/-- A number in front of reduced factors counts if it is not one. -/
theorem leafBound_ofFactors_concat_le {fs : List Expr} (hfs : ∀ f ∈ fs, Reduced guess f)
    (c : Rat) : (ofFactors (fs ++ [.num c])).leafBound ≤
      max 1 (leavesAll fs + leavesAll (besides c 1)) := by
  have hbound : leafBoundBeside 1 fs ≤ leavesAll fs :=
    leafBoundBeside_le fun f hf => leafBound_le_leaves (hfs f hf).wellFormed
  have hnumber : leafBoundBeside 1 (fs ++ [.num c]) =
      leafBoundBeside 1 fs + leavesAll (besides c 1) := by
    rw [leafBoundBeside_eq, List.map_append, List.sum_append, ← leafBoundBeside_eq,
      leavesAll_besides, List.map_singleton, List.sum_singleton]
    simp [leafBound]
  rw [ofFactors, leafBound, leafBoundBeside_perm (sort_perm _), hnumber]
  exact max_le_max le_rfl (Nat.add_le_add_right hbound _)

/-- A result has at most as many leaves as count in the expression. -/
theorem leaves_of_yields {e n : Expr} (h : Yields guess e n) : n.leaves ≤ e.leafBound := by
  induction h with
  | num q => exact le_rfl
  | sym x => exact le_rfl
  | @pow b b' n p _ hn ih =>
    have := leaves_of_power hn
    rw [leafBound]
    omega
  | @sum ts terms n v hv hterms hn ih =>
    have hleaves := leaves_of_collected hv ih hterms
    rw [leafBound]
    rcases total_eq_ok hn with ⟨-, rfl⟩ | rfl | ⟨-, rfl⟩
    · exact le_max_left _ _
    · exact le_max_of_le_right hleaves
    · rw [leaves_ofTerms]
      exact le_max_of_le_right hleaves
  | @sumAgain ts terms d n v hv hterms hd _ ih ihd =>
    have hleaves := leaves_of_collected hv ih hterms
    obtain ⟨-, rfl⟩ := eq_of_sumAgain hv hterms hd
    obtain ⟨rfl, -⟩ := eq_of_collected (reduced_spliced_of_yields hv) hterms
    have hreduced : ∀ t ∈ collectedTerms (spliced .sum (ts.map v)), Reduced guess t :=
      reduced_collectedTerms (reduced_spliced_of_yields hv)
    have hbound : leafBoundBeside 0 (collectedTerms (spliced .sum (ts.map v))) ≤
        leavesAll (collectedTerms (spliced .sum (ts.map v))) :=
      leafBoundBeside_le fun t ht => leafBound_le_leaves (hreduced t ht).wellFormed
    refine ihd.trans ?_
    rw [ofTerms, leafBound, leafBoundBeside_perm (sort_perm _), leafBound]
    exact max_le_max le_rfl (hbound.trans hleaves)
  | prodZero => exact le_max_left _ _
  | @prod fs ps n v w hv _ hps _ _ hn ih ihw =>
    have hleaves := leaves_of_gathered hv ih ihw
    rw [← hps, ← leavesAll_append] at hleaves
    rw [leafBound]
    rcases productOr_eq_ok hn with ⟨-, rfl⟩ | hone | ⟨-, rfl⟩
    · exact le_max_left _ _
    · rw [hone] at hleaves
      exact le_max_of_le_right hleaves
    · rw [leaves_ofFactors]
      exact le_max_of_le_right hleaves
  | @prodAgain fs ps d n v w hv hw hps _ _ hd _ ih ihw ihd =>
    have hleaves := leaves_of_gathered hv ih ihw
    -- the number in front may be one: then it is a leaf of the new product, but does not count
    obtain ⟨-, rfl⟩ := prodOf_eq_ok_iff.mp hd
    subst hps
    have hreduced := reduced_factors_powersOf fun g hg => reduced_of_yields (hw g hg)
    refine (ihd.trans (leafBound_ofFactors_concat_le hreduced _)).trans ?_
    rw [leafBound]
    exact max_le_max le_rfl hleaves

end Canonical

namespace Expr

open Canonical

variable {guess : RootGuess}

/-- The canonical form of an expression has at most as many leaves as the expression. -/
theorem leaves_simplify {e n : Expr} (hwf : e.WellFormed) (h : e.simplify guess = .ok n) :
    n.leaves ≤ e.leaves :=
  (leaves_of_yields (yields_of_within h)).trans (leafBound_le_leaves hwf)

/-- Roots of twice a letter, multiplied: the factors of the product under the root are gathered
again. -/
def rootsOfTwice : List Expr :=
  let root := pow (ofFactors [num 2, sym ⟨'i', by decide⟩]) (1 / 2)
  [root, root]

theorem leaves_simplify_rootsOfTwice :
    (ofFactors rootsOfTwice).WellFormed ∧
      (ofFactors rootsOfTwice).simplify Estimate.root =
        .ok (ofFactors [num 2, sym ⟨'i', by decide⟩]) ∧
      (ofFactors [num 2, sym ⟨'i', by decide⟩]).leaves ≤ (ofFactors rootsOfTwice).leaves := by
  have hwf : (ofFactors rootsOfTwice).WellFormed := by
    have htwice : (ofFactors [num 2, sym ⟨'i', by decide⟩]).WellFormed := by
      refine wellFormed_ofFactors (List.forall_mem_cons.mpr ⟨trivial, ?_⟩) le_rfl
      exact List.forall_mem_singleton.mpr trivial
    exact wellFormed_ofFactors
      (List.forall_mem_cons.mpr ⟨htwice, List.forall_mem_singleton.mpr htwice⟩) le_rfl
  refine (fun h => ⟨hwf, h, leaves_simplify hwf h⟩) ?_
  decide +kernel

end Expr

end ExactAlgebra
