import ExactAlgebra.Expr.Cases
import ExactAlgebra.Proofs.Canonical.Termination
import ExactAlgebra.Proofs.Derivative.Rules
import ExactAlgebra.Proofs.Expansion.Termination
import ExactAlgebra.Proofs.Text.TreeForm

/-!
# The passes by cases

What a pass makes of an expression goes by the kind of its root, and by what the pass makes of the
expressions that it goes on to. The case table of each pass says so, and builds its nodes with the
builders that refuse a sum or product of fewer than two children.

The passes do not look into their tables. That they do as these say is shown for every expression
that is well formed (`handled_of_wellFormed`): each table has an entry for it, no builder refuses
what the entry makes, and the pass goes on to well formed expressions only.
-/

namespace ExactAlgebra

namespace Margin

/-- The margin of the lines below a child. -/
def under (m : Margin) (last : Bool) : Margin where
  chars := m.chars ++ Expr.branchColumn last
  isPlain := by
    have hcolumn : (Expr.branchColumn last).all isMarginChar := by
      cases last <;> decide
    rw [List.all_append, m.isPlain, hcolumn]
    rfl

end Margin

namespace CaseTable

/-! ### Texts -/

/-- The sign of a node and its children in brackets. -/
def bracketed (below : Expr → String) (e : Expr) : String :=
  String.ofList e.kind.sign?.toList ++ "(" ++ ", ".intercalate (e.children.map below) ++ ")"

/-- The linear form, where `below` writes the children. -/
def linear (below : Expr → String) : CaseTable String :=
  { texts with
    name := "LinearForm"
    onPow? := some fun b e => bracketed below (.pow b e)
    onProd? := some fun fs => bracketed below (.prod fs)
    onSum? := some fun ts => bracketed below (.sum ts) }

/-- The lines of some children, each behind the margin and its mark. -/
def branches (m : Margin) (below : Margin → Expr → String) : List Expr → String
  | [] => ""
  | e :: es =>
    String.ofList m.chars ++ String.ofList (Expr.branchMark es.isEmpty) ++
      below (m.under es.isEmpty) e ++ branches m below es

/-- The sign of a node on a line, and the lines of its children. -/
def branched (m : Margin) (below : Margin → Expr → String) (e : Expr) : String :=
  String.ofList e.kind.sign?.toList ++ "\n" ++ branches m below e.children

/-- The tree form with a margin, where `below` writes the children within theirs. -/
def tree (m : Margin) (below : Margin → Expr → String) : CaseTable String :=
  { texts.map (· ++ "\n") with
    name := "Tree"
    onPow? := some fun b e => branched m below (.pow b e)
    onProd? := some fun fs => branched m below (.prod fs)
    onSum? := some fun ts => branched m below (.sum ts) }

theorem bracketed_linear {e : Expr} {c : Char} (h : e.kind.sign? = some c) :
    bracketed Expr.linear e = e.linear := by
  have hcomma : ", ".toList = [',', ' '] := rfl
  apply String.toList_inj.mp
  rw [Expr.linear, Expr.linearText_of_sign? h, Expr.listText_eq_intercalate]
  simp [bracketed, h, hcomma, Function.comp_def, Expr.linear]

theorem toList_branches (m : Margin) (es : List Expr) :
    (branches m Expr.treeWithin es).toList = Expr.branchesText m.chars es := by
  induction es with
  | nil => rfl
  | cons e es ih =>
    rw [Expr.branchesText_cons, ← ih]
    simp [branches, Expr.treeWithin, Margin.under]

theorem branched_treeWithin (m : Margin) {e : Expr} {c : Char} (h : e.kind.sign? = some c) :
    branched m Expr.treeWithin e = e.treeWithin m := by
  apply String.toList_inj.mp
  rw [Expr.treeWithin, Expr.treeText_of_sign? m.chars h, ← toList_branches]
  simp [branched, h]

theorem apply_linear (e : Expr) : (linear Expr.linear).apply e = .ok e.linear := by
  cases e with
  | num | sym => rfl
  | pow | prod | sum => exact congrArg Except.ok (bracketed_linear rfl)

theorem apply_tree (m : Margin) (e : Expr) :
    (tree m Expr.treeWithin).apply e = .ok (e.treeWithin m) := by
  cases e with
  | num | sym => exact congrArg Except.ok String.ofList_append.symm
  | pow | prod | sum => exact congrArg Except.ok (branched_treeWithin m rfl)

/-! ### Canonical forms -/

/-- Simplification, where `again` simplifies the expressions that it goes on to. -/
def simplified (guess : RootGuess) (again : Expr → Traced Expr) : CaseTable (Traced Expr) :=
  { leaves.map pure with
    name := "Simplify"
    onPow? := some fun b e => do Canonical.power guess (← again b) e
    onProd? := some fun fs => do Canonical.product again (← Canonical.flattened again (.prod fs))
    onSum? := some fun ts => do Canonical.sum again (← Canonical.flattened again (.sum ts)) }

theorem apply_simplified (guess : RootGuess) (e : Expr) :
    (simplified guess (Expr.simplifyTraced guess)).apply e = .ok (e.simplifyTraced guess) := by
  rw [← Canonical.reduce_eq_simplifyTraced fun _ _ => rfl]
  cases e <;> rfl

/-! ### Derivatives -/

/-- The derivative in `x`, where `again` derives the expressions that it goes on to. -/
def derived (x : Letter) (again : Expr → Except Error Expr) : CaseTable (Except Error Expr) where
  name := "Derive"
  onNum? := some fun _ => .ok (.num 0)
  onSym? := some fun y => .ok (if y = x then .num 1 else .num 0)
  onPow? := some fun b e => do
    Expr.prodOf [.num e, .pow b (Rational.add e (-1)), ← again b]
  onProd? := some fun fs => do
    let ds ← fs.mapM again
    Expr.sumOf (← (Expr.replaceEach fs ds).mapM Expr.prodOf)
  onSum? := some fun ts => do Expr.sumOf (← ts.mapM again)

/-- A sum with a term for each of two things or more. -/
theorem sumOf_mapM {α : Type} {again : α → Except Error Expr} {f : α → Expr} {as : List α}
    (hlen : 2 ≤ as.length) (h : ∀ a ∈ as, again a = .ok (f a)) :
    (as.mapM again >>= Expr.sumOf) = .ok (Expr.ofTerms (as.map f)) := by
  rw [Expr.mapM_eq_pure_map h, pure_bind]
  refine Expr.sumOf_eq_ok_iff.mpr ⟨?_, rfl⟩
  rwa [List.length_map]

theorem run_derived {x : Letter} {again : Expr → Except Error Expr} {e : Expr}
    (he : e.WellFormed) (h : ∀ d, d.WellFormed → again d = .ok (d.derivative x)) :
    (derived x again).run e = .ok (e.derivative x) := by
  cases e with
  | num | sym => rfl
  | pow b p =>
    show (again b >>= fun d => Expr.prodOf [.num p, .pow b (Rational.add p (-1)), d]) = _
    rw [h b he]
    rfl
  | prod fs =>
    obtain ⟨hlen, -, hfs⟩ := he
    rw [Expr.allWellFormed_iff] at hfs
    have hparts : ∀ l ∈ Expr.replaceEach fs (fs.map (Expr.derivative x)),
        Expr.prodOf l = .ok (Expr.ofFactors l) := by
      intro l hl
      refine Expr.prodOf_eq_ok_iff.mpr ⟨?_, rfl⟩
      rwa [Expr.length_of_mem_replaceEach hl]
    show (fs.mapM again >>= fun ds =>
      (Expr.replaceEach fs ds).mapM Expr.prodOf >>= Expr.sumOf) = _
    rw [Expr.mapM_eq_pure_map fun f hf => h f (hfs f hf), pure_bind, Expr.derivative_prod]
    refine sumOf_mapM ?_ hparts
    rwa [Expr.length_replaceEach (List.length_map _).symm]
  | sum ts =>
    obtain ⟨hlen, -, hts⟩ := he
    rw [Expr.allWellFormed_iff] at hts
    rw [Expr.derivative_sum]
    exact sumOf_mapM hlen fun t ht => h t (hts t ht)

/-! ### Expansions -/

/-- A node as it is built: a sum or product of fewer than two children is refused. -/
def built : Expr → Except Error Expr
  | .prod fs => Expr.prodOf fs
  | .sum ts => Expr.sumOf ts
  | e => .ok e

/-- Some factors multiplied out, from the left, with each product of two of them built. -/
def builtProduct : List Expr → Except Error Expr
  | f :: g :: us => do
    us.foldlM (fun p u => built (p.distribute u false)) (← built (f.distribute g true))
  | us => .error (.invalid (.tooFewChildren .product us.length))

/-- An expanded base raised to an exponent, with the product of its copies built. -/
def builtPower (again : Expr → Except Error Expr) (b : Expr) (e : Rat) : Except Error Expr := do
  if e = 1 then return b
  else if e = 0 then return .num 1
  else if 1 < e.num.natAbs then
    let repeated ← again (← Expr.prodOf (List.replicate e.num.natAbs b))
    if Expr.residue e = 1 then return repeated else return .pow repeated (Expr.residue e)
  else return .pow b e

/-- Expansion, where `again` expands the expressions that it goes on to. -/
def expanded (again : Expr → Except Error Expr) : CaseTable (Except Error Expr) :=
  { leaves.map .ok with
    name := "Expand"
    onPow? := some fun b e => do builtPower again (← again b) e
    onProd? := some fun fs => do builtProduct (← fs.mapM again)
    onSum? := some fun ts => do Expr.sumOf (← ts.mapM again) }

theorem built_of_wellFormed {e : Expr} (h : e.WellFormed) : built e = .ok e := by
  cases e with
  | num | sym | pow => rfl
  | prod fs =>
    refine Expr.prodOf_eq_ok_iff.mpr ⟨h.1, ?_⟩
    rw [Expr.ofFactors, Expr.sort_eq_self h.2.1]
  | sum ts =>
    refine Expr.sumOf_eq_ok_iff.mpr ⟨h.1, ?_⟩
    rw [Expr.ofTerms, Expr.sort_eq_self h.2.1]

/-- Every product of two factors is built, from the left. -/
theorem foldlM_built {p : Expr} {us : List Expr} (hp : p.WellFormed)
    (hus : ∀ u ∈ us, u.WellFormed) :
    us.foldlM (fun p u => built (p.distribute u false)) p =
      .ok (us.foldl (fun p u => p.distribute u false) p) := by
  induction us generalizing p with
  | nil => rfl
  | cons u us ih =>
    obtain ⟨hu, hus⟩ := List.forall_mem_cons.mp hus
    have hpu := Expr.wellFormed_distribute false hp hu
    rw [List.foldlM_cons, built_of_wellFormed hpu, List.foldl_cons]
    exact ih hpu hus

theorem builtProduct_eq {us : List Expr} (h : ∀ u ∈ us, u.WellFormed) (hlen : 2 ≤ us.length) :
    builtProduct us = .ok (Expr.multiplyOut us) := by
  match us, hlen with
  | f :: g :: us, _ =>
    obtain ⟨hf, hgus⟩ := List.forall_mem_cons.mp h
    obtain ⟨hg, hus⟩ := List.forall_mem_cons.mp hgus
    have hfg := Expr.wellFormed_distribute true hf hg
    rw [builtProduct, built_of_wellFormed hfg]
    exact foldlM_built hfg hus

theorem builtPower_eq {again : Expr → Except Error Expr} {b : Expr} (p : Rat)
    (hb : b.expand.WellFormed) (h : ∀ d, d.WellFormed → again d = .ok d.expand) :
    builtPower again b.expand p = .ok (Expr.pow b p).expand := by
  rw [builtPower]
  by_cases hlt : 1 < p.num.natAbs
  · obtain ⟨h1, h0⟩ := Expr.ne_one_and_ne_zero hlt
    have hlen : 2 ≤ (List.replicate p.num.natAbs b.expand).length := by
      rwa [List.length_replicate]
    have hcopies : (Expr.ofFactors (List.replicate p.num.natAbs b.expand)).WellFormed :=
      Expr.wellFormed_ofFactors (fun f hf => List.eq_of_mem_replicate hf ▸ hb) hlen
    rw [if_neg h1, if_neg h0, if_pos hlt, Expr.prodOf_eq_ok_iff.mpr ⟨hlen, rfl⟩, Error.ok_bind,
      h _ hcopies, Error.ok_bind, Expr.expand_pow_of_one_lt b hlt]
    split_ifs <;> rfl
  · rw [Expr.expand_pow, Expr.expandPower, if_neg hlt, if_neg hlt]
    split_ifs <;> rfl

theorem run_expanded {again : Expr → Except Error Expr} {e : Expr} (he : e.WellFormed)
    (h : ∀ d, d.WellFormed → again d = .ok d.expand) : (expanded again).run e = .ok e.expand := by
  cases e with
  | num | sym => rfl
  | pow b p =>
    show (again b >>= fun d => builtPower again d p) = _
    rw [h b he]
    exact builtPower_eq p (Expr.wellFormed_expand he) h
  | prod fs =>
    obtain ⟨hlen, -, hfs⟩ := he
    rw [Expr.allWellFormed_iff] at hfs
    show (fs.mapM again >>= builtProduct) = _
    rw [Expr.mapM_eq_pure_map fun f hf => h f (hfs f hf), pure_bind, Expr.expand_prod]
    refine builtProduct_eq (List.forall_mem_map.mpr fun f hf => ?_) ?_
    · exact Expr.wellFormed_expand (hfs f hf)
    · rwa [List.length_map]
  | sum ts =>
    obtain ⟨hlen, -, hts⟩ := he
    rw [Expr.allWellFormed_iff] at hts
    rw [Expr.expand_sum]
    exact sumOf_mapM hlen fun t ht => h t (hts t ht)

end CaseTable

/-! ### All passes -/

/-- Every pass has an entry for the expression in its table, and does as the table says. Derivative
and expansion go on to well formed expressions only, and no node that they build is refused. -/
structure Handled (guess : RootGuess) (e : Expr) : Prop where
  linear : (CaseTable.linear Expr.linear).apply e = .ok e.linear
  tree : ∀ m, (CaseTable.tree m Expr.treeWithin).apply e = .ok (e.treeWithin m)
  simplify : (CaseTable.simplified guess (Expr.simplifyTraced guess)).apply e =
    .ok (e.simplifyTraced guess)
  expand : ∀ again, (∀ d, d.WellFormed → again d = .ok d.expand) →
    (CaseTable.expanded again).run e = .ok e.expand
  derivative : ∀ x again, (∀ d, d.WellFormed → again d = .ok (d.derivative x)) →
    (CaseTable.derived x again).run e = .ok (e.derivative x)

theorem handled_of_wellFormed {guess : RootGuess} {e : Expr} (h : e.WellFormed) :
    Handled guess e where
  linear := CaseTable.apply_linear e
  tree := fun m => CaseTable.apply_tree m e
  simplify := CaseTable.apply_simplified guess e
  expand := fun _ => CaseTable.run_expanded h
  derivative := fun _ _ => CaseTable.run_derived h

end ExactAlgebra
