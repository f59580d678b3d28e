import ExactAlgebra.Error
import ExactAlgebra.Expr.TotalOrder

/-!
# Building expressions

Sums and products are built from at least two children, which are put into canonical order; so two
lists that differ only in the order of their members build the same node. Every expression built in
this way is well formed: at each node of it the children are at least two and in order.
-/

namespace ExactAlgebra.Expr

mutual

/-- Every sum and product in the expression has at least two children, in canonical order. -/
def WellFormed : Expr → Prop
  | num _ => True
  | sym _ => True
  | pow b _ => b.WellFormed
  | prod fs => 2 ≤ fs.length ∧ fs.Pairwise (· ≤ ·) ∧ AllWellFormed fs
  | sum ts => 2 ≤ ts.length ∧ ts.Pairwise (· ≤ ·) ∧ AllWellFormed ts

/-- Every expression of the list is well formed. -/
def AllWellFormed : List Expr → Prop
  | [] => True
  | e :: es => e.WellFormed ∧ AllWellFormed es

end

theorem allWellFormed_iff {es : List Expr} : AllWellFormed es ↔ ∀ e ∈ es, e.WellFormed := by
  induction es with
  | nil => simp [AllWellFormed]
  | cons e es ih => simp [AllWellFormed, ih]

/-- The sum node over some terms, of which there should be two at least. -/
def ofTerms (terms : List Expr) : Expr :=
  sum (sort terms)

/-- The product node over some factors, of which there should be two at least. -/
def ofFactors (factors : List Expr) : Expr :=
  prod (sort factors)

/-- The sum of some terms, refused if there are fewer than two. -/
def sumOf (terms : List Expr) : Except Error Expr :=
  if terms.length < 2 then .error (.invalid (.tooFewChildren .sum terms.length))
  else .ok (ofTerms terms)

/-- The product of some factors, refused if there are fewer than two. -/
def prodOf (factors : List Expr) : Except Error Expr :=
  if factors.length < 2 then .error (.invalid (.tooFewChildren .product factors.length))
  else .ok (ofFactors factors)

/-- The product of two expressions. -/
def times (a b : Expr) : Expr :=
  ofFactors [a, b]

/-- The product of minus one and an expression. -/
def negated (e : Expr) : Expr :=
  times (num (-1)) e

/-- The reciprocal of an expression, as a power. -/
def inverted (e : Expr) : Expr :=
  pow e (-1)

/-- The rational number that an expression is. -/
def asNum? : Expr → Option Rat
  | num q => some q
  | _ => none

/-- The power of an expression whose exponent is given as an expression, which has to be a number.
-/
def powOf (base exponent : Expr) : Except Error Expr :=
  match exponent.asNum? with
  | some e => .ok (pow base e)
  | none => .error (.invalid (.irrationalExponent exponent))

/-! ### What is built is well formed -/

theorem wellFormed_ofTerms {ts : List Expr} (h : ∀ t ∈ ts, t.WellFormed) (hlen : 2 ≤ ts.length) :
    (ofTerms ts).WellFormed :=
  ⟨(length_sort ts).symm ▸ hlen, pairwise_sort ts,
    allWellFormed_iff.mpr fun t ht => h t (mem_sort.mp ht)⟩

theorem wellFormed_ofFactors {fs : List Expr} (h : ∀ f ∈ fs, f.WellFormed)
    (hlen : 2 ≤ fs.length) : (ofFactors fs).WellFormed :=
  ⟨(length_sort fs).symm ▸ hlen, pairwise_sort fs,
    allWellFormed_iff.mpr fun f hf => h f (mem_sort.mp hf)⟩

theorem wellFormed_times {a b : Expr} (ha : a.WellFormed) (hb : b.WellFormed) :
    (times a b).WellFormed := by
  refine wellFormed_ofFactors (List.forall_mem_cons.mpr ⟨ha, ?_⟩) (Nat.le_refl 2)
  exact List.forall_mem_cons.mpr ⟨hb, nofun⟩

theorem wellFormed_negated {e : Expr} (h : e.WellFormed) : e.negated.WellFormed :=
  wellFormed_times trivial h

theorem wellFormed_inverted {e : Expr} (h : e.WellFormed) : e.inverted.WellFormed := h

/-! ### When building is refused -/

theorem sumOf_eq_ok_iff {ts : List Expr} {e : Expr} :
    sumOf ts = .ok e ↔ 2 ≤ ts.length ∧ e = ofTerms ts := by
  unfold sumOf
  split
  · simp only [reduceCtorEq, false_iff]
    omega
  · rename_i h
    simp only [Except.ok.injEq, Nat.not_lt.mp h, true_and]
    exact eq_comm

theorem prodOf_eq_ok_iff {fs : List Expr} {e : Expr} :
    prodOf fs = .ok e ↔ 2 ≤ fs.length ∧ e = ofFactors fs := by
  unfold prodOf
  split
  · simp only [reduceCtorEq, false_iff]
    omega
  · rename_i h
    simp only [Except.ok.injEq, Nat.not_lt.mp h, true_and]
    exact eq_comm

end ExactAlgebra.Expr
