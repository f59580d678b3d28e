import ExactAlgebra.Proofs.Amounts
import ExactAlgebra.Proofs.Canonical.Failures
import Mathlib.Algebra.MonoidAlgebra.Basic

/-!
# Sums and products by their parts

What a sum or product comes to depends on its parts alone, the forms of its children, with those of
its own kind replaced by theirs (`simplify_sum`, `simplify_prod`). Of the parts nothing counts but
what they add up to under each stem, or multiply to under each base, and their numbers
(`sumForm_congr`, `productForm_congr`); it makes no difference in which order they are, or how an
amount is split up.
-/

namespace ExactAlgebra.Canonical

open ExactAlgebra.Expr

variable {guess : RootGuess}

/-! ### The parts of a node -/

/-- The parts of a node: the forms of its children, with those of the kind of the node replaced by
their children. -/
def parts (guess : RootGuess) (kind : Kind) (es : List Expr) : List Expr :=
  spliced kind (es.map (formBy (simplifyTraced guess)))

/-- What the parts of a sum come to. -/
def sumForm (guess : RootGuess) (us : List Expr) : Except Error Expr :=
  (Canonical.sum (simplifyTraced guess) us).outcome

/-- What the parts of a product come to. -/
def productForm (guess : RootGuess) (us : List Expr) : Except Error Expr :=
  (product (simplifyTraced guess) us).outcome

theorem formBy_eq {e n : Expr} (h : e.simplify guess = .ok n) :
    formBy (simplifyTraced guess) e = n :=
  Traced.resultOr_eq e h

/-- An expression that has a form yields it. -/
theorem yields_formBy {e : Expr} (h : ∃ n, e.simplify guess = .ok n) :
    Yields guess e (formBy (simplifyTraced guess) e) := by
  obtain ⟨n, hn⟩ := h
  rw [formBy_eq hn]
  exact yields_of_simplifyTraced hn

theorem spliced_append (kind : Kind) (us vs : List Expr) :
    spliced kind (us ++ vs) = spliced kind us ++ spliced kind vs :=
  List.flatMap_append

theorem spliced_perm (kind : Kind) {us vs : List Expr} (h : us.Perm vs) :
    (spliced kind us).Perm (spliced kind vs) :=
  h.flatMap_right _

theorem spliced_singleton (kind : Kind) (u : Expr) :
    spliced kind [u] = if u.kind = kind then u.children else [u] :=
  List.append_nil _

theorem spliced_product_singleton (u : Expr) : spliced .product [u] = u.factors := by
  rw [spliced_singleton]
  cases u <;> rfl

theorem parts_append (kind : Kind) (es es' : List Expr) :
    parts guess kind (es ++ es') = parts guess kind es ++ parts guess kind es' := by
  rw [parts, List.map_append, spliced_append, parts, parts]

theorem parts_perm (kind : Kind) {es es' : List Expr} (h : es.Perm es') :
    (parts guess kind es).Perm (parts guess kind es') :=
  spliced_perm kind (h.map _)

theorem parts_cons {e n : Expr} (kind : Kind) (es : List Expr) (h : e.simplify guess = .ok n) :
    parts guess kind (e :: es) = spliced kind [n] ++ parts guess kind es := by
  rw [← List.singleton_append, parts_append, parts, List.map_singleton, formBy_eq h]

section

variable {es : List Expr} (hes : ∀ e ∈ es, ∃ n, e.simplify guess = .ok n)

include hes

theorem reduced_parts (kind : Kind) : ∀ u ∈ parts guess kind es, Reduced guess u :=
  reduced_spliced fun e he => reduced_of_yields (yields_formBy (hes e he))

theorem kind_ne_of_mem_parts {kind : Kind} (hkind : kind ≠ .power) :
    ∀ u ∈ parts guess kind es, u.kind ≠ kind :=
  kind_ne_of_mem_spliced hkind fun e he => reduced_of_yields (yields_formBy (hes e he))

theorem flattened_eq {e : Expr} (he : e.children = es) :
    (flattened (simplifyTraced guess) e).outcome = .ok (parts guess e.kind es) := by
  subst he
  cases h : (flattened (simplifyTraced guess) e).outcome with
  | ok us =>
    obtain ⟨-, rfl⟩ := flattened_eq_ok h
    rfl
  | error err =>
    obtain ⟨d, hd, hd'⟩ := flattened_eq_error h
    obtain ⟨n, hn⟩ := hes d hd
    rw [Expr.simplify, hd'] at hn
    cases hn

theorem simplify_sum : (Expr.sum es).simplify guess = sumForm guess (parts guess .sum es) := by
  rw [Expr.simplify, ← reduce_eq_simplifyTraced fun _ _ => rfl, reduce, Traced.outcome_bind,
    flattened_eq hes rfl]
  rfl

theorem simplify_prod :
    (Expr.prod es).simplify guess = productForm guess (parts guess .product es) := by
  rw [Expr.simplify, ← reduce_eq_simplifyTraced fun _ _ => rfl, reduce, Traced.outcome_bind,
    flattened_eq hes rfl]
  rfl

end

theorem simplify_pow {b m : Expr} (h : b.simplify guess = .ok m) (p : Rat) :
    (Expr.pow b p).simplify guess = power guess m p := by
  rw [Expr.simplify, ← reduce_eq_simplifyTraced fun _ _ => rfl, reduce, Traced.outcome_bind]
  show b.simplify guess >>= _ = _
  rw [h]
  rfl

/-- Where the form of the base is a power, the exponents are multiplied. -/
theorem simplify_pow_pow {b c : Expr} {i : Rat} (h : b.simplify guess = .ok (.pow c i)) (p : Rat) :
    (Expr.pow b p).simplify guess = raised guess c (p * i) := by
  rw [simplify_pow h, power, drawnTogether_pow]

/-- A sum has a form exactly if its terms have. -/
theorem exists_simplify_ofTerms_iff {es : List Expr} :
    (∃ n, (ofTerms es).simplify guess = .ok n) ↔ ∀ e ∈ es, ∃ n, e.simplify guess = .ok n := by
  simp only [exists_simplify_iff]
  exact powers_ofTerms

/-- A product has a form exactly if its factors have. -/
theorem exists_simplify_ofFactors_iff {es : List Expr} :
    (∃ n, (ofFactors es).simplify guess = .ok n) ↔ ∀ e ∈ es, ∃ n, e.simplify guess = .ok n := by
  simp only [exists_simplify_iff]
  exact powers_ofFactors

/-! ### Irreducible parts -/

theorem simplify_of_irreducible {e : Expr} (h : Irreducible guess e) :
    e.simplify guess = .ok e := by
  obtain ⟨n, hn⟩ := exists_simplify_eq_ok guess h.reduced.zeroFree
  rw [hn, eq_of_yields h (yields_of_simplifyTraced hn)]

theorem parts_of_irreducible {kind : Kind} {es : List Expr}
    (h : ∀ e ∈ es, Irreducible guess e ∧ e.kind ≠ kind) : parts guess kind es = es :=
  spliced_eq_self (fun e he => formBy_eq (simplify_of_irreducible (h e he).1))
    fun e he => (h e he).2

/-! ### Groups that leave something -/

theorem amounts_live (gs : Groups) : Groups.amounts (live gs) = Groups.amounts gs := by
  induction gs with
  | nil => rfl
  | cons g gs ih =>
    by_cases h : g.2 = 0
    · rw [live_cons_of_eq gs h, ih, Groups.amounts_cons, h, Finsupp.single_zero, zero_add]
    · rw [live_cons_of_ne gs h, Groups.amounts_cons, ih, Groups.amounts_cons]

/-- The groups that leave something are settled by what the entries amount to. -/
theorem live_collect_perm {es es' : List (Expr × Rat)}
    (h : Groups.amounts es = Groups.amounts es') :
    (live (Groups.collect es)).Perm (live (Groups.collect es')) := by
  have hnodup : ∀ es : List (Expr × Rat), ((live (Groups.collect es)).map Prod.fst).Nodup :=
    fun es => (List.filter_sublist.map Prod.fst).nodup (Groups.nodup_keys_collect es)
  refine Groups.perm_of_amounts_eq (hnodup es) (hnodup es') ?_ ?_ ?_
  · exact fun g hg => ne_zero_of_mem_live hg
  · exact fun g hg => ne_zero_of_mem_live hg
  · rw [amounts_live, amounts_live, Groups.amounts_collect, Groups.amounts_collect, h]

theorem flatMap_live {f : Expr × Rat → List Expr} (h0 : ∀ k, f (k, 0) = []) (gs : Groups) :
    (live gs).flatMap f = gs.flatMap f := by
  induction gs with
  | nil => rfl
  | cons g gs ih =>
    obtain ⟨k, c⟩ := g
    by_cases h : c = 0
    · rw [live_cons_of_eq gs h, ih, List.flatMap_cons, h, h0, List.nil_append]
    · rw [live_cons_of_ne gs h, List.flatMap_cons, ih, List.flatMap_cons]

end ExactAlgebra.Canonical
