import ExactAlgebra.Number.Estimate
import ExactAlgebra.Proofs.Canonical.Folding.Factors

/-!
# Parentheses

A sum among the terms of a sum, or a product among the factors of a product, is put into canonical
form on its own before its parts join the others. That may make a difference
(`simplify_parentheses_ne`): like terms are added first within the inner sum, and a group of them
whose stem is a sum gives its terms away when its coefficient comes to one; the terms outside then
find nothing to be added to. In the same way a base of the inner product is given away when its
power is a number or a product.

Parentheses make no difference where the inner node gives no key away, or where no key that it may
give away is one of the other parts as well (`simplify_parentheses`).
-/

namespace ExactAlgebra.Expr

open Canonical

/-- Parentheses around some terms of a sum may be left out if no sum among the stems of these terms
ends with the coefficient one, or if no sum is a stem both inside and outside; parentheses around
some factors of a product may if the power of each base inside is a power of it, or if no number and
no product is a base both inside and outside. Stems and bases count where they are reached through
stems that are sums and bases that are products; forms with powers of exponent one are left aside in
the second case. Either both forms exist and are the same, or there is neither. -/
theorem simplify_parentheses (guess : RootGuess) (xs ys : List Expr) :
    ((unwraps (parts guess .sum xs) = false ∨
        (∀ u ∈ parts guess .sum (xs ++ ys), u.OneFree) ∧
          ∀ k, k.kind = .sum → KeyIn .sum stem (parts guess .sum xs) k →
            ¬ KeyIn .sum stem (parts guess .sum ys) k) →
      ∀ n, (ofTerms (ofTerms xs :: ys)).simplify guess = .ok n ↔
        (ofTerms (xs ++ ys)).simplify guess = .ok n) ∧
    ((KeepsBases guess (parts guess .product xs) ∨
        (∀ u ∈ parts guess .product (xs ++ ys), u.OneFree) ∧
          ∀ b, b.kind = .rational ∨ b.kind = .product →
            KeyIn .product base (parts guess .product xs) b →
              ¬ KeyIn .product base (parts guess .product ys) b) →
      ∀ n, (ofFactors (ofFactors xs :: ys)).simplify guess = .ok n ↔
        (ofFactors (xs ++ ys)).simplify guess = .ok n) :=
  ⟨(foldingOfTerms guess).simplify_node_cons_iff, (foldingOfFactors guess).simplify_node_cons_iff⟩

/-- A sum of two letters. -/
def binomial : Expr :=
  sum [sym ⟨'c', by decide⟩, sym ⟨'d', by decide⟩]

/-- A root that is no rational number. -/
def rootOfTwo : Expr :=
  pow (num 2) (1 / 2)

/-- A binomial given away, and two roots multiplied to a number, beside a letter. -/
theorem simplify_parentheses_apart :
    (ofTerms [ofTerms [times (num 2) binomial, negated binomial],
          sym ⟨'f', by decide⟩]).simplify Estimate.root =
        .ok (sum [sym ⟨'c', by decide⟩, sym ⟨'d', by decide⟩, sym ⟨'f', by decide⟩]) ∧
      (ofTerms [times (num 2) binomial, negated binomial,
          sym ⟨'f', by decide⟩]).simplify Estimate.root =
        .ok (sum [sym ⟨'c', by decide⟩, sym ⟨'d', by decide⟩, sym ⟨'f', by decide⟩]) ∧
      (ofFactors [ofFactors [rootOfTwo, rootOfTwo], sym ⟨'f', by decide⟩]).simplify
        Estimate.root = .ok (prod [num 2, sym ⟨'f', by decide⟩]) ∧
      (ofFactors [rootOfTwo, rootOfTwo, sym ⟨'f', by decide⟩]).simplify Estimate.root =
        .ok (prod [num 2, sym ⟨'f', by decide⟩]) := by
  have hletter : ∀ kind, kind ≠ .symbol →
      parts Estimate.root kind [sym ⟨'f', by decide⟩] = [sym ⟨'f', by decide⟩] :=
    fun kind hkind => (spliced_singleton kind _).trans (if_neg hkind.symm)
  have hsum := (simplify_parentheses Estimate.root [times (num 2) binomial, negated binomial]
    [sym ⟨'f', by decide⟩]).1 (Or.inr ⟨?_, ?_⟩)
  have hprod := (simplify_parentheses Estimate.root [rootOfTwo, rootOfTwo]
    [sym ⟨'f', by decide⟩]).2 (Or.inr ⟨?_, ?_⟩)
  · refine (fun h h' => ⟨h, (hsum _).mp h, h', (hprod _).mp h'⟩) ?_ ?_ <;> decide +kernel
  · have hparts : parts Estimate.root .product ([rootOfTwo, rootOfTwo] ++ [sym ⟨'f', by decide⟩]) =
        [rootOfTwo, rootOfTwo, sym ⟨'f', by decide⟩] := by decide +kernel
    rw [hparts]
    simp [oneFree_iff, rootOfTwo]
  · intro b hb _ hkey
    rw [hletter .product (by decide)] at hkey
    obtain ⟨u, hu, rfl⟩ := hkey.eq_key (by simp [base, kind])
    rw [List.mem_singleton.mp hu] at hb
    simp [base, kind] at hb
  · have hparts : parts Estimate.root .sum
        ([times (num 2) binomial, negated binomial] ++ [sym ⟨'f', by decide⟩]) =
          [prod [num 2, binomial], prod [num (-1), binomial], sym ⟨'f', by decide⟩] := by
      decide +kernel
    rw [hparts]
    simp [oneFree_iff, binomial]
  · intro k hk _ hkey
    rw [hletter .sum (by decide)] at hkey
    obtain ⟨u, hu, rfl⟩ := hkey.eq_key (by simp [stem, kind])
    rw [List.mem_singleton.mp hu] at hk
    simp [stem, kind] at hk

/-- Parentheses may make a difference, in sums and in products: three times a binomial if two are
not taken away first, three halves of an exponent if two are not. -/
theorem simplify_parentheses_ne :
    ((ofTerms [ofTerms [times (num 2) binomial, negated binomial],
            times (num 2) binomial]).simplify Estimate.root =
          .ok (sum [prod [num 2, binomial], sym ⟨'c', by decide⟩, sym ⟨'d', by decide⟩]) ∧
        (ofTerms [times (num 2) binomial, negated binomial,
            times (num 2) binomial]).simplify Estimate.root = .ok (prod [num 3, binomial]) ∧
        sum [prod [num 2, binomial], sym ⟨'c', by decide⟩, sym ⟨'d', by decide⟩] ≠
          prod [num 3, binomial]) ∧
      (ofFactors [ofFactors [rootOfTwo, rootOfTwo], rootOfTwo]).simplify Estimate.root =
          .ok (prod [num 2, rootOfTwo]) ∧
        (ofFactors [rootOfTwo, rootOfTwo, rootOfTwo]).simplify Estimate.root =
          .ok (pow (num 2) (3 / 2)) ∧
        prod [num 2, rootOfTwo] ≠ pow (num 2) (3 / 2) := by
  refine ⟨⟨?_, ?_, nofun⟩, ?_, ?_, nofun⟩ <;> decide +kernel

end ExactAlgebra.Expr
