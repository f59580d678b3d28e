import ExactAlgebra.Expr.Basic

/-!
# Canonical order

Nodes of different kinds are ordered by kind, rational numbers by value, letters alphabetically, and
composite nodes by their children one by one, a shorter list of children first. Two expressions are
equal exactly when neither comes before the other (`compare_eq_iff`), which is how equality is
decided.

`sort` puts a list into this order. Insertion keeps the definition structural; equal expressions are
indistinguishable, so stability is no question.
-/

namespace ExactAlgebra

/-- The order of two rational numbers, by cross multiplication. -/
def compareRat (p q : Rat) : Ordering :=
  compare (p.num * q.den) (q.num * p.den)

theorem compareRat_eq_iff {p q : Rat} : compareRat p q = .eq ↔ p = q := by
  rw [compareRat, Rat.eq_iff_mul_eq_mul]
  exact Std.LawfulEqCmp.compare_eq_iff_eq

namespace Expr

mutual

/-- Which of two expressions comes first. -/
def compare : Expr → Expr → Ordering
  | num p, num q => compareRat p q
  | sym x, sym y => Ord.compare x.char y.char
  | pow b p, pow c q => (compare b c).then (compareRat p q)
  | prod as, prod bs => compareAll as bs
  | sum as, sum bs => compareAll as bs
  | a, b => Ord.compare a.kind.priority b.kind.priority

/-- Which of two lists comes first: by the first expressions that differ, then by length. -/
def compareAll : List Expr → List Expr → Ordering
  | [], [] => .eq
  | [], _ :: _ => .lt
  | _ :: _, [] => .gt
  | a :: as, b :: bs => (compare a b).then (compareAll as bs)

end

/-! ### Equality -/

mutual

/-- Nothing comes before itself. -/
theorem compare_self : ∀ a : Expr, compare a a = .eq
  | num p => by simp [compare, compareRat_eq_iff]
  | sym x => by simp [compare]
  | pow b p => by simp [compare, compare_self b, compareRat_eq_iff]
  | prod as => by simp [compare, compareAll_self as]
  | sum as => by simp [compare, compareAll_self as]

theorem compareAll_self : ∀ as : List Expr, compareAll as as = .eq
  | [] => rfl
  | a :: as => by simp [compareAll, compare_self a, compareAll_self as]

end

mutual

private theorem eq_of_compare : ∀ {a b : Expr}, compare a b = .eq → a = b
  | num p, b, h => by
    cases b with
    | num q => rw [compareRat_eq_iff.mp h]
    | _ => exact absurd h (by simp [compare, kind, Kind.priority])
  | sym x, b, h => by
    cases b with
    | sym y => rw [Letter.ext (Std.compare_eq_iff_eq.mp h)]
    | _ => exact absurd h (by simp [compare, kind, Kind.priority])
  | pow c p, b, h => by
    cases b with
    | pow d q =>
      obtain ⟨hb, he⟩ := Ordering.then_eq_eq.mp h
      rw [eq_of_compare hb, compareRat_eq_iff.mp he]
    | _ => exact absurd h (by simp [compare, kind, Kind.priority])
  | prod as, b, h => by
    cases b with
    | prod bs => rw [eq_of_compareAll h]
    | _ => exact absurd h (by simp [compare, kind, Kind.priority])
  | sum as, b, h => by
    cases b with
    | sum bs => rw [eq_of_compareAll h]
    | _ => exact absurd h (by simp [compare, kind, Kind.priority])

private theorem eq_of_compareAll : ∀ {as bs : List Expr}, compareAll as bs = .eq → as = bs
  | [], [], _ => rfl
  | [], _ :: _, h => nomatch h
  | _ :: _, [], h => nomatch h
  | a :: as, b :: bs, h => by
    obtain ⟨hab, h⟩ := Ordering.then_eq_eq.mp h
    rw [eq_of_compare hab, eq_of_compareAll h]

end

/-- Two expressions are the same exactly when neither comes before the other. -/
theorem compare_eq_iff {a b : Expr} : compare a b = .eq ↔ a = b :=
  ⟨eq_of_compare, fun h => h ▸ compare_self a⟩

instance : DecidableEq Expr := fun a b =>
  if h : compare a b = .eq then isTrue (compare_eq_iff.mp h)
  else isFalse fun hab => h (compare_eq_iff.mpr hab)

/-! ### Sorting -/

/-- Puts an expression in front of the first one that it does not come after. -/
def insert (a : Expr) : List Expr → List Expr
  | [] => [a]
  | b :: bs => if compare a b = .gt then b :: insert a bs else a :: b :: bs

/-- The expressions of a list in canonical order. -/
def sort : List Expr → List Expr
  | [] => []
  | a :: as => insert a (sort as)

theorem insert_perm (a : Expr) (bs : List Expr) : (insert a bs).Perm (a :: bs) := by
  induction bs with
  | nil => exact .refl _
  | cons b bs ih =>
    simp only [insert]
    split
    · exact (ih.cons b).trans (.swap a b bs)
    · exact .refl _

/-- Sorting loses nothing and adds nothing. -/
theorem sort_perm (as : List Expr) : (sort as).Perm as := by
  induction as with
  | nil => exact .refl _
  | cons a as ih => exact (insert_perm a (sort as)).trans (ih.cons a)

@[simp]
theorem length_sort (as : List Expr) : (sort as).length = as.length :=
  (sort_perm as).length_eq

@[simp]
theorem mem_sort {a : Expr} {as : List Expr} : a ∈ sort as ↔ a ∈ as :=
  (sort_perm as).mem_iff

end Expr

end ExactAlgebra
