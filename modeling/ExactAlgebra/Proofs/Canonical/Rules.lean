import ExactAlgebra.Canonical.Form
import Mathlib.Tactic.SplitIfs

/-!
# The rules of the canonical form

`Yields guess e n` says that the pass takes `e` to `n`, without a word about the number of steps
that it is given. There is a rule for each way in which the reduction of a node ends: with the
node's own result, or with that of a sum or product built on the way.

Every result of the pass is one by these rules, however many steps it has (`yields_of_within`).
What is true of all its results is proved by induction on them.
-/

namespace ExactAlgebra

/-! ### Computations that succeed -/

namespace Error

variable {α β : Type}

@[simp] theorem ok_bind (a : α) (f : α → Except Error β) : (Except.ok a >>= f) = f a := rfl

@[simp] theorem error_bind (err : Error) (f : α → Except Error β) :
    (Except.error err >>= f) = .error err := rfl

end Error

namespace Traced

variable {α β : Type}

/-- The result of a computation, and `other` where it has none. -/
def resultOr (other : α) (x : Traced α) : α :=
  match x.outcome with
  | .ok a => a
  | .error _ => other

theorem resultOr_eq {x : Traced α} {a : α} (other : α) (h : x.outcome = .ok a) :
    x.resultOr other = a := by
  rw [resultOr, h]

theorem outcome_bind_eq_ok {x : Traced α} {f : α → Traced β} {b : β} :
    (x >>= f).outcome = .ok b ↔ ∃ a, x.outcome = .ok a ∧ (f a).outcome = .ok b := by
  rw [outcome_bind]
  cases h : x.outcome with
  | ok a => exact ⟨fun hf => ⟨a, rfl, hf⟩, fun ⟨_, rfl, hf⟩ => hf⟩
  | error e => exact ⟨nofun, fun ⟨_, h', _⟩ => nomatch h'⟩

theorem outcome_bind_eq_error {x : Traced α} {f : α → Traced β} {err : Error} :
    (x >>= f).outcome = .error err ↔
      x.outcome = .error err ∨ ∃ a, x.outcome = .ok a ∧ (f a).outcome = .error err := by
  rcases x with ⟨notes, e | a⟩
  · refine ⟨fun h => Or.inl (congrArg Except.error (Except.error.inj h)), ?_⟩
    rintro (h | ⟨_, h, -⟩)
    · exact congrArg Except.error (Except.error.inj h)
    · cases h
  · refine ⟨fun h => Or.inr ⟨a, rfl, h⟩, ?_⟩
    rintro (h | ⟨_, h, hf⟩)
    · cases h
    · cases h
      exact hf

/-- Going on in another way makes no difference where the result is the same. -/
theorem bind_congr {x : Traced α} {f g : α → Traced β}
    (h : ∀ a, x.outcome = .ok a → f a = g a) : x >>= f = x >>= g := by
  rcases x with ⟨notes, _ | a⟩
  · rfl
  · show (⟨_, _⟩ : Traced β) = ⟨_, _⟩
    rw [h a rfl]

theorem mapAll_eq_ok {f : α → Traced β} {as : List α} {bs : List β}
    (h : (mapAll f as).outcome = .ok bs) (other : α → β) :
    (∀ a ∈ as, (f a).outcome = .ok ((f a).resultOr (other a))) ∧
      bs = as.map fun a => (f a).resultOr (other a) := by
  induction as generalizing bs with
  | nil =>
    cases h
    exact ⟨nofun, rfl⟩
  | cons a as ih =>
    simp only [mapAll, outcome_bind_eq_ok] at h
    obtain ⟨b, hb, bs', hbs, h⟩ := h
    cases h
    obtain ⟨has, rfl⟩ := ih hbs
    have ha := resultOr_eq (other a) hb
    refine ⟨List.forall_mem_cons.mpr ⟨by rw [hb, ha], has⟩, ?_⟩
    rw [List.map_cons, ha]

theorem mapAll_eq_error {f : α → Traced β} {as : List α} {err : Error}
    (h : (mapAll f as).outcome = .error err) : ∃ a ∈ as, (f a).outcome = .error err := by
  induction as with
  | nil => cases h
  | cons a as ih =>
    simp only [mapAll, outcome_bind_eq_error] at h
    rcases h with h | ⟨b, -, h | ⟨bs, -, h⟩⟩
    · exact ⟨a, List.mem_cons_self, h⟩
    · obtain ⟨a', ha', h⟩ := ih h
      exact ⟨a', List.mem_cons_of_mem _ ha', h⟩
    · cases h

theorem mapAll_congr {f g : α → Traced β} {as : List α} (h : ∀ a ∈ as, f a = g a) :
    mapAll f as = mapAll g as := by
  induction as with
  | nil => rfl
  | cons a as ih =>
    rw [mapAll, mapAll, h a List.mem_cons_self, ih fun a' ha' => h a' (List.mem_cons_of_mem _ ha')]

end Traced

namespace Canonical

/-! ### The rules -/

/-- The groups that leave something. -/
def live (gs : Groups) : Groups :=
  gs.filter fun g => g.2 ≠ 0

/-- What the groups of some factors come down to, where `w` is what the power of a group comes to.
-/
def powersOf (w : Expr × Rat → Expr) (gs : Groups) : Powers :=
  ((live gs).map w).foldr .cons .none

/-- What some factors in canonical form come down to, their numbers included. -/
def gathered (w : Expr × Rat → Expr) (us : List Expr) : Powers :=
  let ps := powersOf w (factorGroups us [])
  { ps with constant := constantFactor us * ps.constant }

/-- Whether some powers are to be gathered once more. -/
def Powers.Regroups (ps : Powers) : Prop :=
  ps.fromProduct ∨ ¬ (ps.factors.map Expr.base).Nodup

instance (ps : Powers) : Decidable ps.Regroups :=
  inferInstanceAs (Decidable (ps.fromProduct ∨ ¬ (ps.factors.map Expr.base).Nodup))

/-- The pass takes the first expression to the second. -/
inductive Yields (guess : RootGuess) : Expr → Expr → Prop
  | num (q : Rat) : Yields guess (.num q) (.num q)
  | sym (x : Letter) : Yields guess (.sym x) (.sym x)
  | pow {b b' n : Expr} {p : Rat} :
      Yields guess b b' → power guess b' p = .ok n → Yields guess (.pow b p) n
  | sum {ts terms : List Expr} {n : Expr} (v : Expr → Expr) :
      (∀ t ∈ ts, Yields guess t (v t)) →
      collected (spliced .sum (ts.map v)) = .ok (terms, false) →
      Expr.total terms = .ok n → Yields guess (.sum ts) n
  /-- A group of like terms is a whole sum. -/
  | sumAgain {ts terms : List Expr} {d n : Expr} (v : Expr → Expr) :
      (∀ t ∈ ts, Yields guess t (v t)) →
      collected (spliced .sum (ts.map v)) = .ok (terms, true) →
      Expr.sumOf terms = .ok d → Yields guess d n → Yields guess (.sum ts) n
  | prodZero {fs : List Expr} (v : Expr → Expr) (w : Expr × Rat → Expr) :
      (∀ f ∈ fs, Yields guess f (v f)) →
      (∀ g ∈ live (factorGroups (spliced .product (fs.map v)) []),
        Yields guess (.pow g.1 g.2) (w g)) →
      (gathered w (spliced .product (fs.map v))).constant = 0 →
      Yields guess (.prod fs) (.num 0)
  | prod {fs : List Expr} {ps : Powers} {n : Expr} (v : Expr → Expr) (w : Expr × Rat → Expr) :
      (∀ f ∈ fs, Yields guess f (v f)) →
      (∀ g ∈ live (factorGroups (spliced .product (fs.map v)) []),
        Yields guess (.pow g.1 g.2) (w g)) →
      ps = gathered w (spliced .product (fs.map v)) → ps.constant ≠ 0 → ¬ ps.Regroups →
      Expr.productOr (.num ps.constant) (ps.factors ++ besides ps.constant 1) = .ok n →
      Yields guess (.prod fs) n
  /-- The power of a group is a product, or two of them have one base. -/
  | prodAgain {fs : List Expr} {ps : Powers} {d n : Expr} (v : Expr → Expr)
      (w : Expr × Rat → Expr) :
      (∀ f ∈ fs, Yields guess f (v f)) →
      (∀ g ∈ live (factorGroups (spliced .product (fs.map v)) []),
        Yields guess (.pow g.1 g.2) (w g)) →
      ps = gathered w (spliced .product (fs.map v)) → ps.constant ≠ 0 → ps.Regroups →
      Expr.prodOf (ps.factors ++ [.num ps.constant]) = .ok d → Yields guess d n →
      Yields guess (.prod fs) n

/-! ### Results are by the rules -/

/-- The form that `again` finds for an expression, and the expression itself where it finds none. -/
def formBy (again : Expr → Traced Expr) (e : Expr) : Expr :=
  (again e).resultOr e

/-- The form that `again` finds for the power of a group. -/
def powerBy (again : Expr → Traced Expr) (g : Expr × Rat) : Expr :=
  formBy again (.pow g.1 g.2)

theorem flattened_eq_ok {again : Expr → Traced Expr} {e : Expr} {us : List Expr}
    (h : (flattened again e).outcome = .ok us) :
    (∀ d ∈ e.children, (again d).outcome = .ok (formBy again d)) ∧
      us = spliced e.kind (e.children.map (formBy again)) := by
  simp only [flattened, Traced.outcome_bind_eq_ok] at h
  obtain ⟨vs, hvs, h⟩ := h
  cases h
  obtain ⟨hv, rfl⟩ := Traced.mapAll_eq_ok hvs id
  exact ⟨hv, rfl⟩

theorem live_cons_of_eq {g : Expr × Rat} (gs : Groups) (h : g.2 = 0) : live (g :: gs) = live gs :=
  List.filter_cons_of_neg (by simpa using h)

theorem live_cons_of_ne {g : Expr × Rat} (gs : Groups) (h : g.2 ≠ 0) :
    live (g :: gs) = g :: live gs :=
  List.filter_cons_of_pos (by simpa using h)

theorem ne_zero_of_mem_live {gs : Groups} {g : Expr × Rat} (h : g ∈ live gs) : g.2 ≠ 0 := by
  simpa using (List.mem_filter.mp h).2

theorem powersOf_cons_of_ne (w : Expr × Rat → Expr) {g : Expr × Rat} (gs : Groups) (h : g.2 ≠ 0) :
    powersOf w (g :: gs) = .cons (w g) (powersOf w gs) := by
  rw [powersOf, live_cons_of_ne gs h]
  rfl

theorem groupPowers_eq_ok {again : Expr → Traced Expr} {gs : Groups} {ps : Powers}
    (h : (groupPowers again gs).outcome = .ok ps) :
    (∀ g ∈ live gs, (again (.pow g.1 g.2)).outcome = .ok (powerBy again g)) ∧
      ps = powersOf (powerBy again) gs := by
  induction gs generalizing ps with
  | nil =>
    cases h
    exact ⟨nofun, rfl⟩
  | cons g gs ih =>
    obtain ⟨b, e⟩ := g
    rw [groupPowers] at h
    split_ifs at h with he
    · rw [powersOf, live_cons_of_eq gs he]
      exact ih h
    · simp only [Traced.outcome_bind_eq_ok] at h
      obtain ⟨p, hp, ps', hps, h⟩ := h
      cases h
      obtain ⟨hgs, rfl⟩ := ih hps
      have hw : powerBy again (b, e) = p := Traced.resultOr_eq _ hp
      rw [powersOf_cons_of_ne _ gs he, hw, live_cons_of_ne gs he]
      exact ⟨List.forall_mem_cons.mpr ⟨by rw [hp, hw], hgs⟩, rfl⟩

variable {guess : RootGuess} {again : Expr → Traced Expr}

/-- One reduction is by the rules if all that it asks for is. -/
theorem yields_of_reduce (hagain : ∀ {d n}, (again d).outcome = .ok n → Yields guess d n)
    {e n : Expr} (h : (reduce guess again e).outcome = .ok n) : Yields guess e n := by
  cases e with
  | num q =>
    cases h
    exact .num q
  | sym x =>
    cases h
    exact .sym x
  | pow b p =>
    simp only [reduce, Traced.outcome_bind_eq_ok] at h
    obtain ⟨b', hb, h⟩ := h
    exact .pow (hagain hb) h
  | sum ts =>
    simp only [reduce, Traced.outcome_bind_eq_ok] at h
    obtain ⟨us, hus, h⟩ := h
    obtain ⟨hv, rfl⟩ := flattened_eq_ok hus
    simp only [Canonical.sum, Traced.outcome_bind_eq_ok] at h
    obtain ⟨⟨terms, unwrapped⟩, hterms, h⟩ := h
    cases unwrapped with
    | false => exact .sum (formBy again) (fun t ht => hagain (hv t ht)) hterms h
    | true =>
      simp only [if_true, Traced.outcome_bind_eq_ok] at h
      obtain ⟨-, -, d, hd, h⟩ := h
      exact .sumAgain (formBy again) (fun t ht => hagain (hv t ht)) hterms hd (hagain h)
  | prod fs =>
    simp only [reduce, Traced.outcome_bind_eq_ok] at h
    obtain ⟨us, hus, h⟩ := h
    obtain ⟨hv, rfl⟩ := flattened_eq_ok hus
    simp only [product, Rational.multiply_eq, Traced.outcome_bind_eq_ok] at h
    obtain ⟨ps, hps, h⟩ := h
    obtain ⟨hw, rfl⟩ := groupPowers_eq_ok hps
    split_ifs at h with hzero hagain'
    · cases h
      exact .prodZero (formBy again) (powerBy again) (fun f hf => hagain (hv f hf))
        (fun g hg => hagain (hw g hg)) hzero
    · simp only [Traced.outcome_bind_eq_ok] at h
      obtain ⟨-, -, d, hd, h⟩ := h
      exact .prodAgain (formBy again) (powerBy again) (fun f hf => hagain (hv f hf))
        (fun g hg => hagain (hw g hg)) rfl hzero hagain' hd (hagain h)
    · exact .prod (formBy again) (powerBy again) (fun f hf => hagain (hv f hf))
        (fun g hg => hagain (hw g hg)) rfl hzero hagain' h

/-- However many steps the pass has, its results are by the rules. -/
theorem yields_of_within {steps : Nat} {e n : Expr}
    (h : (within guess steps e).outcome = .ok n) : Yields guess e n := by
  induction steps generalizing e n with
  | zero => cases h
  | succ steps ih => exact yields_of_reduce ih h

end Canonical

/-! ### Exponents -/

/-- An expression is the exponent that its canonical form is. -/
theorem Expr.toExponent_eq_ok_iff {guess : RootGuess} {e : Expr} {q : Rat} :
    (e.toExponent guess).outcome = .ok q ↔ e.simplify guess = .ok (.num q) := by
  by_cases he : ∃ p, e = num p
  · obtain ⟨p, rfl⟩ := he
    show Except.ok p = .ok q ↔ Except.ok (num p) = .ok (num q)
    rw [Except.ok.injEq, Except.ok.injEq, num.injEq]
  · rw [toExponent, Traced.outcome_bind_eq_ok]
    · constructor
      · rintro ⟨n, hn, hq⟩
        cases n with
        | num p =>
          cases hq
          exact hn
        | sym | pow | prod | sum => cases hq
      · exact fun h => ⟨num q, h, rfl⟩
    · exact fun p hp => he ⟨p, hp⟩

end ExactAlgebra
