import ExactAlgebra.Proofs.Canonical.Termination

/-!
# When the pass fails

The pass fails at powers whose exponent is zero, and only there: `b` to the power zero is one if the
form of `b` is a number other than zero or a power of one, and otherwise it is refused (`HasUnit`).

The calls for an expression make no powers of exponent zero besides those that are in it
(`zerothDefined_of_calls`), and a pass that succeeds has come by all of those. So an expression has
a canonical form exactly if all its powers of exponent zero are defined (`exists_simplify_iff`), as
they are where there is none (`exists_simplify_eq_ok`). The errors of the exponent zero are the only
ones, whatever the pass builds on its way (`simplify_fails_iff`).
-/

namespace ExactAlgebra.Canonical

open ExactAlgebra.Expr

variable {guess : RootGuess}

/-! ### Powers of exponent zero -/

/-- No power in the expression has the exponent zero. -/
def ZeroFree (e : Expr) : Prop :=
  e.Everywhere fun d => ∀ b, d ≠ .pow b 0

/-- The power of exponent zero of the expression is one: its form is a number other than zero, or a
power of such a number. -/
def HasUnit (guess : RootGuess) (b : Expr) : Prop :=
  ∃ m q, b.simplify guess = .ok m ∧ m.base = .num q ∧ q ≠ 0

/-- All powers of exponent zero in the expression are defined. -/
def ZerothDefined (guess : RootGuess) (e : Expr) : Prop :=
  e.Powers fun b p => p = 0 → HasUnit guess b

theorem ZeroFree.zerothDefined {e : Expr} (h : ZeroFree e) : ZerothDefined guess e := by
  refine Everywhere.mono ?_ h
  rintro d hd b _ rfl rfl
  exact absurd rfl (hd b)

theorem drawnTogether_zero (m : Expr) : drawnTogether m 0 = (m.base, 0) := by
  cases m with
  | pow c i => rw [drawnTogether_pow, zero_mul, base]
  | num | sym | prod | sum => rfl

theorem raised_zero_eq_ok_iff {c : Expr} :
    (∃ n, raised guess c 0 = .ok n) ↔ ∃ q, c = .num q ∧ q ≠ 0 := by
  unfold raised
  rw [if_neg zero_ne_one]
  cases c with
  | num q =>
    by_cases hq : q = 0
    · simp [numberPower, hq]
    · simp [numberPower, hq]
  | sym | pow | prod | sum => simp

theorem power_zero_eq_ok_iff {m : Expr} :
    (∃ n, power guess m 0 = .ok n) ↔ ∃ q, m.base = .num q ∧ q ≠ 0 := by
  rw [power, drawnTogether_zero]
  exact raised_zero_eq_ok_iff

theorem Reduced.zeroFree {e : Expr} (h : Reduced guess e) : ZeroFree e := by
  refine h.nodes.mono ?_
  rintro d hd b rfl
  have hn : NormalPower b 0 := hd.normal
  exact hn.exponent_ne_zero rfl

/-! ### Calls -/

theorem zerothDefined_child {e d : Expr} (he : ZerothDefined guess e) (hd : d ∈ e.children) :
    ZerothDefined guess d := by
  cases e with
  | num | sym => cases hd
  | pow b p =>
    rcases List.mem_cons.mp hd with rfl | hd
    · exact (powers_pow.mp he).2
    · rw [List.mem_singleton.mp hd]
      exact powers_num p
  | prod fs => exact powers_prod.mp he d hd
  | sum ts => exact powers_sum.mp he d hd

/-- A call makes no further powers of exponent zero. -/
theorem zerothDefined_of_calls {e d : Expr} (he : ZerothDefined guess e) (h : Calls guess e d) :
    ZerothDefined guess d := by
  cases h with
  | child hd => exact zerothDefined_child he hd
  | @group fs g v hv hg =>
    have hb := isBase_of_mem_groups (reduced_spliced_of_yields hv) g (List.mem_filter.mp hg).1
    refine powers_pow.mpr ⟨fun hzero => ?_, hb.reduced.zeroFree.zerothDefined⟩
    exact absurd hzero (ne_zero_of_mem_live hg)
  | @sumAgain ts terms d v hv hterms hd =>
    obtain ⟨-, rfl⟩ := eq_of_sumAgain hv hterms hd
    refine powers_ofTerms.mpr fun t ht => ?_
    have ht := reduced_collectedTerms (reduced_spliced_of_yields hv) t ht
    exact ht.zeroFree.zerothDefined
  | @prodAgain fs ps d v w hv hw hps hregroups hd =>
    obtain ⟨-, rfl⟩ := prodOf_eq_ok_iff.mp hd
    subst hps
    refine powers_ofFactors.mpr fun f hf => ?_
    rcases List.mem_append.mp hf with hf | hf
    · have hf := reduced_factors_powersOf (fun g hg => reduced_of_yields (hw g hg)) f hf
      exact hf.zeroFree.zerothDefined
    · rw [List.mem_singleton.mp hf]
      exact powers_num _

theorem zerothDefined_of_reflTransGen {e d : Expr} (he : ZerothDefined guess e)
    (h : Relation.ReflTransGen (Calls guess) e d) : ZerothDefined guess d := by
  induction h with
  | refl => exact he
  | tail _ hcall ih => exact zerothDefined_of_calls ih hcall

/-! ### Successes -/

theorem simplify_pow_eq_ok {b n : Expr} {p : Rat} (h : (Expr.pow b p).simplify guess = .ok n) :
    ∃ m, b.simplify guess = .ok m ∧ power guess m p = .ok n := by
  rw [Expr.simplify, ← reduce_eq_simplifyTraced fun _ _ => rfl] at h
  simp only [reduce, Traced.outcome_bind_eq_ok] at h
  exact h

/-- Where the pass succeeds, it succeeds for the children. -/
theorem exists_simplify_child {e n d : Expr} (h : e.simplify guess = .ok n)
    (hd : d ∈ e.children) : ∃ m, d.simplify guess = .ok m := by
  cases e with
  | num | sym => cases hd
  | pow b p =>
    obtain ⟨m, hm, -⟩ := simplify_pow_eq_ok h
    rcases List.mem_cons.mp hd with rfl | hd
    · exact ⟨m, hm⟩
    · rw [List.mem_singleton.mp hd]
      exact ⟨_, rfl⟩
  | prod | sum =>
    rw [Expr.simplify, ← reduce_eq_simplifyTraced fun _ _ => rfl] at h
    simp only [reduce, Traced.outcome_bind_eq_ok] at h
    obtain ⟨us, hus, -⟩ := h
    exact ⟨_, (flattened_eq_ok hus).1 d hd⟩

/-- Where the pass succeeds, it has come by every power of exponent zero. -/
theorem zerothDefined_of_simplify {e n : Expr} (h : e.simplify guess = .ok n) :
    ZerothDefined guess e := by
  induction e generalizing n with
  | num q => exact powers_num q
  | sym x => exact powers_sym x
  | pow b p ih =>
    obtain ⟨m, hm, hn⟩ := simplify_pow_eq_ok h
    refine powers_pow.mpr ⟨?_, ih hm⟩
    rintro rfl
    obtain ⟨q, hq⟩ := power_zero_eq_ok_iff.mp ⟨n, hn⟩
    exact ⟨m, q, hm, hq⟩
  | prod fs ih =>
    refine powers_prod.mpr fun f hf => ?_
    obtain ⟨m, hm⟩ := exists_simplify_child h hf
    exact ih f hf hm
  | sum ts ih =>
    refine powers_sum.mpr fun t ht => ?_
    obtain ⟨m, hm⟩ := exists_simplify_child h ht
    exact ih t ht hm

/-! ### Which expressions have a canonical form -/

/-- An expression whose powers of exponent zero are defined has a canonical form. -/
theorem exists_simplify_of_zerothDefined {e : Expr} (he : ZerothDefined guess e) :
    ∃ n, e.simplify guess = .ok n := by
  cases h : e.simplify guess with
  | ok n => exact ⟨n, rfl⟩
  | error err =>
    exfalso
    obtain ⟨b, p, m, hcalls, hm, hpower⟩ := exists_power_of_error h
    by_cases hp : p = 0
    · subst hp
      have hunit := (powers_pow.mp (zerothDefined_of_reflTransGen he hcalls)).1 rfl
      obtain ⟨m', q, hm', hq⟩ := hunit
      rw [hm, Except.ok.injEq] at hm'
      have hdefined : ∃ n, power guess m 0 = .ok n := power_zero_eq_ok_iff.mpr ⟨q, hm' ▸ hq⟩
      obtain ⟨n, hn⟩ := hdefined
      rw [hn] at hpower
      cases hpower
    · -- the exponent of a form is not zero, nor is its product with one that is not
      have hzero := (power_eq_error guess hpower).1
      have hreduced := reduced_of_yields (yields_of_simplifyTraced hm)
      cases m with
      | pow c i =>
        have hn : NormalPower c i := hreduced.normal
        rw [drawnTogether_pow] at hzero
        exact mul_ne_zero hp hn.exponent_ne_zero hzero
      | num | sym | prod | sum => exact hp hzero

/-- An expression has a canonical form exactly if its powers of exponent zero are defined. -/
theorem exists_simplify_iff {e : Expr} :
    (∃ n, e.simplify guess = .ok n) ↔ ZerothDefined guess e := by
  constructor
  · rintro ⟨n, hn⟩
    exact zerothDefined_of_simplify hn
  · exact exists_simplify_of_zerothDefined

/-- An expression without powers of exponent zero has a canonical form. -/
theorem exists_simplify_eq_ok (guess : RootGuess) {e : Expr} (he : ZeroFree e) :
    ∃ n, e.simplify guess = .ok n :=
  exists_simplify_of_zerothDefined he.zerothDefined

/-! ### Which errors there are -/

/-- The pass fails with one of the errors of the exponent zero. -/
theorem eq_undefined_of_simplify {e : Expr} {err : Error} (h : e.simplify guess = .error err) :
    err = .undefined .zeroToZero ∨ ∃ c, err = .undefined (.vanishedExponent c) := by
  obtain ⟨b, p, m, -, -, hpower⟩ := exists_power_of_error h
  rcases (power_eq_error guess hpower).2 with ⟨-, rfl⟩ | ⟨-, rfl⟩
  · exact Or.inl rfl
  · exact Or.inr ⟨_, rfl⟩

/-- A form whose base is a number other than zero is such a number, or a power of a number. -/
theorem Reduced.base_eq_num_iff {m : Expr} (h : Reduced guess m) :
    (∃ q, m.base = .num q ∧ q ≠ 0) ↔ (∃ q, m = .num q ∧ q ≠ 0) ∨ ∃ q p, m = .pow (.num q) p := by
  cases m with
  | pow c i =>
    have hn : NormalPower c i := h.normal
    constructor
    · rintro ⟨q, rfl, -⟩
      exact Or.inr ⟨q, i, rfl⟩
    · rintro (⟨q, hq, -⟩ | ⟨q, p, hq⟩)
      · cases hq
      · obtain ⟨rfl, rfl⟩ := Expr.pow.inj hq
        exact ⟨q, rfl, (hn.upright q rfl).1⟩
  | num q => simp [Expr.base]
  | sym | prod | sum => simp [Expr.base]

/-- A power of exponent zero is undefined if its base has no form, or one that is neither a number
other than zero nor a power of a number. -/
theorem not_hasUnit_iff {b : Expr} : ¬ HasUnit guess b ↔
    (∃ err, b.simplify guess = .error err) ∨
      ∃ m, b.simplify guess = .ok m ∧ (∀ q, m = .num q → q = 0) ∧ ∀ q p, m ≠ .pow (.num q) p := by
  unfold HasUnit
  cases h : b.simplify guess with
  | error err => simp
  | ok m =>
    have hiff := (reduced_of_yields (yields_of_simplifyTraced h)).base_eq_num_iff
    simp only [Except.ok.injEq, exists_and_left, exists_eq_left', reduceCtorEq, exists_false,
      false_or]
    rw [hiff, not_or]
    simp

/-- The pass fails exactly where there is a power of exponent zero whose base has no form, or one
that is neither a number other than zero nor a power of a number. The error is then that of the
exponent zero, and there is no other. -/
theorem simplify_fails_iff (guess : RootGuess) (e : Expr) :
    ((∃ err, e.simplify guess = .error err) ↔
        ∃ b, .pow b 0 ∈ e.nodes ∧
          ((∃ err, b.simplify guess = .error err) ∨
            ∃ m, b.simplify guess = .ok m ∧ (∀ q, m = .num q → q = 0) ∧
              ∀ q p, m ≠ .pow (.num q) p)) ∧
      (∀ err, e.simplify guess = .error err →
        err = .undefined .zeroToZero ∨ ∃ c, err = .undefined (.vanishedExponent c)) ∧
      (ZeroFree e → ∃ n, e.simplify guess = .ok n) := by
  refine ⟨?_, fun err => eq_undefined_of_simplify, exists_simplify_eq_ok guess⟩
  have hfails : (∃ err, e.simplify guess = .error err) ↔ ¬ ∃ n, e.simplify guess = .ok n := by
    cases e.simplify guess <;> simp
  rw [hfails, exists_simplify_iff, ZerothDefined, Expr.Powers, everywhere_iff_forall_mem_nodes]
  simp only [← not_hasUnit_iff]
  push Not
  constructor
  · rintro ⟨d, hd, b, _, rfl, rfl, hunit⟩
    exact ⟨b, hd, hunit⟩
  · rintro ⟨b, hd, hunit⟩
    exact ⟨_, hd, b, 0, rfl, rfl, hunit⟩

end ExactAlgebra.Canonical
