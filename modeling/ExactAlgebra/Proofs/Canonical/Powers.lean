import ExactAlgebra.Canonical.Power
import ExactAlgebra.Proofs.Arithmetic
import ExactAlgebra.Proofs.Roots

/-!
# What becomes of a power

`power` raises an expression in canonical form to an exponent. What it can do is said once, as the
relation `Raises`, with a case for each way in which it ends (`raises_of_power`), and its failures
are those of the exponent zero (`power_eq_error`).

A power of a number is made upright, with a positive exponent, before a root is looked for. It is
then either worked out rightly or left as it is, for want of a root (`positivePower_cases`).
-/

namespace ExactAlgebra.Canonical

variable (guess : RootGuess)

/-! ### Powers of numbers -/

/-- A root that a power of a number asks for is not there, or it is not found. -/
def RootMissing (q e : Rat) : Prop :=
  (q < 0 ∧ e.den % 2 = 0) ∨ Root.rationalRoot guess q e.den = .ok none

/-- A root is missing for want of a real root, or because that of the numerator or the denominator
is not found. -/
theorem rootMissing_iff {q e : Rat} :
    RootMissing guess q e ↔ (q < 0 ∧ e.den % 2 = 0) ∨
      Root.exactRoot guess q.num.natAbs e.den = .ok none ∨
        Root.exactRoot guess q.den e.den = .ok none := by
  rw [RootMissing]
  refine or_congr_right' fun hreal => ?_
  have hparity : ¬ (q.num < 0 ∧ (e.den : ℤ) % 2 = 0) := by
    rintro ⟨hq, he⟩
    exact hreal ⟨Rat.num_neg.mp hq, by omega⟩
  obtain ⟨num, hnum, -⟩ := Root.exactRoot_spec guess (n := q.num.natAbs) e.pos
  obtain ⟨den, hden, hden'⟩ := Root.exactRoot_spec guess (n := q.den) e.pos
  rw [Root.rationalRoot, if_neg hparity, hnum, hden]
  cases num with
  | none => exact iff_of_true rfl (Or.inl rfl)
  | some n =>
    cases den with
    | none => exact iff_of_true rfl (Or.inr rfl)
    | some d =>
      refine iff_of_false ?_ (by simp)
      intro h
      have h : some <$> Rational.ofInts (if q.num < 0 then -n else n) d = .ok none := h
      cases hr : Rational.ofInts (if q.num < 0 then -n else n) d with
      | ok v =>
        rw [hr] at h
        cases h
      | error err =>
        rw [hr] at h
        cases h

/-- A number and its reciprocal miss the same roots. -/
theorem rootMissing_inv {q e : Rat} (hq : q ≠ 0) :
    RootMissing guess q⁻¹ e ↔ RootMissing guess q e := by
  have hnum : (q⁻¹).num.natAbs = q.den := by
    rw [Rat.num_inv, Int.natAbs_mul, Int.natAbs_sign_of_ne_zero (Rat.num_ne_zero.mpr hq), one_mul,
      Int.natAbs_natCast]
  rw [rootMissing_iff, rootMissing_iff, hnum, Rat.den_inv_of_ne_zero hq, inv_lt_zero,
    or_comm (a := Root.exactRoot _ _ _ = _)]

/-- Of the numbers of magnitude one no root is missing but the even ones of minus one. -/
theorem even_den_of_rootMissing {q e : Rat} (hq : q * q = 1) (h : RootMissing guess q e) :
    q = -1 ∧ e.den % 2 = 0 := by
  have hone : Root.exactRoot guess 1 e.den = .ok (some 1) := rfl
  have hsquare : q = 1 ∨ q = -1 := mul_self_eq_one_iff.mp hq
  rw [rootMissing_iff] at h
  rcases hsquare with rfl | rfl
  · rcases h with ⟨hneg, -⟩ | h | h
    · exact absurd hneg (by norm_num)
    · cases hone.symm.trans h
    · cases hone.symm.trans h
  · rcases h with ⟨-, heven⟩ | h | h
    · exact ⟨rfl, heven⟩
    · cases hone.symm.trans h
    · cases hone.symm.trans h

/-- A positive power of a number other than zero is worked out, by a root that is one, or else it is
left as it is, for want of a root. -/
theorem positivePower_cases {q e : Rat} (hq : q ≠ 0) (he : 0 < e) :
    (∃ r, r ^ e.den = q ∧ (0 < q → 0 < r) ∧ ¬ RootMissing guess q e ∧
        positivePower guess q e = .ok (.num (r ^ e.num.toNat))) ∨
      (RootMissing guess q e ∧ positivePower guess q e = .ok (.pow (.num q) e)) := by
  unfold positivePower
  by_cases hparity : 0 < q.num ∨ e.den % 2 = 1
  · rw [if_pos hparity]
    have hparity' : 0 < q ∨ e.den % 2 = 1 := hparity.imp_left Rat.num_pos.mp
    obtain ⟨o, ho, hroot⟩ := Root.rationalRoot_spec guess e.pos hparity'
    rw [ho]
    cases o with
    | none => exact Or.inr ⟨Or.inr ho, rfl⟩
    | some r =>
      obtain ⟨hr, hpos⟩ := hroot r rfl
      refine Or.inl ⟨r, hr, hpos, ?_, ?_⟩
      · rintro (⟨hneg, heven⟩ | hnone)
        · rcases hparity' with h | h
          · exact absurd h (not_lt.mpr hneg.le)
          · omega
        · rw [ho] at hnone
          cases hnone
      · show (Rational.power r e.num >>= fun v => pure (Expr.num v)) = _
        rw [Rational.power_intCast r (Rat.num_pos.mpr he).le]
        rfl
  · rw [if_neg hparity]
    refine Or.inr ⟨Or.inl ?_, rfl⟩
    rw [not_or, Rat.num_pos, not_lt] at hparity
    exact ⟨lt_of_le_of_ne hparity.1 hq, by omega⟩

/-- A power of a number with its exponent made positive: the base is inverted if it was not. -/
def upright (q p : Rat) : Rat × Rat :=
  if p < 0 then (q⁻¹, -p) else (q, p)

theorem upright_of_pos {q p : Rat} (hp : 0 < p) : upright q p = (q, p) :=
  if_neg (not_lt.mpr hp.le)

theorem upright_spec {q p : Rat} (hq : q ≠ 0) (hp : p ≠ 0) :
    (upright q p).1 ≠ 0 ∧ 0 < (upright q p).2 := by
  unfold upright
  split_ifs with h
  · exact ⟨inv_ne_zero hq, neg_pos.mpr h⟩
  · exact ⟨hq, lt_of_le_of_ne (not_lt.mp h) hp.symm⟩

theorem upright_pos_iff {q p : Rat} : 0 < (upright q p).1 ↔ 0 < q := by
  unfold upright
  split_ifs
  · exact inv_pos
  · exact Iff.rfl

/-- The root that a power asks for is the same one when it is made upright. -/
theorem rootMissing_upright {q p : Rat} (hq : q ≠ 0) :
    RootMissing guess (upright q p).1 (upright q p).2 ↔ RootMissing guess q p := by
  unfold upright
  split_ifs
  · rw [rootMissing_inv guess hq, RootMissing, RootMissing, Rat.neg_den]
  · exact Iff.rfl

theorem numberPower_eq {q p : Rat} (hq : q ≠ 0) (hp : p ≠ 0) :
    numberPower guess q p = positivePower guess (upright q p).1 (upright q p).2 := by
  rw [numberPower, if_neg hq, if_neg hp, upright]
  by_cases h : p < 0
  · rw [if_pos (Rat.num_neg.mpr h), if_pos h, Rational.reciprocal_eq, if_neg hq,
      Rational.negate_eq]
    rfl
  · rw [if_neg (fun hn => h (Rat.num_neg.mp hn)), if_neg h]

/-- A power of a number whose root is missing is only made upright. -/
theorem numberPower_of_rootMissing {q p : Rat} (hq : q ≠ 0) (hp : p ≠ 0)
    (h : RootMissing guess q p) :
    numberPower guess q p = .ok (.pow (.num (upright q p).1) (upright q p).2) := by
  obtain ⟨hq', hp'⟩ := upright_spec hq hp
  rw [numberPower_eq guess hq hp]
  rcases positivePower_cases guess hq' hp' with ⟨_, -, -, hfound, -⟩ | ⟨-, hn⟩
  · exact absurd ((rootMissing_upright guess hq).mpr h) hfound
  · exact hn

/-! ### Powers of expressions -/

/-- The expression `c`, with no power drawn into it, raised to `p` is `n`. -/
inductive Raises : Expr → Rat → Expr → Prop
  | one (c : Expr) : Raises c 1 c
  | zero {p : Rat} (hp : p ≠ 0) (hp1 : p ≠ 1) : Raises (.num 0) p (.num 0)
  | unit {q : Rat} (hq : q ≠ 0) : Raises (.num q) 0 (.num 1)
  /-- The power of a number is worked out. -/
  | root {q p r : Rat} (hq : q ≠ 0) (hp : p ≠ 0) (hp1 : p ≠ 1)
      (hroot : r ^ (upright q p).2.den = (upright q p).1)
      (hpos : 0 < q → 0 < r) : Raises (.num q) p (.num (r ^ (upright q p).2.num.toNat))
  /-- The power of a number is left, for want of a root. -/
  | left {q p : Rat} (hq : q ≠ 0) (hp : p ≠ 0) (hp1 : p ≠ 1)
      (hmissing : RootMissing guess (upright q p).1 (upright q p).2) :
      Raises (.num q) p (.pow (.num (upright q p).1) (upright q p).2)
  | keep {c : Expr} {p : Rat} (hc : c.kind ≠ .rational) (hp : p ≠ 0) (hp1 : p ≠ 1) :
      Raises c p (.pow c p)

/-- A number raised to an exponent other than one: zero to the exponent zero is refused, and all else
comes to something. -/
theorem numberPower_cases (q : Rat) {p : Rat} (hp1 : p ≠ 1) :
    (∃ n, numberPower guess q p = .ok n ∧ Raises guess (.num q) p n) ∨
      (q = 0 ∧ p = 0 ∧ numberPower guess q p = .error (.undefined .zeroToZero)) := by
  by_cases hq : q = 0
  · subst hq
    by_cases hp : p = 0
    · refine Or.inr ⟨rfl, hp, ?_⟩
      rw [numberPower, if_pos rfl, if_pos hp]
    · refine Or.inl ⟨_, ?_, .zero hp hp1⟩
      rw [numberPower, if_pos rfl, if_neg hp]
  · by_cases hp : p = 0
    · subst hp
      refine Or.inl ⟨_, ?_, .unit hq⟩
      rw [numberPower, if_neg hq, if_pos rfl]
    · obtain ⟨hq', hp'⟩ := upright_spec hq hp
      rw [numberPower_eq guess hq hp]
      rcases positivePower_cases guess hq' hp' with ⟨r, hr, hpos, -, hn⟩ | ⟨hmissing, hn⟩
      · exact Or.inl ⟨_, hn, .root hq hp hp1 hr fun h => hpos (upright_pos_iff.mpr h)⟩
      · exact Or.inl ⟨_, hn, .left hq hp hp1 hmissing⟩

/-- Anything but a number is kept as it is raised, unless the exponent is one or zero. -/
theorem raised_of_ne {c : Expr} (hc : c.kind ≠ .rational) (p : Rat) :
    raised guess c p = if p = 1 then .ok c
      else if p = 0 then .error (.undefined (.vanishedExponent c)) else .ok (.pow c p) := by
  cases c with
  | num => exact absurd rfl hc
  | sym | pow | prod | sum => rfl

/-- An expression with no power drawn into it, raised to an exponent: it comes to something, or the
exponent is zero and it is no number other than zero. -/
theorem raised_cases (c : Expr) (p : Rat) :
    (∃ n, raised guess c p = .ok n ∧ Raises guess c p n) ∨
      ∃ err, raised guess c p = .error err ∧ p = 0 ∧
        ((c = .num 0 ∧ err = .undefined .zeroToZero) ∨
          (c.kind ≠ .rational ∧ err = .undefined (.vanishedExponent c))) := by
  by_cases hp1 : p = 1
  · subst hp1
    exact Or.inl ⟨c, if_pos rfl, .one c⟩
  by_cases hc : c.kind = .rational
  · cases c with
    | num q =>
      rw [raised, if_neg hp1]
      rcases numberPower_cases guess q hp1 with h | ⟨rfl, hp, h⟩
      · exact Or.inl h
      · exact Or.inr ⟨_, h, hp, Or.inl ⟨rfl, rfl⟩⟩
    | sym | pow | prod | sum => cases hc
  · rw [raised_of_ne guess hc, if_neg hp1]
    by_cases hp : p = 0
    · exact Or.inr ⟨_, if_pos hp, hp, Or.inr ⟨hc, rfl⟩⟩
    · exact Or.inl ⟨_, if_neg hp, .keep hc hp hp1⟩

theorem raises_of_raised {c n : Expr} {p : Rat} (h : raised guess c p = .ok n) :
    Raises guess c p n := by
  rcases raised_cases guess c p with ⟨m, hm, hraises⟩ | ⟨err, herr, -⟩
  · rwa [← Except.ok.inj (hm.symm.trans h)]
  · cases herr.symm.trans h

theorem drawnTogether_pow (c : Expr) (i p : Rat) : drawnTogether (.pow c i) p = (c, p * i) := by
  rw [drawnTogether, Rational.multiply_eq]

/-- What a power comes to. -/
theorem raises_of_power {b n : Expr} {p : Rat} (h : power guess b p = .ok n) :
    Raises guess (drawnTogether b p).1 (drawnTogether b p).2 n :=
  raises_of_raised guess h

theorem raised_eq_error {c : Expr} {p : Rat} {err : Error} (h : raised guess c p = .error err) :
    p = 0 ∧ ((c = .num 0 ∧ err = .undefined .zeroToZero) ∨
      (c.kind ≠ .rational ∧ err = .undefined (.vanishedExponent c))) := by
  rcases raised_cases guess c p with ⟨m, hm, -⟩ | ⟨err', herr, hcases⟩
  · cases hm.symm.trans h
  · rwa [← Except.error.inj (herr.symm.trans h)]

/-- A power fails for the exponent zero alone, and only where no number other than zero is raised to
it. -/
theorem power_eq_error {b : Expr} {p : Rat} {err : Error} (h : power guess b p = .error err) :
    (drawnTogether b p).2 = 0 ∧
      (((drawnTogether b p).1 = .num 0 ∧ err = .undefined .zeroToZero) ∨
        ((drawnTogether b p).1.kind ≠ .rational ∧
          err = .undefined (.vanishedExponent (drawnTogether b p).1))) :=
  raised_eq_error guess h

end ExactAlgebra.Canonical
