import ExactAlgebra.Command.Run
import Mathlib.Tactic.NormNum

/-!
# Which roots are guessed

The guess at a root is made with floating numbers. It is asked for only where these serve: the
radicand and the index are integers that a floating number is near to, and the index is positive. So
a run does not depend on what the guess is elsewhere (`run_congr`).

All of the algebra takes its guesses through `exactRoot`, and there alone a radicand and an index
are looked at. Two guesses with the same exact roots have the same canonical forms, exponents,
lines, programs and runs.
-/

namespace ExactAlgebra

variable {guess guess' : RootGuess}

namespace Root

/-- An integer to which a floating number is near, as all are but those that are too large. -/
def HasDouble (n : ℕ) : Prop :=
  ∃ mantissa exponent, Double.ofQuotient false n 1 = .finite false mantissa exponent

theorem logTwoFloor_le (n : ℕ) : Double.logTwoFloor n 1 ≤ n.log2 := by
  unfold Double.logTwoFloor
  dsimp only
  rw [show Nat.log2 1 = 0 from rfl]
  split_ifs <;> omega

/-- A floating number is near to an integer of up to 1000 bits. -/
theorem hasDouble_of_lt {n : ℕ} (h : n.log2 < guessedBits) : HasDouble n := by
  have hlog := logTwoFloor_le n
  unfold guessedBits at h
  unfold HasDouble Double.ofQuotient
  dsimp only
  generalize he : (if Double.logTwoFloor n 1 - (significantBits - 1 : ℕ) < Double.leastExponent then
    Double.leastExponent else Double.logTwoFloor n 1 - (significantBits - 1 : ℕ)) = e
  -- rounding may carry the mantissa over, by one place
  have hplaces : e + 1 ≤ Double.greatestExponent := by
    rw [← he, Double.leastExponent, Double.greatestExponent, significantBits]
    split_ifs <;> omega
  split
  · exact ⟨_, _, if_neg (not_lt.mpr hplaces)⟩
  · exact ⟨_, _, if_neg (not_lt.mpr (by omega))⟩

/-- Guesses that agree wherever floating numbers serve find the same roots. -/
theorem exactRoot_congr
    (h : ∀ n r, HasDouble n → HasDouble r → 0 < r → guess n r = guess' n r) :
    exactRoot guess = exactRoot guess' := by
  funext n r
  unfold exactRoot
  split_ifs with hsmall hbits hr hwide
  · rfl
  · rfl
  · rfl
  · rfl
  · -- the radicand has at most 1000 bits, and the index is less than their number
    have hlog : n.toNat.log2 < guessedBits := by
      rw [bitLength, if_neg (by omega)] at hwide
      have : n.natAbs = n.toNat := by omega
      rw [← this]
      omega
    have hr' : r.toNat.log2 < guessedBits := by
      have : r.toNat.log2 ≤ r.toNat := Nat.log2_le_self _
      omega
    rw [guessedRoot?, guessedRoot?,
      h _ _ (hasDouble_of_lt hlog) (hasDouble_of_lt hr') (by omega)]

end Root

section

variable (h : Root.exactRoot guess = Root.exactRoot guess')

include h

/-! ### Canonical forms -/

theorem Canonical.power_congr : power guess = power guess' := by
  have hroot : Root.rationalRoot guess = Root.rationalRoot guess' := by
    funext q r
    rw [Root.rationalRoot, Root.rationalRoot, h]
  have hpositive : positivePower guess = positivePower guess' := by
    funext q e
    rw [positivePower, positivePower, hroot]
  have hnumber : numberPower guess = numberPower guess' := by
    funext q e
    rw [numberPower, numberPower, hpositive]
  funext b e
  simp only [power, raised, hnumber]

theorem Canonical.within_congr (steps : ℕ) : within guess steps = within guess' steps := by
  induction steps with
  | zero => rfl
  | succ steps ih =>
    funext e
    cases e with
    | num | sym => rfl
    | pow => simp only [within, reduce, ih, power_congr h]
    | prod | sum => simp only [within, reduce, ih]

theorem Expr.simplifyTraced_congr : simplifyTraced guess = simplifyTraced guess' := by
  funext e
  rw [simplifyTraced, simplifyTraced, Canonical.within_congr h]

theorem Expr.toExponent_congr : toExponent guess = toExponent guess' := by
  funext e
  simp only [toExponent, simplifyTraced_congr h]

/-! ### Input -/

theorem Operation.combine_congr : combine guess = combine guess' := by
  funext o a b
  simp only [combine, Expr.toExponent_congr h]

theorem Operation.powerTower_congr : powerTower guess = powerTower guess' := by
  funext es
  induction es with
  | nil => rfl
  | cons b es ih =>
    match es with
    | [] => rfl
    | [e] => rw [powerTower, powerTower, combine_congr h]
    | d :: e :: es =>
      simp only [powerTower, combine_congr h] at ih ⊢
      rw [ih]

theorem Operation.combineAll_congr : combineAll guess = combineAll guess' := by
  funext o es
  simp only [combineAll, powerTower_congr h]

theorem TokenOrder.readTokens_congr : readTokens guess = readTokens guess' := by
  have htoken : readToken guess = readToken guess' := by
    funext order stack t
    simp only [readToken, Operation.combine_congr h]
  funext order stack ts
  induction ts generalizing stack with
  | nil => rfl
  | cons t ts ih => simp only [readTokens, htoken, ih]

theorem Program.run_congr : run guess = run guess' := by
  have hstep : step guess = step guess' := by
    funext results i
    simp only [step, made, Operation.combineAll_congr h]
  have hsteps : steps guess = steps guess' := by
    funext results is
    induction is generalizing results with
    | nil => rfl
    | cons i is ih => simp only [steps, hstep, ih]
  funext is
  simp only [run, hsteps]

/-! ### Runs -/

theorem Options.run_eq_of_exactRoot_eq (o : Options) (input : String) :
    o.run guess input = o.run guess' input := by
  have hanswer : Command.answer guess = Command.answer guess' := by
    funext c e
    simp only [Command.answer, Expr.simplifyTraced_congr h]
  have hline : answerLine guess = answerLine guess' := by
    funext o line
    simp only [answerLine, TokenOrder.readLine, TokenOrder.readTokens_congr h, hanswer]
  have hprogram : answerProgram guess = answerProgram guess' := by
    funext o lines
    simp only [answerProgram, Program.run_congr h, hanswer]
  simp only [run, answers, hline, hprogram]

end

/-- A run does not depend on the guess where floating numbers do not serve. -/
theorem Options.run_congr (o : Options) (input : String)
    (h : ∀ n r, Root.HasDouble n → Root.HasDouble r → 0 < r → guess n r = guess' n r) :
    o.run guess input = o.run guess' input :=
  run_eq_of_exactRoot_eq (Root.exactRoot_congr h) o input

end ExactAlgebra
