import ExactAlgebra.Proofs.Command.Guesses
import ExactAlgebra.Proofs.Notation.Reading
import ExactAlgebra.Proofs.Notation.Unfolding
import ExactAlgebra.Proofs.Passes

/-!
# Every run is answered

A command line that asks for something gets an answer, whatever is on its input: all lines are dealt
with and the status is zero, or an error of the algebra ends the run and the status is one
(`run_answered`). The other errors never come up. No kind of node is left out, no computation runs
out of steps, and no search for a root divides by zero: the index is the denominator of an exponent,
which is positive, and Newton's iteration stays at or above a root that is at least one.

A computation is answered if what it goes on with is (`Answered.bind`), so that it is enough to look
at the places where an error is made.

What is read is well formed, and what the passes make of it stays so (`Met.wellFormed`). So each
pass does as its case table says, and no sum or product is asked for that has fewer than two
children.
-/

namespace ExactAlgebra

variable {guess : RootGuess}

namespace Error

variable {α β : Type}

/-- There is a result, or an error of the algebra. -/
def Answered (x : Except Error α) : Prop :=
  (∃ a, x = .ok a) ∨ ∃ e, x = .error (.algebra e)

theorem answered_ok (a : α) : Answered (.ok a) := Or.inl ⟨a, rfl⟩

theorem answered_invalid (cause : InvalidArgument) :
    Answered (.error (.invalid cause) : Except Error α) :=
  Or.inr ⟨_, rfl⟩

theorem answered_undefined (cause : UndefinedArithmetic) :
    Answered (.error (.undefined cause) : Except Error α) :=
  Or.inr ⟨_, rfl⟩

/-- What goes on from one answered computation to another is answered. -/
theorem Answered.bind {x : Except Error α} {f : α → Except Error β} (hx : Answered x)
    (hf : ∀ a, Answered (f a)) : Answered (x >>= f) := by
  rcases hx with ⟨a, rfl⟩ | ⟨e, rfl⟩
  · exact hf a
  · exact Or.inr ⟨e, rfl⟩

theorem answered_mapM {f : α → Except Error β} (hf : ∀ a, Answered (f a)) (as : List α) :
    Answered (as.mapM f) := by
  induction as with
  | nil => exact answered_ok []
  | cons a as ih =>
    rw [List.mapM_cons]
    exact (hf a).bind fun b => ih.bind fun bs => answered_ok (b :: bs)

end Error

open Error

/-! ### Expressions -/

theorem Expr.answered_simplify (e : Expr) : Answered (e.simplify guess) := by
  cases h : e.simplify guess with
  | ok n => exact answered_ok n
  | error err =>
    rcases Canonical.eq_undefined_of_simplify h with rfl | ⟨c, rfl⟩
    · exact answered_undefined _
    · exact answered_undefined _

theorem Expr.answered_toExponent (e : Expr) : Answered (e.toExponent guess).outcome := by
  cases h : (e.toExponent guess).outcome with
  | ok q => exact answered_ok q
  | error err =>
    rcases toExponent_eq_error h with rfl | ⟨cause, rfl⟩
    · exact answered_invalid _
    · exact answered_undefined cause

theorem Expr.answered_sumOf (es : List Expr) : Answered (sumOf es) := by
  unfold sumOf
  split_ifs
  · exact answered_invalid _
  · exact answered_ok _

theorem Expr.answered_prodOf (es : List Expr) : Answered (prodOf es) := by
  unfold prodOf
  split_ifs
  · exact answered_invalid _
  · exact answered_ok _

namespace Operation

theorem answered_combine (o : Operation) (a b : Expr) : Answered (o.combine guess a b).outcome := by
  cases o with
  | add | subtract | multiply | divide => exact answered_ok _
  | raise =>
    rw [combine, Traced.outcome_bind]
    exact b.answered_toExponent.bind fun q => answered_ok _

theorem answered_powerTower (es : List Expr) : Answered (powerTower guess es).outcome := by
  induction es with
  | nil => exact answered_invalid _
  | cons b es ih =>
    match es with
    | [] => exact answered_invalid _
    | [e] => exact answered_combine raise b e
    | d :: e :: es =>
      rw [powerTower_cons, Traced.outcome_bind]
      exact ih.bind fun c => answered_combine raise b c

theorem answered_combineAll (o : Operation) (es : List Expr) :
    Answered (o.combineAll guess es).outcome := by
  cases o with
  | add | subtract => exact Expr.answered_sumOf _
  | multiply | divide => exact Expr.answered_prodOf _
  | raise => exact answered_powerTower es

end Operation

/-! ### Lines and programs -/

theorem TokenOrder.answered_readLine (order : TokenOrder) (line : String) :
    Answered (order.readLine guess (.text line)).outcome := by
  cases h : (order.readLine guess (.text line)).outcome with
  | ok e => exact answered_ok e
  | error err =>
    rcases order.readLine_eq_error h with ⟨token, rfl, -⟩ | ⟨cause, rfl⟩ | ⟨cause, rfl⟩
    · exact Or.inr ⟨_, rfl⟩
    · exact answered_invalid cause
    · exact answered_undefined cause

namespace Program

theorem answered_resultAt (results : List Expr) (token : String) :
    Answered (resultAt results token) := by
  unfold resultAt
  split
  · exact answered_invalid _
  · split
    · exact answered_ok _
    · exact answered_invalid _

theorem answered_declaredLeaf (line : String) (args : List String) :
    Answered (declaredLeaf line args) := by
  unfold declaredLeaf
  split
  · split
    · exact answered_ok _
    · exact answered_invalid _
  · exact answered_invalid _

theorem answered_made (results : List Expr) (line head : String) (args : List String) :
    Answered (made guess results line head args).outcome := by
  unfold made
  split_ifs
  · exact answered_declaredLeaf line args
  · split
    · rw [Traced.outcome_bind]
      exact (answered_mapM (answered_resultAt results) args).bind (Operation.answered_combineAll _)
    · exact answered_invalid _

theorem answered_step (results : List Expr) (i : Scalar) :
    Answered (step guess results i).outcome := by
  unfold step
  split
  · exact answered_invalid _
  · split
    · exact answered_ok _
    · simp only [Traced.outcome_bind]
      exact (answered_made results _ _ _).bind fun e => answered_ok _

theorem answered_steps (results : List Expr) (is : List Scalar) :
    Answered (steps guess results is).outcome := by
  induction is generalizing results with
  | nil => exact answered_ok results
  | cons i is ih =>
    rw [steps, Traced.outcome_bind]
    exact (answered_step results i).bind ih

theorem answered_run (is : List Scalar) : Answered (run guess (some is)).outcome := by
  rw [run, Traced.outcome_bind]
  refine (answered_steps [] is).bind fun results => ?_
  cases results.getLast? with
  | some e => exact answered_ok e
  | none => exact answered_invalid _

end Program

/-! ### Expressions that are met -/

/-- The expressions that are read in runs, and those that the passes make of them. -/
inductive Met (guess : RootGuess) : Expr → Prop
  | line {order : TokenOrder} {line : String} {e : Expr}
      (h : (order.readLine guess (.text line)).outcome = .ok e) : Met guess e
  | program {lines : List String} {e : Expr}
      (h : (Program.run guess (some (lines.map .text))).outcome = .ok e) : Met guess e
  | simplify {e n : Expr} (h : Met guess e) (hn : e.simplify guess = .ok n) : Met guess n
  | expand {e : Expr} (h : Met guess e) : Met guess e.expand
  | derivative {e : Expr} (x : Letter) (h : Met guess e) : Met guess (e.derivative x)

/-- Every node of an expression that is met could be built: a sum or product has at least two
children. -/
theorem Met.wellFormed {e : Expr} (h : Met guess e) : e.WellFormed := by
  induction h with
  | @line order line e h =>
    obtain ⟨T, -, hbuild⟩ := order.readLine_eq_ok_iff.mp h
    exact TokenTree.wellFormed_build hbuild
  | program h => exact (Program.unfolds_of_run h).wellFormed
  | simplify _ hn =>
    have hyields := Canonical.yields_of_simplifyTraced hn
    exact (Canonical.reduced_of_yields hyields).wellFormed
  | expand _ ih => exact Expr.wellFormed_expand ih
  | derivative x _ ih => exact Expr.wellFormed_derivative ih

/-! ### Commands -/

theorem Command.answered_answer (c : Command) (e : Expr) :
    Answered (c.answer guess e).outcome := by
  have hlinear : ∀ d : Expr,
      Answered (d.simplifyTraced guess >>= fun n => pure n.linear : Traced String).outcome := by
    intro d
    rw [Traced.outcome_bind]
    exact d.answered_simplify.bind fun n => answered_ok n.linear
  cases c with
  | parse | tree => exact answered_ok _
  | simplify => exact hlinear e
  | expand simplified | program simplified =>
    cases simplified with
    | false => exact answered_ok _
    | true => exact hlinear _
  | derive v =>
    rw [answer, Traced.outcome_bind]
    refine Answered.bind ?_ fun x => hlinear _
    show Answered (Variable.scalar (.text v)).toLetter
    unfold Variable.toLetter
    split
    · exact answered_ok _
    · split
      · exact answered_ok _
      · exact answered_invalid _

namespace Options

theorem answered_answerLine (o : Options) (line : String) :
    Answered (o.answerLine guess line).outcome := by
  simp only [answerLine, Traced.outcome_bind]
  refine (o.order.answered_readLine line).bind fun e => ?_
  exact (answered_ok ()).bind fun _ => o.command.answered_answer e

theorem answered_answerProgram (o : Options) (lines : List String) :
    Answered (o.answerProgram guess lines).outcome := by
  rw [answerProgram, Traced.outcome_bind]
  exact (Program.answered_run _).bind o.command.answered_answer

/-- The error that ends a run is one of the algebra. -/
theorem failure_inTurn {α : Type} {answer : α → Traced String}
    (h : ∀ a, Answered (answer a).outcome) {as : List α} {err : Error}
    (herr : (inTurn answer as).2.2 = some err) : ∃ e, err = .algebra e := by
  induction as with
  | nil => cases herr
  | cons a as ih =>
    have ha := h a
    rw [inTurn] at herr
    split at herr
    · exact ih herr
    · rename_i notes e hanswer
      cases herr
      rw [hanswer] at ha
      rcases ha with ⟨text, htext⟩ | ⟨e, he⟩
      · cases htext
      · exact ⟨e, Except.error.inj he⟩

theorem failure_answers {o : Options} {input : String} {err : Error}
    (h : (o.answers guess input).2.2 = some err) : ∃ e, err = .algebra e := by
  unfold answers at h
  dsimp only at h
  split at h
  · exact failure_inTurn o.answered_answerProgram h
  · exact failure_inTurn o.answered_answerLine h

/-- A run leaves a transcript. -/
theorem exists_run_eq_ok (guess : RootGuess) (o : Options) (input : String) :
    ∃ t, o.run guess input = .ok t := by
  unfold run
  cases h : (o.answers guess input).2.2 with
  | none => simp [h]
  | some err =>
    obtain ⟨e, rfl⟩ := failure_answers h
    simp [h]

/-- Every run ends with the status zero, or with an error of the algebra and the status one. All
roots that a power asks for are searched for without an error, and Newton's iteration finds the root
of a positive number, rounded down, which is not zero. No root is guessed but for a radicand and a
positive index that floating numbers are near to: the run does not depend on other guesses. For an
expression that is read, or that a pass made of one, every pass has a case, and no node that it
builds is refused. -/
theorem run_answered (guess : RootGuess) (o : Options) (input : String) :
    (∃ t, o.run guess input = .ok t ∧
        ((t.status = 0 ∧ t.failure = none) ∨ (t.status = 1 ∧ ∃ e, t.failure = some e))) ∧
      (∀ err, (o.answers guess input).2.2 = some err → ∃ e, err = .algebra e) ∧
      (∀ q e : Rat, 0 < q.num ∨ e.den % 2 = 1 →
        ∃ root, Root.rationalRoot guess q e.den = .ok root) ∧
      (∀ n r : ℕ, 1 ≤ n → 1 ≤ r → ∃ x : ℕ, Root.floorRoot n r = .ok (x : ℤ) ∧ x ≠ 0) ∧
      (∀ guess' : RootGuess,
        (∀ n r, Root.HasDouble n → Root.HasDouble r → 0 < r → guess n r = guess' n r) →
          o.run guess input = o.run guess' input) ∧
      ∀ e, Met guess e → e.WellFormed ∧ Handled guess e := by
  refine ⟨?_, fun err => failure_answers, ?_, ?_, fun guess' => run_congr o input, ?_⟩
  · obtain ⟨t, ht⟩ := exists_run_eq_ok guess o input
    refine ⟨t, ht, ?_⟩
    cases h : t.failure with
    | none => exact Or.inl ⟨by rw [Transcript.status, h]; rfl, rfl⟩
    | some e => exact Or.inr ⟨by rw [Transcript.status, h]; rfl, e, rfl⟩
  · intro q e hparity
    obtain ⟨root, hroot, -⟩ := Root.rationalRoot_spec guess e.pos (hparity.imp_left Rat.num_pos.mp)
    exact ⟨root, hroot⟩
  · intro n r hn hr
    obtain ⟨x, hx, -, habove⟩ := Root.floorRoot_spec hn hr
    refine ⟨x, hx, ?_⟩
    rintro rfl
    rw [Nat.zero_add, one_pow] at habove
    omega
  · intro e he
    exact ⟨he.wellFormed, handled_of_wellFormed he.wellFormed⟩

end Options

end ExactAlgebra
