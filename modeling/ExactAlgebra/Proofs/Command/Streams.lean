import ExactAlgebra.Proofs.Command.Safety

/-!
# Streams of lines

A command takes the lines of its input one by one, and none has an influence on another: what a run
prints is what it prints for each line alone, one after the other, up to the first line that fails
(`run_lines`). A program is one question of its own, with one result or none.

Alone, a line is an input of its own: it is its only line (`inputLines_of_mem`), since lines hold no
ends of lines. The rest is about answering questions in turn: answers in front of others stay as
they are (`inTurn_append`), and an error leaves nothing behind it (`inTurn_error`).
-/

namespace ExactAlgebra

variable {guess : RootGuess}

/-! ### Lines -/

/-- A text without ends of lines is one line. -/
theorem Text.linesOf_eq_singleton {cs : List Char} (hne : cs ≠ [])
    (h : ∀ c ∈ cs, isLineEnd c = false) : linesOf cs = [cs] := by
  induction cs with
  | nil => exact absurd rfl hne
  | cons c cs ih =>
    obtain ⟨hc, hcs⟩ := List.forall_mem_cons.mp h
    have hlines : linesOf (c :: cs) = consLine c (linesOf cs) := by
      rw [linesOf]
      · simp [hc]
      · rintro ds rfl -
        exact absurd hc (by decide)
    rw [hlines]
    cases cs with
    | nil => rfl
    | cons d ds => rw [ih (List.cons_ne_nil d ds) hcs, consLine]

theorem Traced.eq_of_outcome {α : Type} {x : Traced α} {r : Except Error α}
    (h : x.outcome = r) : x = ⟨x.notes, r⟩ := by
  rw [← h]

namespace Options

/-- The lines of an input that are not blank. -/
def inputLines (input : String) : List String :=
  (Text.lines input).filter fun l => !(Text.words l).isEmpty

/-- A line of an input is the only line of the input that it is itself. -/
theorem inputLines_of_mem {input l : String} (h : l ∈ inputLines input) : inputLines l = [l] := by
  obtain ⟨hmem, hwords⟩ := List.mem_filter.mp h
  obtain ⟨cs, hcs, rfl⟩ := List.mem_map.mp hmem
  have hne : cs ≠ [] := by
    rintro rfl
    exact absurd hwords (by decide)
  have hlines : Text.lines (String.ofList cs) = [String.ofList cs] := by
    rw [Text.lines, String.toList_ofList,
      Text.linesOf_eq_singleton hne (Text.not_isLineEnd_of_mem hcs), List.map_singleton]
  rw [inputLines, hlines]
  exact List.filter_cons_of_pos hwords

/-! ### Answers in turn -/

section

variable {α : Type} {answer : α → Traced String}

theorem inTurn_cons {a : α} {text : String} (h : (answer a).outcome = .ok text) (as : List α) :
    inTurn answer (a :: as) = (text :: (inTurn answer as).1,
      (answer a).notes ++ (inTurn answer as).2.1, (inTurn answer as).2.2) := by
  rw [inTurn, Traced.eq_of_outcome h]

/-- An error leaves no answer to its question, nor to any behind it. -/
theorem inTurn_error {a : α} {err : Error} (h : (answer a).outcome = .error err) (as : List α) :
    inTurn answer (a :: as) = ([], (answer a).notes, some err) := by
  rw [inTurn, Traced.eq_of_outcome h]

/-- Answers come in front of those to further questions. -/
theorem inTurn_append {as : List α} {text : α → String}
    (h : ∀ a ∈ as, (answer a).outcome = .ok (text a)) (bs : List α) :
    (inTurn answer (as ++ bs)).1 = as.map text ++ (inTurn answer bs).1 ∧
      (inTurn answer (as ++ bs)).2.2 = (inTurn answer bs).2.2 := by
  induction as with
  | nil => exact ⟨rfl, rfl⟩
  | cons a as ih =>
    obtain ⟨ha, has⟩ := List.forall_mem_cons.mp h
    obtain ⟨htexts, hfailure⟩ := ih has
    rw [List.cons_append, inTurn_cons ha, List.map_cons, htexts, hfailure]
    exact ⟨rfl, rfl⟩

theorem inTurn_eq {as : List α} {text : α → String}
    (h : ∀ a ∈ as, (answer a).outcome = .ok (text a)) :
    (inTurn answer as).1 = as.map text ∧ (inTurn answer as).2.2 = none := by
  have happend := inTurn_append h []
  rw [List.append_nil] at happend
  exact happend.imp_left fun htexts => htexts.trans (List.append_nil _)

end

/-- A run prints all answers and ends with the status zero if none fails. -/
theorem run_of_answers {o : Options} {input : String} {texts : List String}
    (h : (o.answers guess input).1 = texts ∧ (o.answers guess input).2.2 = none) :
    ∃ t, o.run guess input = .ok t ∧ t.status = 0 ∧ t.stdout = Transcript.unlines texts := by
  obtain ⟨rfl, hfailure⟩ := h
  simp [run, hfailure, Transcript.status, Transcript.stdout]

/-- A run prints the answers in front of an error, and ends with the status one. -/
theorem run_of_error {o : Options} {input : String} {texts : List String} {err : Error}
    (h : (o.answers guess input).1 = texts ∧ (o.answers guess input).2.2 = some err) :
    ∃ t, o.run guess input = .ok t ∧ t.status = 1 ∧ t.stdout = Transcript.unlines texts := by
  obtain ⟨rfl, hfailure⟩ := h
  obtain ⟨e, rfl⟩ := failure_answers hfailure
  simp [run, hfailure, Transcript.status, Transcript.stdout]

/-! ### A line alone -/

/-- Alone, the line ends with the status zero. -/
def Succeeds (guess : RootGuess) (o : Options) (line : String) : Prop :=
  ∃ t, o.run guess line = .ok t ∧ t.status = 0

/-- Alone, the line ends with the status one. -/
def Fails (guess : RootGuess) (o : Options) (line : String) : Prop :=
  ∃ t, o.run guess line = .ok t ∧ t.status = 1

/-- What is printed for the line alone. -/
def printed (guess : RootGuess) (o : Options) (line : String) : String :=
  match o.run guess line with
  | .ok t => t.stdout
  | .error _ => ""

theorem Fails.not_succeeds {o : Options} {l : String} (h : o.Fails guess l) :
    ¬ o.Succeeds guess l := by
  rintro ⟨t, ht, hzero⟩
  obtain ⟨t', ht', hone⟩ := h
  obtain rfl := Except.ok.inj (ht.symm.trans ht')
  omega

section

variable {o : Options} (hc : ∀ simplified, o.command ≠ .program simplified)

include hc

theorem answers_eq (input : String) :
    o.answers guess input = inTurn (o.answerLine guess) (inputLines input) := by
  unfold answers
  dsimp only
  split
  · rename_i simplified h
    exact absurd h (hc simplified)
  · rfl

/-- A line that is answered succeeds alone, and its answer is what is printed. -/
theorem alone_of_ok {l text : String} (hl : inputLines l = [l])
    (h : (o.answerLine guess l).outcome = .ok text) :
    o.Succeeds guess l ∧ o.printed guess l = text ++ "\n" := by
  have hanswers : (o.answers guess l).1 = [text] ∧ (o.answers guess l).2.2 = none := by
    rw [answers_eq hc, hl, inTurn_cons h []]
    exact ⟨rfl, rfl⟩
  obtain ⟨t, ht, hstatus, hstdout⟩ := run_of_answers hanswers
  refine ⟨⟨t, ht, hstatus⟩, ?_⟩
  rw [printed, ht]
  simp [hstdout, Transcript.unlines]

/-- A line that is not answered fails alone. -/
theorem alone_of_error {l : String} {err : Error} (hl : inputLines l = [l])
    (h : (o.answerLine guess l).outcome = .error err) : o.Fails guess l := by
  have hanswers : (o.answers guess l).1 = [] ∧ (o.answers guess l).2.2 = some err := by
    rw [answers_eq hc, hl, inTurn_error h []]
    exact ⟨rfl, rfl⟩
  obtain ⟨t, ht, hstatus, -⟩ := run_of_error hanswers
  exact ⟨t, ht, hstatus⟩

theorem exists_answer_of_succeeds {l : String} (hl : inputLines l = [l])
    (h : o.Succeeds guess l) : ∃ text, (o.answerLine guess l).outcome = .ok text := by
  rcases o.answered_answerLine l with hok | ⟨e, he⟩
  · exact hok
  · exact absurd h (alone_of_error hc hl he).not_succeeds

theorem exists_error_of_fails {l : String} (hl : inputLines l = [l]) (h : o.Fails guess l) :
    ∃ err, (o.answerLine guess l).outcome = .error err := by
  have hanswered : Error.Answered (o.answerLine guess l).outcome := o.answered_answerLine l
  rcases hanswered with ⟨text, htext⟩ | ⟨e, he⟩
  · exact absurd (alone_of_ok hc hl htext).1 h.not_succeeds
  · exact ⟨_, he⟩

/-- The answers to lines that succeed alone are what is printed for them alone. -/
theorem exists_answers {ls : List String} (hls : ∀ l ∈ ls, inputLines l = [l])
    (h : ∀ l ∈ ls, o.Succeeds guess l) :
    ∃ text : String → String, (∀ l ∈ ls, (o.answerLine guess l).outcome = .ok (text l)) ∧
      Transcript.unlines (ls.map text) = String.join (ls.map (o.printed guess)) := by
  choose! text htext using fun l hl => exists_answer_of_succeeds hc (hls l hl) (h l hl)
  refine ⟨text, htext, ?_⟩
  rw [Transcript.unlines, List.map_map]
  refine congrArg String.join (List.map_congr_left fun l hl => ?_)
  exact (alone_of_ok hc (hls l hl) (htext l hl)).2.symm

/-- Where all lines succeed alone, a run prints what is printed for them alone. -/
theorem run_of_succeeds {input : String} (h : ∀ l ∈ inputLines input, o.Succeeds guess l) :
    ∃ t, o.run guess input = .ok t ∧ t.status = 0 ∧
      t.stdout = String.join ((inputLines input).map (o.printed guess)) := by
  obtain ⟨text, htext, hprinted⟩ := exists_answers hc (fun l hl => inputLines_of_mem hl) h
  rw [← hprinted]
  apply run_of_answers
  rw [answers_eq hc]
  exact inTurn_eq htext

/-- Up to the first line that fails alone, a run prints what is printed for the lines alone. -/
theorem run_of_fails {input l : String} {before after : List String}
    (hlines : inputLines input = before ++ l :: after)
    (hbefore : ∀ b ∈ before, o.Succeeds guess b) (hl : o.Fails guess l) :
    ∃ t, o.run guess input = .ok t ∧ t.status = 1 ∧
      t.stdout = String.join (before.map (o.printed guess)) := by
  have halone : ∀ b ∈ before ++ l :: after, inputLines b = [b] :=
    fun b hb => inputLines_of_mem (hlines ▸ hb)
  have hmem : ∀ b ∈ before, b ∈ before ++ l :: after := fun b => List.mem_append_left _
  obtain ⟨text, htext, hprinted⟩ := exists_answers hc (fun b hb => halone b (hmem b hb)) hbefore
  obtain ⟨err, herr⟩ := exists_error_of_fails hc (halone l (by simp)) hl
  obtain ⟨htexts, hfailure⟩ := inTurn_append htext (l :: after)
  rw [inTurn_error herr, List.append_nil] at htexts
  rw [inTurn_error herr] at hfailure
  rw [← hprinted]
  apply run_of_error
  rw [answers_eq hc, hlines]
  exact ⟨htexts, hfailure⟩

end

/-! ### Programs -/

/-- The expression that is printed for a program. -/
def programForm (guess : RootGuess) (simplified : Bool) (lines : List String) :
    Except Error Expr := do
  let e ← (Program.run guess (some (lines.map .text))).outcome
  if simplified then e.simplify guess else .ok e

theorem outcome_answerProgram {o : Options} {simplified : Bool}
    (hc : o.command = .program simplified) (lines : List String) :
    (o.answerProgram guess lines).outcome =
      programForm guess simplified lines >>= fun n => .ok n.linear := by
  rw [answerProgram, Traced.outcome_bind, programForm, bind_assoc]
  refine congrArg _ (funext fun e => ?_)
  rw [hc]
  cases simplified with
  | false => rfl
  | true =>
    show (e.simplifyTraced guess >>= fun n => pure n.linear : Traced String).outcome = _
    rw [Traced.outcome_bind]
    rfl

/-- A run of a program prints its result, or nothing. -/
theorem run_of_program {o : Options} {simplified : Bool} (hc : o.command = .program simplified)
    (input : String) :
    ∃ t, o.run guess input = .ok t ∧
      ((∃ n, programForm guess simplified (Text.lines input) = .ok n ∧
          t.status = 0 ∧ t.stdout = n.linear ++ "\n") ∨
        ((∃ err, programForm guess simplified (Text.lines input) = .error err) ∧
          t.status = 1 ∧ t.stdout = "")) := by
  have hanswers : o.answers guess input =
      inTurn (o.answerProgram guess) [Text.lines input] := by
    simp only [answers, hc]
  have houtcome : (o.answerProgram guess (Text.lines input)).outcome = _ :=
    outcome_answerProgram hc (Text.lines input)
  cases hform : programForm guess simplified (Text.lines input) with
  | ok n =>
    rw [hform] at houtcome
    have hone : (o.answers guess input).1 = [n.linear] ∧ (o.answers guess input).2.2 = none := by
      rw [hanswers, inTurn_cons houtcome []]
      exact ⟨rfl, rfl⟩
    obtain ⟨t, ht, hstatus, hstdout⟩ := run_of_answers hone
    exact ⟨t, ht, Or.inl ⟨n, rfl, hstatus, by simp [hstdout, Transcript.unlines]⟩⟩
  | error err =>
    rw [hform] at houtcome
    have hnone : (o.answers guess input).1 = [] ∧ (o.answers guess input).2.2 = some err := by
      rw [hanswers, inTurn_error houtcome []]
      exact ⟨rfl, rfl⟩
    obtain ⟨t, ht, hstatus, hstdout⟩ := run_of_error hnone
    exact ⟨t, ht, Or.inr ⟨⟨err, rfl⟩, hstatus, hstdout⟩⟩

/-- A command other than that of programs takes every line for itself: alone, each succeeds or
fails, and prints a text with a line feed at its end if it succeeds. If all of them succeed, the run
prints what they print alone, in order, and ends with the status zero; otherwise it prints that for
the lines in front of the first that fails, and ends with the status one. A program prints its one
result and ends with the status zero, or nothing and ends with the status one. -/
theorem run_lines (guess : RootGuess) (o : Options) (input : String) :
    ((∀ simplified, o.command ≠ .program simplified) →
      (∀ l ∈ inputLines input,
        (o.Succeeds guess l ∧ ∃ text, o.printed guess l = text ++ "\n") ∨ o.Fails guess l) ∧
      ((∀ l ∈ inputLines input, o.Succeeds guess l) →
        ∃ t, o.run guess input = .ok t ∧ t.status = 0 ∧
          t.stdout = String.join ((inputLines input).map (o.printed guess))) ∧
      ∀ before l after, inputLines input = before ++ l :: after →
        (∀ b ∈ before, o.Succeeds guess b) → o.Fails guess l →
          ∃ t, o.run guess input = .ok t ∧ t.status = 1 ∧
            t.stdout = String.join (before.map (o.printed guess))) ∧
    ∀ simplified, o.command = .program simplified →
      ∃ t, o.run guess input = .ok t ∧
        ((∃ n, programForm guess simplified (Text.lines input) = .ok n ∧
            t.status = 0 ∧ t.stdout = n.linear ++ "\n") ∨
          ((∃ err, programForm guess simplified (Text.lines input) = .error err) ∧
            t.status = 1 ∧ t.stdout = "")) := by
  refine ⟨fun hc => ⟨fun l hl => ?_, run_of_succeeds hc, fun before l after => run_of_fails hc⟩,
    fun simplified hc => run_of_program hc input⟩
  have hanswered : Error.Answered (o.answerLine guess l).outcome := o.answered_answerLine l
  rcases hanswered with ⟨text, htext⟩ | ⟨e, he⟩
  · obtain ⟨hsucceeds, hprinted⟩ := alone_of_ok hc (inputLines_of_mem hl) htext
    exact Or.inl ⟨hsucceeds, text, hprinted⟩
  · exact Or.inr (alone_of_error hc (inputLines_of_mem hl) he)

end Options

end ExactAlgebra
