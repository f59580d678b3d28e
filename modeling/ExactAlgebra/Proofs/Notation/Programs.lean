import ExactAlgebra.Input.Program
import ExactAlgebra.Proofs.Notation.Reading
import ExactAlgebra.Proofs.Notation.Words

/-!
# Trees as linear programs

A tree is written as a linear program with one line for each node in postorder: a leaf is declared,
and a sign joins the results of the lines of its two operands, named by their positions. The program
comes to what the line of the postorder comes to, the same expression or the same error, and the
line of the preorder comes to the same expression (`run_program_eq_readLine`).

The lines of a tree add as many results as the tree has nodes, the expression of the tree last
(`steps_code`). So the results of both operands are where the line of their sign looks for them,
whatever results stood there before.
-/

namespace ExactAlgebra

variable {guess : RootGuess}

namespace Program

/-! ### One line -/

theorem resultAt_position {results : List Expr} {i : Nat} {e : Expr} (h : results[i]? = some e) :
    resultAt results (Text.position i) = .ok e := by
  rw [resultAt, Text.readPosition?_position]
  simp [h]

theorem isWord_dot : Text.IsWord "." :=
  Text.isWord_singleton ⟨by decide, by decide⟩

theorem outcome_step_of_words (results : List Expr) {line head : String} {args : List String}
    (h : Text.words line = head :: args) :
    (step guess results (.text line)).outcome =
      (made guess results line head args).outcome >>= fun e => .ok (results ++ [e]) := by
  simp only [step, Scalar.asText?, h]
  exact Traced.outcome_bind _ _

theorem outcome_step (results : List Expr) {head : String} {args : List String}
    (h : ∀ w ∈ head :: args, Text.IsWord w) :
    (step guess results (.text (Text.unwords (head :: args)))).outcome =
      (made guess results (Text.unwords (head :: args)) head args).outcome >>= fun e =>
        .ok (results ++ [e]) :=
  outcome_step_of_words results (Text.words_unwords h)

/-- A declared leaf. -/
theorem outcome_step_leaf (results : List Expr) (t : LeafToken) :
    (step guess results (.text (Text.unwords [".", t.text]))).outcome =
      .ok (results ++ [t.expr]) := by
  rw [outcome_step results (by simp [isWord_dot, t.isWord_text]), made, if_pos rfl, declaredLeaf,
    t.reads]
  rfl

theorem combineAll_pair (o : Operation) (a b : Expr) :
    o.combineAll guess [a, b] = o.combine guess a b := by
  cases o <;> rfl

/-- A sign that joins two earlier results. -/
theorem outcome_step_sign {results : List Expr} (o : Operation) {i j : Nat} {a b : Expr}
    (ha : results[i]? = some a) (hb : results[j]? = some b) :
    (step guess results
        (.text (Text.unwords [o.token, Text.position i, Text.position j]))).outcome =
      (o.combine guess a b).outcome >>= fun e => .ok (results ++ [e]) := by
  have hargs : [Text.position i, Text.position j].mapM (resultAt results) = .ok [a, b] := by
    rw [List.mapM_cons, List.mapM_cons, List.mapM_nil, resultAt_position ha, resultAt_position hb]
    rfl
  rw [outcome_step results (by simp [o.isWord_token, Text.isWord_position]), made,
    if_neg o.token_ne_dot, Operation.ofString?_token, hargs]
  show ((o.combineAll guess [a, b]).outcome >>= _) = _
  rw [combineAll_pair]

theorem outcome_steps_cons (results : List Expr) (i : Scalar) (is : List Scalar) :
    (steps guess results (i :: is)).outcome =
      (step guess results i).outcome >>= fun after => (steps guess after is).outcome :=
  Traced.outcome_bind _ _

end Program

namespace TokenTree

open Program

/-! ### The lines of a tree -/

/-- The number of nodes below the root. -/
def nodesBelow : TokenTree → Nat
  | leaf _ => 0
  | node _ l r => l.nodesBelow + 1 + (r.nodesBelow + 1)

/-- The words of the lines for a tree, where the first line makes the result at position `n`. -/
def code : TokenTree → (n : Nat) → List (List String)
  | leaf t, _ => [[".", t.text]]
  | node o l r, n =>
    l.code n ++ r.code (n + l.nodesBelow + 1) ++ [[o.token, Text.position (n + l.nodesBelow),
      Text.position (n + l.nodesBelow + 1 + r.nodesBelow)]]

/-- Lines of words, as instructions. -/
def lines (code : List (List String)) : List Scalar :=
  code.map fun ws => .text (Text.unwords ws)

/-- The linear program for a tree. -/
def program (T : TokenTree) : List Scalar :=
  lines (T.code 0)

example : program (node .subtract (leaf ⟨"7", .num 7, rfl⟩) (leaf ⟨"2", .num 2, rfl⟩)) =
    [.text ". 7", .text ". 2", .text "- 0 1"] := by
  decide +kernel

theorem lines_append (c c' : List (List String)) (ws : List String) (is : List Scalar) :
    lines (c ++ c' ++ [ws]) ++ is = lines c ++ (lines c' ++ .text (Text.unwords ws) :: is) := by
  simp [lines]

/-- The results of both operands of a sign are where its line looks for them. -/
theorem getElem?_operands (results madel mader : List Expr) (a b : Expr) :
    (results ++ madel ++ [a] ++ mader ++ [b])[results.length + madel.length]? = some a ∧
      (results ++ madel ++ [a] ++ mader ++ [b])[(results ++ madel ++ [a]).length +
        mader.length]? = some b := by
  constructor
  · simp
  · rw [← List.length_append]
    exact List.getElem?_concat_length

/-- The lines of a tree add its expression to the results, after those of the nodes below the
root, if it has one, and fail as building it does otherwise. -/
theorem steps_code (guess : RootGuess) (T : TokenTree) (results : List Expr) :
    ∃ made, ((∃ e, T.build guess = .ok e) → made.length = T.nodesBelow) ∧ ∀ is,
      (steps guess results (lines (T.code results.length) ++ is)).outcome =
        T.build guess >>= fun e => (steps guess (results ++ made ++ [e]) is).outcome := by
  induction T generalizing results with
  | leaf t =>
    refine ⟨[], fun _ => rfl, fun is => ?_⟩
    show (steps guess results (.text (Text.unwords [".", t.text]) :: is)).outcome = _
    rw [outcome_steps_cons, outcome_step_leaf, List.append_nil]
    rfl
  | node o l r ihl ihr =>
    obtain ⟨madel, hlenl, hstepsl⟩ := ihl results
    simp only [code, build, lines_append, hstepsl]
    cases ha : l.build guess with
    | error err =>
      refine ⟨[], by simp, fun is => ?_⟩
      simp only [Error.error_bind]
    | ok a =>
      obtain ⟨mader, hlenr, hstepsr⟩ := ihr (results ++ madel ++ [a])
      have hlenl := hlenl ⟨a, ha⟩
      have hlen : (results ++ madel ++ [a]).length = results.length + l.nodesBelow + 1 := by
        simp [hlenl, Nat.add_assoc]
      rw [← hlen]
      cases hb : r.build guess with
      | error err =>
        refine ⟨[], by simp, fun is => ?_⟩
        simp only [Error.ok_bind, hstepsr, hb, Error.error_bind]
      | ok b =>
        have hlenr := hlenr ⟨b, hb⟩
        obtain ⟨hgeta, hgetb⟩ := getElem?_operands results madel mader a b
        rw [hlenl] at hgeta
        rw [hlenr] at hgetb
        refine ⟨madel ++ [a] ++ mader ++ [b], fun _ => ?_, fun is => ?_⟩
        · simp only [List.length_append, List.length_singleton, nodesBelow, hlenl, hlenr]
          omega
        · simp only [Error.ok_bind, hstepsr, hb]
          rw [outcome_steps_cons, outcome_step_sign o hgeta hgetb]
          cases (o.combine guess a b).outcome with
          | error err => simp only [Error.error_bind]
          | ok e => simp only [Error.ok_bind, List.append_assoc]

/-- The program of a tree comes to its expression, or fails as building it does. -/
theorem outcome_run_program (guess : RootGuess) (T : TokenTree) :
    (run guess (some T.program)).outcome = T.build guess := by
  obtain ⟨made, -, hsteps⟩ := steps_code guess T []
  have hsteps : (steps guess [] (T.program ++ [])).outcome = _ := hsteps []
  rw [List.append_nil] at hsteps
  rw [run, Traced.outcome_bind, hsteps]
  cases T.build guess with
  | error err => rfl
  | ok e =>
    simp only [Error.ok_bind, steps]
    rw [Traced.outcome_pure, Error.ok_bind, List.getLast?_concat]
    rfl

/-! ### The listings of a tree -/

theorem readTokens_postorder (T : TokenTree) (stack : List Expr) (ts : List String) :
    (TokenOrder.rpn.readTokens guess stack (T.postorder ++ ts)).outcome =
      T.build guess >>= fun e => (TokenOrder.rpn.readTokens guess (e :: stack) ts).outcome := by
  induction T generalizing stack ts with
  | leaf t =>
    show (TokenOrder.rpn.readTokens guess stack (t.text :: ts)).outcome = _
    rw [TokenOrder.readTokens_cons, TokenOrder.readToken_leaf, pure_bind]
    rfl
  | node o l r ihl ihr =>
    rw [postorder, build, List.append_assoc, List.append_assoc, ihl]
    cases l.build guess with
    | error err => simp only [Error.error_bind]
    | ok a =>
      simp only [Error.ok_bind, ihr]
      cases r.build guess with
      | error err => simp only [Error.error_bind]
      | ok b =>
        simp only [Error.ok_bind]
        rw [List.singleton_append, TokenOrder.readTokens_cons, TokenOrder.readToken_sign,
          bind_assoc]
        exact Traced.outcome_bind _ _

/-- The line of the postorder comes to the expression of the tree, or fails as building it does. -/
theorem outcome_readLine_postorder (T : TokenTree) :
    (TokenOrder.rpn.readLine guess (.text (Text.unwords T.postorder))).outcome =
      T.build guess := by
  have hread : (TokenOrder.rpn.readTokens guess [] (T.postorder ++ [])).outcome = _ :=
    readTokens_postorder T [] []
  rw [List.append_nil] at hread
  rw [TokenOrder.outcome_readLine, Text.words_unwords T.isWord_of_mem_postorder]
  show (TokenOrder.rpn.readTokens guess [] T.postorder).outcome >>= _ = _
  rw [hread]
  cases T.build guess <;> rfl

/-- The line of the preorder comes to an expression exactly if it is that of the tree. -/
theorem readLine_preorder_eq_ok_iff {T : TokenTree} {e : Expr} :
    (TokenOrder.polish.readLine guess (.text (Text.unwords T.preorder))).outcome = .ok e ↔
      T.build guess = .ok e := by
  rw [TokenOrder.readLine_eq_ok_iff, Text.words_unwords T.isWord_of_mem_preorder]
  constructor
  · rintro ⟨U, hreading, hbuild⟩
    obtain rfl := preorder_injective (List.reverse_injective hreading)
    exact hbuild
  · intro hbuild
    exact ⟨T, rfl, hbuild⟩

/-- The linear program of a tree comes to what the line of its postorder comes to, the same
expression or the same error, and the line of its preorder comes to an expression exactly if they
do, and to the same one. -/
theorem run_program_eq_readLine (guess : RootGuess) (T : TokenTree) :
    (run guess (some T.program)).outcome =
        (TokenOrder.rpn.readLine guess (.text (Text.unwords T.postorder))).outcome ∧
      ∀ e, (TokenOrder.polish.readLine guess (.text (Text.unwords T.preorder))).outcome = .ok e ↔
        (TokenOrder.rpn.readLine guess (.text (Text.unwords T.postorder))).outcome = .ok e := by
  rw [outcome_run_program, outcome_readLine_postorder]
  exact ⟨rfl, fun e => readLine_preorder_eq_ok_iff⟩

end TokenTree

end ExactAlgebra
