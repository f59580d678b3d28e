import ExactAlgebra.Proofs.Canonical.Failures
import ExactAlgebra.Proofs.Notation.Trees

/-!
# Reading with a stack

A line is read into an expression exactly if its tokens list a tree, and the expression is that of
the tree (`readLine_eq_ok_iff`). The stack is a forest all the way (`Forest`): each expression on it
is that of a tree, and the listings of the trees, from the lowest on, are the tokens read so far.
One token keeps it so (`Forest.readToken`), whether it plants a leaf or joins the two uppermost
trees, and so do all of them (`Forest.readTokens`). In the other direction, the tokens of a tree
leave its expression on top of the stack (`readTokens_reading`).

Every other line ends with an error of the algebra (`readLine_eq_error`). Which operand of a sign is
the upper one on the stack depends on the order of the tokens; that is settled in `TokenOrder.join`,
and the rest is the same for both orders.
-/

namespace ExactAlgebra

variable {guess : RootGuess}

namespace TokenOrder

/-- The tokens of a tree in the order in which they are read. -/
def reading : TokenOrder → TokenTree → List String
  | polish, T => T.preorder.reverse
  | rpn, T => T.postorder

/-- The tree of a sign, given the trees of the upper and the lower operand on the stack. -/
def join (o : Operation) : TokenOrder → (upper lower : TokenTree) → TokenTree
  | polish, upper, lower => .node o upper lower
  | rpn, upper, lower => .node o lower upper

variable (order : TokenOrder)

theorem reading_leaf (t : LeafToken) : order.reading (.leaf t) = [t.text] := by
  cases order <;> rfl

theorem reading_join (o : Operation) (upper lower : TokenTree) :
    order.reading (order.join o upper lower) =
      order.reading lower ++ order.reading upper ++ [o.token] := by
  cases order with
  | polish =>
    show (o.token :: (upper.preorder ++ lower.preorder)).reverse = _
    rw [List.reverse_cons, List.reverse_append]
    rfl
  | rpn => rfl

theorem build_join_eq_ok_iff {o : Operation} {upper lower : TokenTree} {e : Expr} :
    (order.join o upper lower).build guess = .ok e ↔
      ∃ a b, upper.build guess = .ok a ∧ lower.build guess = .ok b ∧
        (o.combine guess (order.sides a b).1 (order.sides a b).2).outcome = .ok e := by
  cases order with
  | polish => exact TokenTree.build_node_eq_ok_iff
  | rpn =>
    apply TokenTree.build_node_eq_ok_iff.trans
    constructor
    · rintro ⟨a, b, ha, hb, hcombine⟩
      exact ⟨b, a, hb, ha, hcombine⟩
    · rintro ⟨a, b, ha, hb, hcombine⟩
      exact ⟨b, a, hb, ha, hcombine⟩

/-- Induction on a tree by the tree of the upper and that of the lower operand. -/
theorem join_induction {P : TokenTree → Prop} (leaf : ∀ t, P (.leaf t))
    (join : ∀ o upper lower, P upper → P lower → P (order.join o upper lower)) (T : TokenTree) :
    P T := by
  induction T with
  | leaf t => exact leaf t
  | node o l r ihl ihr =>
    cases order with
    | polish => exact join o l r ihl ihr
    | rpn => exact join o r l ihr ihl

end TokenOrder

/-- An expression is no exponent if it has no form, or one that is no number. -/
theorem Expr.toExponent_eq_error {e : Expr} {err : Error}
    (h : (e.toExponent guess).outcome = .error err) :
    err = .invalid (.unreducedExponent e) ∨ ∃ cause, err = .undefined cause := by
  by_cases he : ∃ q, e = num q
  · obtain ⟨q, rfl⟩ := he
    cases h
  · rw [toExponent, Traced.outcome_bind_eq_error] at h
    · rcases h with hsimplify | ⟨n, -, hn⟩
      · rcases Canonical.eq_undefined_of_simplify hsimplify with rfl | ⟨c, rfl⟩
        · exact Or.inr ⟨_, rfl⟩
        · exact Or.inr ⟨_, rfl⟩
      · cases n with
        | num q => cases hn
        | sym | pow | prod | sum => exact Or.inl (Except.error.inj hn).symm
    · intro q hq
      exact he ⟨q, hq⟩

/-- Two operands are not combined where the right one is no exponent. -/
theorem Operation.combine_eq_error {o : Operation} {a b : Expr} {err : Error}
    (h : (o.combine guess a b).outcome = .error err) :
    (∃ cause, err = .invalid cause) ∨ ∃ cause, err = .undefined cause := by
  cases o with
  | add | subtract | multiply | divide => cases h
  | raise =>
    rcases Traced.outcome_bind_eq_error.mp h with h | ⟨q, -, h⟩
    · exact (Expr.toExponent_eq_error h).imp_left fun h => ⟨_, h⟩
    · cases h

namespace TokenOrder

variable (order : TokenOrder)

/-! ### One token -/

theorem readToken_leaf (stack : List Expr) (t : LeafToken) :
    order.readToken guess stack t.text = pure (t.expr :: stack) := by
  rw [readToken, t.ofString?_text, t.reads]

theorem readToken_sign (o : Operation) (a b : Expr) (stack : List Expr) :
    order.readToken guess (a :: b :: stack) o.token =
      o.combine guess (order.sides a b).1 (order.sides a b).2 >>= fun e => pure (e :: stack) := by
  rw [readToken, Operation.ofString?_token]

theorem readToken_sign_of_short (o : Operation) {stack : List Expr} (h : stack.length < 2) :
    (order.readToken guess stack o.token).outcome =
      .error (.algebra (.illegalState o.token)) := by
  rw [readToken, Operation.ofString?_token]
  match stack, h with
  | [], _ => rfl
  | [_], _ => rfl

/-- A token is a sign, a number or letter, or unknown. -/
theorem token_cases (t : String) : (∃ o : Operation, t = o.token) ∨ (∃ u : LeafToken, t = u.text) ∨
    (Operation.ofString? t = none ∧ Expr.ofToken? t = none) := by
  cases ho : Operation.ofString? t with
  | some o => exact Or.inl ⟨o, Operation.ofString?_eq_some_iff.mp ho⟩
  | none =>
    cases he : Expr.ofToken? t with
    | some e => exact Or.inr (Or.inl ⟨⟨t, e, he⟩, rfl⟩)
    | none => exact Or.inr (Or.inr ⟨rfl, rfl⟩)

theorem readToken_unknown {t : String} (stack : List Expr) (ho : Operation.ofString? t = none)
    (he : Expr.ofToken? t = none) : (order.readToken guess stack t).outcome =
      .error (.invalid (.unknownToken t)) := by
  rw [readToken, ho, he]
  rfl

/-! ### From the tokens to trees -/

/-- Each expression on the stack is that of a tree, and the trees, from the lowest on, were read
from these tokens. -/
inductive Forest (guess : RootGuess) (order : TokenOrder) : List Expr → List String → Prop
  | nil : Forest guess order [] []
  | cons {stack : List Expr} {ts : List String} {T : TokenTree} {e : Expr}
      (h : Forest guess order stack ts) (hbuild : T.build guess = .ok e) :
      Forest guess order (e :: stack) (ts ++ order.reading T)

variable {order}

/-- What one token does to a forest: it plants a leaf, or joins the two uppermost trees. -/
theorem Forest.readToken {stack stack' : List Expr} {ts : List String} {t : String}
    (h : Forest guess order stack ts)
    (hread : (order.readToken guess stack t).outcome = .ok stack') :
    Forest guess order stack' (ts ++ [t]) := by
  rcases token_cases t with ⟨o, rfl⟩ | ⟨u, rfl⟩ | ⟨ho, he⟩
  · cases h with
    | nil =>
      rw [readToken_sign_of_short order o (by simp)] at hread
      cases hread
    | @cons _ _ upper a h ha =>
      cases h with
      | nil =>
        rw [readToken_sign_of_short order o (by simp)] at hread
        cases hread
      | @cons stack ts lower b h hb =>
        rw [readToken_sign, Traced.outcome_bind_eq_ok] at hread
        obtain ⟨e, hcombine, hstack⟩ := hread
        obtain rfl := Except.ok.inj hstack
        have hjoin := h.cons ((build_join_eq_ok_iff order).mpr ⟨a, b, ha, hb, hcombine⟩)
        rw [reading_join] at hjoin
        simpa only [List.append_assoc] using hjoin
  · rw [readToken_leaf] at hread
    cases hread
    have hforest := h.cons (T := .leaf u) rfl
    rwa [reading_leaf] at hforest
  · rw [readToken_unknown order stack ho he] at hread
    cases hread

theorem readTokens_cons (stack : List Expr) (t : String) (ts : List String) :
    order.readTokens guess stack (t :: ts) =
      order.readToken guess stack t >>= fun after => order.readTokens guess after ts := rfl

theorem Forest.readTokens {stack stack' : List Expr} {ts us : List String}
    (h : Forest guess order stack ts)
    (hread : (order.readTokens guess stack us).outcome = .ok stack') :
    Forest guess order stack' (ts ++ us) := by
  induction us generalizing stack ts with
  | nil =>
    cases hread
    rwa [List.append_nil]
  | cons t us ih =>
    rw [readTokens_cons, Traced.outcome_bind_eq_ok] at hread
    obtain ⟨after, htoken, hread⟩ := hread
    have hforest := ih (h.readToken htoken) hread
    rwa [List.append_assoc] at hforest

/-! ### From trees to the tokens -/

/-- The tokens of a tree leave its expression on the stack. -/
theorem readTokens_reading {T : TokenTree} {e : Expr} (h : T.build guess = .ok e)
    (stack : List Expr) (ts : List String) :
    (order.readTokens guess stack (order.reading T ++ ts)).outcome =
      (order.readTokens guess (e :: stack) ts).outcome := by
  induction T using join_induction order generalizing e stack ts with
  | leaf t =>
    obtain rfl := Except.ok.inj h
    rw [reading_leaf, List.singleton_append, readTokens_cons, readToken_leaf, pure_bind]
  | join o upper lower ihupper ihlower =>
    obtain ⟨a, b, ha, hb, hcombine⟩ := (build_join_eq_ok_iff order).mp h
    rw [reading_join, List.append_assoc, List.append_assoc, ihlower hb, ihupper ha,
      List.singleton_append, readTokens_cons, readToken_sign, bind_assoc, Traced.outcome_bind,
      hcombine]
    rfl

/-! ### Failures -/

theorem readTokens_append (stack : List Expr) (us vs : List String) :
    order.readTokens guess stack (us ++ vs) =
      order.readTokens guess stack us >>= fun after => order.readTokens guess after vs := by
  induction us generalizing stack with
  | nil => exact (pure_bind _ _).symm
  | cons u us ih =>
    rw [List.cons_append, readTokens_cons, readTokens_cons, bind_assoc]
    exact bind_congr ih

/-- Reading fails at the first token that cannot be read. -/
theorem readTokens_eq_error_iff {stack : List Expr} {ts : List String} {err : Error} :
    (order.readTokens guess stack ts).outcome = .error err ↔
      ∃ us t vs after, ts = us ++ t :: vs ∧
        (order.readTokens guess stack us).outcome = .ok after ∧
        (order.readToken guess after t).outcome = .error err := by
  constructor
  · intro h
    induction ts generalizing stack with
    | nil => cases h
    | cons t ts ih =>
      rw [readTokens_cons, Traced.outcome_bind_eq_error] at h
      rcases h with htoken | ⟨next, htoken, h⟩
      · exact ⟨[], t, ts, stack, rfl, rfl, htoken⟩
      · obtain ⟨us, t', vs, after, rfl, hus, herror⟩ := ih h
        refine ⟨t :: us, t', vs, after, rfl, ?_, herror⟩
        exact Traced.outcome_bind_eq_ok.mpr ⟨next, htoken, hus⟩
  · rintro ⟨us, t, vs, after, rfl, hus, herror⟩
    rw [readTokens_append, Traced.outcome_bind_eq_error]
    refine Or.inr ⟨after, hus, ?_⟩
    rw [readTokens_cons, Traced.outcome_bind_eq_error]
    exact Or.inl herror

theorem readToken_eq_error {stack : List Expr} {t : String} {err : Error}
    (h : (order.readToken guess stack t).outcome = .error err) :
    ((∃ o : Operation, t = o.token) ∧ stack.length < 2 ∧ err = .algebra (.illegalState t)) ∨
      (∃ cause, err = .invalid cause) ∨ ∃ cause, err = .undefined cause := by
  rcases token_cases t with ⟨o, rfl⟩ | ⟨u, rfl⟩ | ⟨ho, he⟩
  · match stack with
    | [] | [_] =>
      rw [readToken_sign_of_short order o (by simp)] at h
      exact Or.inl ⟨⟨o, rfl⟩, by simp, (Except.error.inj h).symm⟩
    | a :: b :: stack =>
      rw [readToken_sign, Traced.outcome_bind_eq_error] at h
      rcases h with h | ⟨e, -, h⟩
      · exact Or.inr (Operation.combine_eq_error h)
      · cases h
  · rw [readToken_leaf] at h
    cases h
  · rw [readToken_unknown order stack ho he] at h
    exact Or.inr (Or.inl ⟨_, (Except.error.inj h).symm⟩)

theorem readToken_eq_illegalState_iff {stack : List Expr} {t token : String} :
    (order.readToken guess stack t).outcome = .error (.algebra (.illegalState token)) ↔
      t = token ∧ (∃ o : Operation, token = o.token) ∧ stack.length < 2 := by
  constructor
  · intro h
    rcases readToken_eq_error h with ⟨ho, hlen, herr⟩ | ⟨cause, herr⟩ | ⟨cause, herr⟩
    · cases herr
      exact ⟨rfl, ho, hlen⟩
    · cases herr
    · cases herr
  · rintro ⟨rfl, ⟨o, rfl⟩, hlen⟩
    exact readToken_sign_of_short order o hlen

/-! ### Lines -/

variable (order)

theorem outcome_readLine (line : String) :
    (order.readLine guess (.text line)).outcome =
      (order.readTokens guess [] (order.readingOrder (Text.words line))).outcome >>= fun stack =>
        match stack with
        | [e] => .ok e
        | stack => .error (.invalid (.operandsLeft stack.length)) := by
  rw [readLine, Traced.outcome_bind]
  show (order.readTokens guess [] (order.readingOrder (Text.words line)) >>= _).outcome = _
  rw [Traced.outcome_bind]
  congr 1
  funext stack
  match stack with
  | [] => rfl
  | [e] => rfl
  | _ :: _ :: _ => rfl

theorem readLine_eq_ok_iff_readTokens {line : String} {e : Expr} :
    (order.readLine guess (.text line)).outcome = .ok e ↔
      (order.readTokens guess [] (order.readingOrder (Text.words line))).outcome = .ok [e] := by
  rw [outcome_readLine]
  cases (order.readTokens guess [] (order.readingOrder (Text.words line))).outcome with
  | error err => simp
  | ok stack =>
    match stack with
    | [] => simp
    | [d] => simp
    | _ :: _ :: _ => simp

/-- A line is read into an expression exactly if its tokens list a tree in the order, and the
expression is that of the tree. -/
theorem readLine_eq_ok_iff {line : String} {e : Expr} :
    (order.readLine guess (.text line)).outcome = .ok e ↔
      ∃ T, order.reading T = order.readingOrder (Text.words line) ∧ T.build guess = .ok e := by
  rw [readLine_eq_ok_iff_readTokens]
  constructor
  · intro h
    have hforest := Forest.nil.readTokens h
    generalize hts : [] ++ order.readingOrder (Text.words line) = ts at hforest
    cases hforest with
    | @cons _ _ T _ hrest hbuild =>
      cases hrest
      exact ⟨T, hts.symm, hbuild⟩
  · rintro ⟨T, hreading, hbuild⟩
    rw [← hreading, ← List.append_nil (order.reading T), readTokens_reading hbuild]
    rfl

/-- Reading a line fails with an error of the algebra, of state only if a sign comes while the
tokens before it leave fewer than two operands. -/
theorem readLine_eq_error {line : String} {err : Error}
    (h : (order.readLine guess (.text line)).outcome = .error err) :
    (∃ token, err = .algebra (.illegalState token) ∧ (∃ o : Operation, token = o.token) ∧
        ∃ us vs stack, order.readingOrder (Text.words line) = us ++ token :: vs ∧
          (order.readTokens guess [] us).outcome = .ok stack ∧ stack.length < 2) ∨
      (∃ cause, err = .invalid cause) ∨ ∃ cause, err = .undefined cause := by
  rw [outcome_readLine] at h
  cases hread : (order.readTokens guess [] (order.readingOrder (Text.words line))).outcome with
  | error err' =>
    rw [hread] at h
    cases h
    obtain ⟨us, t, vs, after, hts, hus, herror⟩ := readTokens_eq_error_iff.mp hread
    rcases readToken_eq_error herror with ⟨ho, hlen, rfl⟩ | hother
    · exact Or.inl ⟨t, rfl, ho, us, vs, after, hts, hus, hlen⟩
    · exact Or.inr hother
  | ok stack =>
    rw [hread] at h
    match stack with
    | [] => exact Or.inr (Or.inl ⟨_, (Except.error.inj h).symm⟩)
    | [e] => cases h
    | _ :: _ :: _ => exact Or.inr (Or.inl ⟨_, (Except.error.inj h).symm⟩)

/-- Reading fails with an error of state exactly if a sign comes while the tokens before it leave
fewer than two operands. -/
theorem readLine_eq_illegalState_iff {line token : String} :
    (order.readLine guess (.text line)).outcome = .error (.algebra (.illegalState token)) ↔
      (∃ o : Operation, token = o.token) ∧
        ∃ us vs stack, order.readingOrder (Text.words line) = us ++ token :: vs ∧
          (order.readTokens guess [] us).outcome = .ok stack ∧ stack.length < 2 := by
  constructor
  · intro h
    rcases order.readLine_eq_error h with ⟨_, herr, ho, hread⟩ | ⟨_, herr⟩ | ⟨_, herr⟩
    · cases herr
      exact ⟨ho, hread⟩
    · cases herr
    · cases herr
  · rintro ⟨ho, us, vs, stack, hts, hus, hlen⟩
    have htoken : (order.readToken guess stack token).outcome =
        .error (.algebra (.illegalState token)) :=
      readToken_eq_illegalState_iff.mpr ⟨rfl, ho, hlen⟩
    rw [outcome_readLine, readTokens_eq_error_iff.mpr ⟨us, token, vs, stack, hts, hus, htoken⟩]
    rfl

end TokenOrder

/-- A line with the signs behind their operands is read into an expression exactly if its words are
the postorder of a tree that has this expression, and one with the signs in front exactly if they
are the preorder of such a tree; there is no other tree with these words, and the left operand of a
sign is the left one of its node. Every other line fails, with an error of the algebra, which is one
of state exactly if a sign comes while there are fewer than two operands. -/
theorem TokenTree.readLine_iff (guess : RootGuess) (line : String) :
    (∀ e, (TokenOrder.rpn.readLine guess (.text line)).outcome = .ok e ↔
        ∃ T : TokenTree, T.postorder = Text.words line ∧ T.build guess = .ok e) ∧
      (∀ e, (TokenOrder.polish.readLine guess (.text line)).outcome = .ok e ↔
        ∃ T : TokenTree, T.preorder = Text.words line ∧ T.build guess = .ok e) ∧
      Function.Injective postorder ∧ Function.Injective preorder ∧
      (∀ o l r e, (node o l r).build guess = .ok e ↔
        ∃ a b, l.build guess = .ok a ∧ r.build guess = .ok b ∧ o.Makes guess a b e) ∧
      ∀ order : TokenOrder,
        ((∃ e, (order.readLine guess (.text line)).outcome = .ok e) ∨
          ∃ err, (order.readLine guess (.text line)).outcome = .error (.algebra err)) ∧
        ∀ token, (order.readLine guess (.text line)).outcome =
            .error (.algebra (.illegalState token)) ↔
          (∃ o : Operation, token = o.token) ∧
            ∃ us vs stack, order.readingOrder (Text.words line) = us ++ token :: vs ∧
              (order.readTokens guess [] us).outcome = .ok stack ∧ stack.length < 2 := by
  refine ⟨?_, ?_, postorder_injective, preorder_injective, ?_, fun order => ⟨?_, ?_⟩⟩
  · intro e
    exact TokenOrder.rpn.readLine_eq_ok_iff
  · intro e
    rw [TokenOrder.readLine_eq_ok_iff]
    simp only [TokenOrder.reading, TokenOrder.readingOrder, List.reverse_inj]
  · intro o l r e
    rw [build_node_eq_ok_iff]
    simp only [Operation.combine_eq_ok_iff]
  · cases h : (order.readLine guess (.text line)).outcome with
    | ok e => exact Or.inl ⟨e, rfl⟩
    | error err =>
      rcases order.readLine_eq_error h with ⟨_, rfl, -⟩ | ⟨_, rfl⟩ | ⟨_, rfl⟩
      · exact Or.inr ⟨_, rfl⟩
      · exact Or.inr ⟨_, rfl⟩
      · exact Or.inr ⟨_, rfl⟩
  · intro token
    exact order.readLine_eq_illegalState_iff

end ExactAlgebra
