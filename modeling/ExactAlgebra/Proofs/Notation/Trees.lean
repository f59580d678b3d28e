import ExactAlgebra.Input.Line
import ExactAlgebra.Proofs.Canonical.Rules
import ExactAlgebra.Proofs.Notation.Tokens

/-!
# Token trees

What a line of tokens may stand for: a tree with numbers and letters at its leaves and a sign with
two operands at every other node. Written with every sign behind its operands a tree is listed in
postorder, with every sign in front of them in preorder. Either listing determines the tree
(`postorder_injective`, `preorder_injective`): no listing begins another in preorder, and postorder
is preorder read backwards, with left and right exchanged.

The expression of a tree is built from the leaves up (`build`), and there is none where an exponent
does not come down to a number.
-/

namespace ExactAlgebra

namespace Operation

/-- The token of an operation, its sign. -/
def token (o : Operation) : String :=
  String.ofList [o.sign]

theorem ofString?_token (o : Operation) : ofString? o.token = some o := by
  cases o <;> rfl

theorem ofString?_eq_some_iff {t : String} {o : Operation} :
    ofString? t = some o ↔ t = o.token := by
  constructor
  · intro h
    have hsign : t.toList = [o.sign] := by
      simpa using List.find?_some h
    rw [token, ← hsign, String.ofList_toList]
  · rintro rfl
    exact ofString?_token o

/-- No sign is a number or a letter. -/
theorem ofToken?_token (o : Operation) : Expr.ofToken? o.token = none := by
  cases o <;> rfl

theorem token_injective : Function.Injective token := by
  intro o o' h
  have hsome : ofString? o.token = some o' := ofString?_eq_some_iff.mpr h
  rw [ofString?_token] at hsome
  exact Option.some.inj hsome

/-- No sign is the word that declares a leaf. -/
theorem token_ne_dot (o : Operation) : o.token ≠ "." := by
  cases o <;> decide

variable {guess : RootGuess}

theorem powerTower_cons (b d e : Expr) (es : List Expr) :
    powerTower guess (b :: d :: e :: es) =
      powerTower guess (d :: e :: es) >>= fun c => raise.combine guess b c := rfl

/-- An expression is the sum, difference, product, quotient or power of two others, taken in this
order. The exponent of a power is the number that the right one simplifies to. -/
def Makes (guess : RootGuess) : Operation → Expr → Expr → Expr → Prop
  | add, a, b, e => e = .ofTerms [a, b]
  | subtract, a, b, e => e = .ofTerms [a, b.negated]
  | multiply, a, b, e => e = a.times b
  | divide, a, b, e => e = a.times b.inverted
  | raise, a, b, e => ∃ q, b.simplify guess = .ok (.num q) ∧ e = .pow a q

theorem combine_eq_ok_iff {o : Operation} {a b e : Expr} :
    (o.combine guess a b).outcome = .ok e ↔ o.Makes guess a b e := by
  cases o with
  | add | subtract | multiply | divide =>
    rw [combine, Traced.outcome_pure, Except.ok.injEq, Makes, eq_comm]
  | raise =>
    simp only [combine, Traced.outcome_bind_eq_ok, Expr.toExponent_eq_ok_iff, Makes]
    refine exists_congr fun q => and_congr_right fun _ => ?_
    rw [Traced.outcome_pure, Except.ok.injEq, eq_comm]

theorem Makes.wellFormed {o : Operation} {a b e : Expr} (h : o.Makes guess a b e)
    (ha : a.WellFormed) (hb : b.WellFormed) : e.WellFormed := by
  have hsum : ∀ {d : Expr}, d.WellFormed → (Expr.ofTerms [a, d]).WellFormed := by
    intro d hd
    refine Expr.wellFormed_ofTerms (List.forall_mem_cons.mpr ⟨ha, ?_⟩) (Nat.le_refl 2)
    exact List.forall_mem_singleton.mpr hd
  cases o with
  | add => exact h ▸ hsum hb
  | subtract => exact h ▸ hsum (Expr.wellFormed_negated hb)
  | multiply => exact h ▸ Expr.wellFormed_times ha hb
  | divide => exact h ▸ Expr.wellFormed_times ha (Expr.wellFormed_inverted hb)
  | raise =>
    obtain ⟨q, -, rfl⟩ := h
    exact ha

end Operation

/-- A token that is a number or a letter, and the expression it is. -/
structure LeafToken where
  text : String
  expr : Expr
  reads : Expr.ofToken? text = some expr

namespace LeafToken

theorem ext_text {t t' : LeafToken} (h : t.text = t'.text) : t = t' := by
  obtain ⟨s, e, hs⟩ := t
  obtain ⟨s', e', hs'⟩ := t'
  obtain rfl : s = s' := h
  obtain rfl : e = e' := Option.some.inj (hs.symm.trans hs')
  rfl

theorem text_ne_token (t : LeafToken) (o : Operation) : t.text ≠ o.token := by
  intro h
  have := t.reads
  rw [h, Operation.ofToken?_token] at this
  cases this

theorem ofString?_text (t : LeafToken) : Operation.ofString? t.text = none := by
  rw [Option.eq_none_iff_forall_ne_some]
  intro o h
  exact t.text_ne_token o (Operation.ofString?_eq_some_iff.mp h)

theorem wellFormed_expr (t : LeafToken) : t.expr.WellFormed := by
  rcases Expr.ofToken?_eq_some_iff.mp t.reads with ⟨n, -, he⟩ | ⟨x, -, he⟩
  · exact he ▸ trivial
  · exact he ▸ trivial

end LeafToken

variable {guess : RootGuess}

/-- A tree of tokens. -/
inductive TokenTree where
  | leaf (token : LeafToken)
  | node (o : Operation) (left right : TokenTree)

namespace TokenTree

/-- The tokens of a tree, with every sign behind its operands. -/
def postorder : TokenTree → List String
  | leaf t => [t.text]
  | node o l r => l.postorder ++ r.postorder ++ [o.token]

/-- The tokens of a tree, with every sign in front of its operands. -/
def preorder : TokenTree → List String
  | leaf t => [t.text]
  | node o l r => o.token :: (l.preorder ++ r.preorder)

/-- The expression that a tree stands for, if every exponent of it comes down to a number. -/
def build (guess : RootGuess) : TokenTree → Except Error Expr
  | leaf t => .ok t.expr
  | node o l r => do
    let left ← l.build guess
    let right ← r.build guess
    (o.combine guess left right).outcome

theorem build_node_eq_ok_iff {o : Operation} {l r : TokenTree} {e : Expr} :
    (node o l r).build guess = .ok e ↔ ∃ a b, l.build guess = .ok a ∧ r.build guess = .ok b ∧
      (o.combine guess a b).outcome = .ok e := by
  rw [build]
  cases l.build guess with
  | error err => simp
  | ok a =>
    cases r.build guess with
    | error err => simp
    | ok b => simp

theorem wellFormed_build {T : TokenTree} {e : Expr} (h : T.build guess = .ok e) :
    e.WellFormed := by
  induction T generalizing e with
  | leaf t =>
    obtain rfl := Except.ok.inj h
    exact t.wellFormed_expr
  | node o l r ihl ihr =>
    obtain ⟨a, b, ha, hb, he⟩ := build_node_eq_ok_iff.mp h
    exact (Operation.combine_eq_ok_iff.mp he).wellFormed (ihl ha) (ihr hb)

/-! ### Unique readability -/

/-- A tree with left and right exchanged. -/
def mirror : TokenTree → TokenTree
  | leaf t => leaf t
  | node o l r => node o r.mirror l.mirror

theorem mirror_mirror (T : TokenTree) : T.mirror.mirror = T := by
  induction T with
  | leaf t => rfl
  | node o l r ihl ihr => rw [mirror, mirror, ihl, ihr]

/-- The postorder backwards is the preorder with left and right exchanged. -/
theorem reverse_postorder (T : TokenTree) : T.postorder.reverse = T.mirror.preorder := by
  induction T with
  | leaf t => rfl
  | node o l r ihl ihr =>
    rw [postorder, List.reverse_append, List.reverse_append, ihl, ihr]
    rfl

/-- Where the listings of two trees begin one list, they are one listing, of one tree. -/
theorem preorder_append_inj {T U : TokenTree} {ts us : List String}
    (h : T.preorder ++ ts = U.preorder ++ us) : T = U ∧ ts = us := by
  induction T generalizing U ts us with
  | leaf t =>
    cases U with
    | leaf u =>
      obtain ⟨htext, hrest⟩ := List.cons.inj h
      exact ⟨congrArg leaf (LeafToken.ext_text htext), hrest⟩
    | node o => exact absurd (List.cons.inj h).1 (t.text_ne_token o)
  | node o l r ihl ihr =>
    cases U with
    | leaf u => exact absurd (List.cons.inj h).1.symm (u.text_ne_token o)
    | node o' l' r' =>
      rw [preorder, preorder, List.cons_append, List.cons_append, List.cons.injEq,
        List.append_assoc, List.append_assoc] at h
      obtain ⟨hsign, hrest⟩ := h
      obtain rfl := Operation.token_injective hsign
      obtain ⟨rfl, hright⟩ := ihl hrest
      obtain ⟨rfl, hafter⟩ := ihr hright
      exact ⟨rfl, hafter⟩

theorem preorder_injective : Function.Injective preorder := by
  intro T U h
  have h : T.preorder ++ [] = U.preorder ++ [] := congrArg (· ++ []) h
  exact (preorder_append_inj h).1

theorem postorder_injective : Function.Injective postorder := by
  intro T U h
  have hmirror : T.mirror.preorder = U.mirror.preorder := by
    rw [← reverse_postorder, ← reverse_postorder, h]
  have := congrArg mirror (preorder_injective hmirror)
  rwa [mirror_mirror, mirror_mirror] at this

end TokenTree

end ExactAlgebra
