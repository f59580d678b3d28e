import ExactAlgebra.Proofs.Notation.Programs
import Mathlib.Data.List.GetD

/-!
# What linear programs mean

A line of a program stands for the expression that it unfolds to: a leaf for itself, a sign for the
sum, difference, product, quotient or power of what the earlier lines unfold to that it names
(`Unfolds`). A program has a result exactly if every line that is not blank is a leaf or a sign with
two earlier lines at least, and the exponents come down to numbers; the result is what its last line
unfolds to (`run_unfolds`).

The results of the lines so far are what these lines unfold to (`Holds`). The next line makes what
it unfolds to of them (`made_eq_ok_iff_unfolds`), so they hold for any number of lines
(`steps_eq_ok_iff`).
-/

namespace ExactAlgebra

variable {guess : RootGuess}

namespace Error

variable {α β : Type}

theorem bind_eq_ok_iff {x : Except Error α} {f : α → Except Error β} {b : β} :
    (x >>= f) = .ok b ↔ ∃ a, x = .ok a ∧ f a = .ok b := by
  cases x with
  | error err => exact iff_of_false nofun nofun
  | ok a => simp

theorem mapM_eq_ok_iff {f : α → Except Error β} {as : List α} {bs : List β} :
    as.mapM f = .ok bs ↔ List.Forall₂ (fun a b => f a = .ok b) as bs := by
  induction as generalizing bs with
  | nil =>
    rw [List.mapM_nil, List.forall₂_nil_left_iff]
    exact Except.ok.injEq [] bs ▸ eq_comm
  | cons a as ih =>
    simp only [List.mapM_cons, bind_eq_ok_iff, ih, List.forall₂_cons_left_iff]
    constructor
    · rintro ⟨b, hb, bs', hbs, ⟨⟩⟩
      exact ⟨b, bs', hb, hbs, rfl⟩
    · rintro ⟨b, bs', hb, hbs, rfl⟩
      exact ⟨b, hb, bs', hbs, rfl⟩

end Error

/-! ### Any number of operands -/

/-- Powers taken from the right: the last operand is an exponent, and so is every power below the
first operand. Each of these exponents comes down to a number. -/
inductive PowerTower (guess : RootGuess) : List Expr → Expr → Prop
  | pair {b e : Expr} {q : Rat} (h : e.simplify guess = .ok (.num q)) :
      PowerTower guess [b, e] (.pow b q)
  | cons {b c : Expr} {es : List Expr} {q : Rat} (hc : PowerTower guess es c)
      (h : c.simplify guess = .ok (.num q)) : PowerTower guess (b :: es) (.pow b q)

theorem PowerTower.wellFormed {es : List Expr} {e : Expr} (h : PowerTower guess es e)
    (hes : ∀ d ∈ es, d.WellFormed) : e.WellFormed := by
  cases h with
  | pair | cons =>
    obtain ⟨hb, -⟩ := List.forall_mem_cons.mp hes
    exact hb

theorem PowerTower.two_le_length {es : List Expr} {e : Expr} (h : PowerTower guess es e) :
    2 ≤ es.length := by
  induction h with
  | pair => exact le_rfl
  | cons _ _ ih => exact Nat.le_succ_of_le ih

namespace Operation

/-- An expression is the sum, difference, product, quotient or power of some operands, two at least.
All operands but the first are taken away, or divided by. -/
def MakesAll (guess : RootGuess) : Operation → List Expr → Expr → Prop
  | add, es, e => 2 ≤ es.length ∧ e = .ofTerms es
  | subtract, es, e => 2 ≤ es.length ∧ e = .ofTerms (changeRest Expr.negated es)
  | multiply, es, e => 2 ≤ es.length ∧ e = .ofFactors es
  | divide, es, e => 2 ≤ es.length ∧ e = .ofFactors (changeRest Expr.inverted es)
  | raise, es, e => PowerTower guess es e

theorem length_changeRest (f : Expr → Expr) (es : List Expr) :
    (changeRest f es).length = es.length := by
  cases es with
  | nil => rfl
  | cons e es => rw [changeRest, List.length_cons, List.length_map, List.length_cons]

theorem MakesAll.two_le_length {o : Operation} {es : List Expr} {e : Expr}
    (h : o.MakesAll guess es e) : 2 ≤ es.length := by
  cases o with
  | add | subtract | multiply | divide => exact h.1
  | raise => exact PowerTower.two_le_length h

/-- Operands changed but for the first are well formed. -/
theorem wellFormed_changeRest {f : Expr → Expr} (hf : ∀ {d}, d.WellFormed → (f d).WellFormed)
    {es : List Expr} (hes : ∀ d ∈ es, d.WellFormed) : ∀ d ∈ changeRest f es, d.WellFormed := by
  cases es with
  | nil => exact hes
  | cons e es =>
    obtain ⟨he, hes⟩ := List.forall_mem_cons.mp hes
    exact List.forall_mem_cons.mpr ⟨he, List.forall_mem_map.mpr fun d hd => hf (hes d hd)⟩

theorem MakesAll.wellFormed {o : Operation} {es : List Expr} {e : Expr}
    (h : o.MakesAll guess es e) (hes : ∀ d ∈ es, d.WellFormed) : e.WellFormed := by
  cases o with
  | add =>
    obtain ⟨hlen, rfl⟩ := h
    exact Expr.wellFormed_ofTerms hes hlen
  | subtract =>
    obtain ⟨hlen, rfl⟩ := h
    refine Expr.wellFormed_ofTerms (wellFormed_changeRest Expr.wellFormed_negated hes) ?_
    rwa [length_changeRest]
  | multiply =>
    obtain ⟨hlen, rfl⟩ := h
    exact Expr.wellFormed_ofFactors hes hlen
  | divide =>
    obtain ⟨hlen, rfl⟩ := h
    refine Expr.wellFormed_ofFactors (wellFormed_changeRest Expr.wellFormed_inverted hes) ?_
    rwa [length_changeRest]
  | raise => exact PowerTower.wellFormed h hes

/-- Only exponents may keep two operands or more from being joined. -/
theorem exists_makesAll {o : Operation} {es : List Expr} (hlen : 2 ≤ es.length)
    (hraise : o = raise → ∃ e, PowerTower guess es e) : ∃ e, o.MakesAll guess es e := by
  cases o with
  | add | subtract | multiply | divide => exact ⟨_, hlen, rfl⟩
  | raise => exact hraise rfl

theorem powerTower_eq_ok_iff {es : List Expr} {e : Expr} :
    (powerTower guess es).outcome = .ok e ↔ PowerTower guess es e := by
  induction es generalizing e with
  | nil => exact iff_of_false nofun fun h => absurd h.two_le_length (by simp)
  | cons b es ih =>
    match es with
    | [] => exact iff_of_false nofun fun h => absurd h.two_le_length (by simp)
    | [d] =>
      rw [powerTower, combine_eq_ok_iff]
      constructor
      · rintro ⟨q, hq, rfl⟩
        exact .pair hq
      · intro h
        cases h with
        | pair hq => exact ⟨_, hq, rfl⟩
        | cons hc => exact absurd hc.two_le_length (by simp)
    | d :: d' :: es =>
      rw [powerTower_cons, Traced.outcome_bind_eq_ok]
      simp only [combine_eq_ok_iff, ih]
      constructor
      · rintro ⟨c, hc, q, hq, rfl⟩
        exact .cons hc hq
      · intro h
        cases h with
        | cons hc hq => exact ⟨_, hc, _, hq, rfl⟩

theorem combineAll_eq_ok_iff {o : Operation} {es : List Expr} {e : Expr} :
    (o.combineAll guess es).outcome = .ok e ↔ o.MakesAll guess es e := by
  cases o with
  | add => exact Expr.sumOf_eq_ok_iff
  | multiply => exact Expr.prodOf_eq_ok_iff
  | subtract =>
    rw [MakesAll, ← length_changeRest Expr.negated es]
    exact Expr.sumOf_eq_ok_iff
  | divide =>
    rw [MakesAll, ← length_changeRest Expr.inverted es]
    exact Expr.prodOf_eq_ok_iff
  | raise => exact powerTower_eq_ok_iff

theorem MakesAll.unique {o : Operation} {es : List Expr} {e e' : Expr}
    (h : o.MakesAll guess es e) (h' : o.MakesAll guess es e') : e = e' := by
  rw [← combineAll_eq_ok_iff] at h h'
  exact Except.ok.inj (h.symm.trans h')

end Operation

namespace Program

/-! ### Lines -/

/-- The words of the lines that are not blank. -/
def code (lines : List String) : List (List String) :=
  (lines.map Text.words).filter fun ws => ws ≠ []

/-- Words that name lines by their positions, each of them before the line `k`. -/
def Names (k : ℕ) (args : List String) (js : List ℕ) : Prop :=
  List.Forall₂ (fun (a : String) (j : ℕ) => Text.readPosition? a = some (j : ℤ) ∧ j < k) args js

/-- What a line unfolds to: a leaf to itself, and a sign to what it makes of what the lines unfold
to that it names. -/
inductive Unfolds (guess : RootGuess) (code : List (List String)) : ℕ → Expr → Prop
  | leaf {k : ℕ} {t : LeafToken} (hline : code[k]? = some [".", t.text]) :
      Unfolds guess code k t.expr
  | join {k : ℕ} {o : Operation} {args : List String} {js : List ℕ} {e : Expr} (value : ℕ → Expr)
      (hline : code[k]? = some (o.token :: args)) (hnames : Names k args js)
      (hvalue : ∀ j ∈ js, Unfolds guess code j (value j))
      (hmakes : o.MakesAll guess (js.map value) e) : Unfolds guess code k e

/-- A line that is a leaf, or a sign with two earlier lines at least, and where the sign is that of
powers every exponent comes down to a number. -/
def Acceptable (guess : RootGuess) (code : List (List String)) (k : ℕ) (line : List String) :
    Prop :=
  (∃ t : LeafToken, line = [".", t.text]) ∨
    ∃ (o : Operation) (args : List String) (js : List ℕ),
      line = o.token :: args ∧ 2 ≤ args.length ∧ Names k args js ∧
        (o = .raise → ∃ value e, (∀ j ∈ js, Unfolds guess code j (value j)) ∧
          PowerTower guess (js.map value) e)

theorem Names.unique {k : ℕ} {args : List String} {js js' : List ℕ} (h : Names k args js)
    (h' : Names k args js') : js = js' := by
  induction h generalizing js' with
  | nil =>
    cases h'
    rfl
  | cons hj _ ih =>
    cases h' with
    | cons hj' h' =>
      have hread := hj.1.symm.trans hj'.1
      rw [Option.some.injEq, Nat.cast_inj] at hread
      rw [hread, ih h']

theorem Names.lt {k : ℕ} {args : List String} {js : List ℕ} (h : Names k args js) :
    ∀ j ∈ js, j < k := by
  induction h with
  | nil => exact nofun
  | cons hj _ ih => exact List.forall_mem_cons.mpr ⟨hj.2, ih⟩

/-- A line unfolds to one expression only. -/
theorem Unfolds.unique {code : List (List String)} {k : ℕ} {e e' : Expr}
    (h : Unfolds guess code k e) (h' : Unfolds guess code k e') : e = e' := by
  induction h generalizing e' with
  | @leaf k t hline =>
    cases h' with
    | @leaf _ t' hline' =>
      obtain ⟨-, htext⟩ := List.cons.inj (Option.some.inj (hline.symm.trans hline'))
      rw [LeafToken.ext_text (List.cons.inj htext).1]
    | join _ hline' =>
      obtain ⟨hdot, -⟩ := List.cons.inj (Option.some.inj (hline.symm.trans hline'))
      exact absurd hdot.symm (Operation.token_ne_dot _)
  | @join k o args js e value hline hnames _ hmakes ih =>
    cases h' with
    | leaf hline' =>
      obtain ⟨hdot, -⟩ := List.cons.inj (Option.some.inj (hline.symm.trans hline'))
      exact absurd hdot (Operation.token_ne_dot _)
    | @join _ o' args' js' _ value' hline' hnames' hvalue' hmakes' =>
      obtain ⟨ho, rfl⟩ := List.cons.inj (Option.some.inj (hline.symm.trans hline'))
      obtain rfl := Operation.token_injective ho
      obtain rfl := hnames.unique hnames'
      have hvalues : js.map value = js.map value' :=
        List.map_congr_left fun j hj => ih j hj (hvalue' j hj)
      rw [← hvalues] at hmakes'
      exact hmakes.unique hmakes'

theorem Unfolds.wellFormed {code : List (List String)} {k : ℕ} {e : Expr}
    (h : Unfolds guess code k e) : e.WellFormed := by
  induction h with
  | @leaf k t => exact t.wellFormed_expr
  | join value _ _ _ hmakes ih => exact hmakes.wellFormed (List.forall_mem_map.mpr ih)

/-- What the lines unfold to that a line names, where all lines before it unfold to something. -/
theorem exists_values {code : List (List String)} {k : ℕ} {js : List ℕ} (hlt : ∀ j ∈ js, j < k)
    (hearlier : ∀ j < k, ∃ e, Unfolds guess code j e) :
    ∃ value : ℕ → Expr, ∀ j ∈ js, Unfolds guess code j (value j) := by
  choose! value hvalue using hearlier
  exact ⟨value, fun j hj => hvalue j (hlt j hj)⟩

/-- Where all lines before it unfold to something, a line does exactly if it is acceptable. -/
theorem acceptable_iff {code : List (List String)} {k : ℕ} {line : List String}
    (hline : code[k]? = some line) (hearlier : ∀ j < k, ∃ e, Unfolds guess code j e) :
    Acceptable guess code k line ↔ ∃ e, Unfolds guess code k e := by
  constructor
  · rintro (⟨t, rfl⟩ | ⟨o, args, js, rfl, hlen, hnames, hraise⟩)
    · exact ⟨t.expr, .leaf hline⟩
    · obtain ⟨value, hvalue⟩ := exists_values hnames.lt hearlier
      have hlen : 2 ≤ (js.map value).length := by
        rw [List.length_map, ← List.Forall₂.length_eq hnames]
        exact hlen
      have hraise : o = .raise → ∃ e, PowerTower guess (js.map value) e := by
        intro ho
        obtain ⟨value', e, hvalue', htower⟩ := hraise ho
        have hvalues : js.map value' = js.map value :=
          List.map_congr_left fun j hj => (hvalue' j hj).unique (hvalue j hj)
        exact ⟨e, hvalues ▸ htower⟩
      obtain ⟨e, he⟩ := Operation.exists_makesAll hlen hraise
      exact ⟨e, .join value hline hnames hvalue he⟩
  · rintro ⟨e, h⟩
    cases h with
    | @leaf _ t hline' =>
      rw [hline, Option.some.injEq] at hline'
      exact Or.inl ⟨t, hline'⟩
    | @join _ o args js _ value hline' hnames hvalue hmakes =>
      rw [hline, Option.some.injEq] at hline'
      have hlen := hmakes.two_le_length
      rw [List.length_map, ← List.Forall₂.length_eq hnames] at hlen
      refine Or.inr ⟨o, args, js, hline', hlen, hnames, ?_⟩
      rintro rfl
      exact ⟨value, e, hvalue, hmakes⟩

/-! ### Results -/

theorem resultAt_eq_ok_iff {results : List Expr} {token : String} {e : Expr} :
    resultAt results token = .ok e ↔
      ∃ j : ℕ, (Text.readPosition? token = some (j : ℤ) ∧ j < results.length) ∧
        results.getD j (.num 0) = e := by
  rw [resultAt]
  cases Text.readPosition? token with
  | none => simp
  | some i =>
    cases i with
    | negSucc j => simp
    | ofNat j =>
      by_cases hj : j < results.length
      · simp [hj]
      · simp [hj]

/-- The operands that words name among earlier results. -/
theorem mapM_resultAt_eq_ok_iff {results es : List Expr} {args : List String} :
    args.mapM (resultAt results) = .ok es ↔
      ∃ js, Names results.length args js ∧ es = js.map fun j => results.getD j (.num 0) := by
  rw [Error.mapM_eq_ok_iff]
  simp only [resultAt_eq_ok_iff]
  constructor
  · intro h
    induction h with
    | nil => exact ⟨[], .nil, rfl⟩
    | cons ha _ ih =>
      obtain ⟨j, hj, rfl⟩ := ha
      obtain ⟨js, hnames, rfl⟩ := ih
      exact ⟨j :: js, .cons hj hnames, rfl⟩
  · rintro ⟨js, hnames, rfl⟩
    rw [List.forall₂_map_right_iff]
    exact hnames.imp fun a j hj => ⟨j, hj, rfl⟩

/-- What an instruction makes: a declared leaf, or what its sign makes of earlier results. -/
theorem made_eq_ok_iff {results : List Expr} {line head : String} {args : List String} {e : Expr} :
    (made guess results line head args).outcome = .ok e ↔
      (∃ t : LeafToken, head :: args = [".", t.text] ∧ e = t.expr) ∨
        ∃ (o : Operation) (js : List ℕ), head = o.token ∧ Names results.length args js ∧
          o.MakesAll guess (js.map fun j => results.getD j (.num 0)) e := by
  unfold made
  by_cases hdot : head = "."
  · subst hdot
    rw [if_pos rfl]
    have hsign : ∀ o : Operation, "." ≠ o.token := fun o => o.token_ne_dot.symm
    simp only [hsign, false_and, exists_false, or_false, List.cons.injEq, true_and]
    show declaredLeaf line args = .ok e ↔ _
    constructor
    · intro h
      match args, h with
      | [token], h =>
        rw [declaredLeaf] at h
        cases ht : Expr.ofToken? token with
        | none =>
          rw [ht] at h
          cases h
        | some d =>
          rw [ht] at h
          cases h
          exact ⟨⟨token, _, ht⟩, rfl, rfl⟩
    · rintro ⟨t, rfl, rfl⟩
      rw [declaredLeaf, t.reads]
  · rw [if_neg hdot]
    simp only [List.cons.injEq, hdot, false_and, exists_false, false_or]
    cases ho : Operation.ofString? head with
    | none =>
      refine iff_of_false (fun h => by cases h) ?_
      rintro ⟨o, js, rfl, -⟩
      rw [Operation.ofString?_token] at ho
      cases ho
    | some o =>
      obtain rfl := Operation.ofString?_eq_some_iff.mp ho
      simp only [Traced.outcome_bind_eq_ok, Operation.combineAll_eq_ok_iff]
      constructor
      · rintro ⟨es, hes, hmakes⟩
        obtain ⟨js, hnames, rfl⟩ := mapM_resultAt_eq_ok_iff.mp hes
        exact ⟨o, js, rfl, hnames, hmakes⟩
      · rintro ⟨o', js, ho', hnames, hmakes⟩
        obtain rfl := Operation.token_injective ho'
        exact ⟨_, mapM_resultAt_eq_ok_iff.mpr ⟨js, hnames, rfl⟩, hmakes⟩

/-- Every result is what the line at its place unfolds to. -/
def Holds (guess : RootGuess) (code : List (List String)) (results : List Expr) : Prop :=
  ∀ j < results.length, Unfolds guess code j (results.getD j (.num 0))

/-- The next line makes what it unfolds to. -/
theorem made_eq_ok_iff_unfolds {code : List (List String)} {results : List Expr}
    {line head : String} {args : List String} {e : Expr} (h : Holds guess code results)
    (hline : code[results.length]? = some (head :: args)) :
    (made guess results line head args).outcome = .ok e ↔
      Unfolds guess code results.length e := by
  rw [made_eq_ok_iff]
  constructor
  · rintro (⟨t, hleaf, rfl⟩ | ⟨o, js, rfl, hnames, hmakes⟩)
    · exact .leaf (hleaf ▸ hline)
    · exact .join _ hline hnames (fun j hj => h j (hnames.lt j hj)) hmakes
  · intro hunfolds
    generalize hk : results.length = k at hunfolds hline
    cases hunfolds with
    | @leaf _ t hline' =>
      rw [hline, Option.some.injEq] at hline'
      exact Or.inl ⟨t, hline', rfl⟩
    | @join _ o args' js _ value hline' hnames hvalue hmakes =>
      rw [hline, Option.some.injEq] at hline'
      obtain ⟨rfl, rfl⟩ := List.cons.inj hline'
      subst hk
      have hvalues : js.map value = js.map fun j => results.getD j (.num 0) :=
        List.map_congr_left fun j hj => (hvalue j hj).unique (h j (hnames.lt j hj))
      exact Or.inr ⟨o, js, rfl, hnames, hvalues ▸ hmakes⟩

/-! ### Programs -/

theorem code_cons_of_blank {l : String} (ls : List String) (h : Text.words l = []) :
    code (l :: ls) = code ls := by
  simp [code, h]

theorem code_cons_of_words {l head : String} {args : List String} (ls : List String)
    (h : Text.words l = head :: args) : code (l :: ls) = (head :: args) :: code ls := by
  simp [code, h]

theorem step_of_blank (results : List Expr) {l : String} (h : Text.words l = []) :
    step guess results (.text l) = pure results := by
  simp only [step, Scalar.asText?, h]

theorem holds_nil (code : List (List String)) : Holds guess code [] :=
  fun j hj => absurd hj (Nat.not_lt_zero j)

theorem Holds.concat {code : List (List String)} {results : List Expr} {e : Expr}
    (h : Holds guess code results) (he : Unfolds guess code results.length e) :
    Holds guess code (results ++ [e]) := by
  intro j hj
  rw [List.length_append, List.length_singleton] at hj
  rcases Nat.lt_succ_iff_lt_or_eq.mp hj with hj | rfl
  · rw [List.getD_append _ _ _ _ hj]
    exact h j hj
  · rw [List.getD_append_right _ _ _ _ le_rfl, Nat.sub_self]
    exact he

/-- There is at most one result for each line. -/
theorem Holds.unique {code : List (List String)} {results results' : List Expr}
    (h : Holds guess code results) (h' : Holds guess code results')
    (hlen : results.length = results'.length) : results = results' := by
  refine List.ext_getElem hlen fun j hj hj' => ?_
  have hunfolds := h j hj
  have hunfolds' := h' j hj'
  rw [List.getD_eq_getElem _ _ hj] at hunfolds
  rw [List.getD_eq_getElem _ _ hj'] at hunfolds'
  exact hunfolds.unique hunfolds'

/-- From results that hold of the lines `before`, further lines go on to results that hold of all of
them, if there are such results. -/
theorem steps_eq_ok_iff {whole before : List (List String)} {lines : List String}
    {results results' : List Expr} (hwhole : whole = before ++ code lines)
    (hlen : results.length = before.length) (h : Holds guess whole results) :
    (steps guess results (lines.map .text)).outcome = .ok results' ↔
      results'.length = whole.length ∧ Holds guess whole results' := by
  induction lines generalizing before results with
  | nil =>
    have hwhole : results.length = whole.length := by
      rw [hlen, hwhole]
      simp [code]
    show Except.ok results = .ok results' ↔ _
    rw [Except.ok.injEq]
    constructor
    · rintro rfl
      exact ⟨hwhole, h⟩
    · rintro ⟨hlen', h'⟩
      exact h.unique h' (hwhole.trans hlen'.symm)
  | cons l ls ih =>
    rw [List.map_cons, outcome_steps_cons]
    cases hwords : Text.words l with
    | nil =>
      rw [step_of_blank results hwords, Traced.outcome_pure, Error.ok_bind]
      exact ih (code_cons_of_blank ls hwords ▸ hwhole) hlen h
    | cons head args =>
      rw [code_cons_of_words ls hwords] at hwhole
      have hline : whole[results.length]? = some (head :: args) := by
        rw [hwhole, hlen]
        simp
      rw [outcome_step_of_words results hwords, bind_assoc, Error.bind_eq_ok_iff]
      simp only [made_eq_ok_iff_unfolds h hline, Error.ok_bind]
      have hnext : ∀ {e}, Unfolds guess whole results.length e →
          ((steps guess (results ++ [e]) (ls.map .text)).outcome = .ok results' ↔
            results'.length = whole.length ∧ Holds guess whole results') :=
        fun he => @ih (before ++ [head :: args]) _ (by simp [hwhole]) (by simp [hlen]) (h.concat he)
      constructor
      · rintro ⟨e, he, hsteps⟩
        exact (hnext he).mp hsteps
      · rintro ⟨hlen', h'⟩
        have hlt : results.length < results'.length := by
          rw [hlen', hwhole, hlen]
          simp
        have he := h' results.length hlt
        exact ⟨_, he, (hnext he).mpr ⟨hlen', h'⟩⟩

/-- A program comes to an expression if it has lines, all of which unfold to something, and the last
one to this expression. -/
theorem run_eq_ok_iff {lines : List String} {e : Expr} :
    (run guess (some (lines.map .text))).outcome = .ok e ↔
      ∃ results, (results.length = (code lines).length ∧ Holds guess (code lines) results) ∧
        results.getLast? = some e := by
  rw [run, Traced.outcome_bind_eq_ok]
  refine exists_congr fun results => ?_
  rw [steps_eq_ok_iff (List.nil_append _).symm rfl (holds_nil _)]
  refine and_congr_right fun _ => ?_
  cases results.getLast? with
  | none => exact iff_of_false (fun h => by cases h) (fun h => by cases h)
  | some d =>
    show Except.ok d = .ok e ↔ _
    rw [Except.ok.injEq, Option.some.injEq]

/-- A program comes to what its last line unfolds to. -/
theorem unfolds_of_run {lines : List String} {e : Expr}
    (h : (run guess (some (lines.map .text))).outcome = .ok e) :
    Unfolds guess (code lines) ((code lines).length - 1) e := by
  obtain ⟨results, ⟨hlen, hholds⟩, hlast⟩ := run_eq_ok_iff.mp h
  rw [List.getLast?_eq_getElem?] at hlast
  obtain ⟨hlt, rfl⟩ := List.getElem?_eq_some_iff.mp hlast
  have hunfolds := hholds _ hlt
  rw [List.getD_eq_getElem _ _ hlt] at hunfolds
  rw [← hlen]
  exact hunfolds

theorem steps_append (results : List Expr) (is js : List Scalar) :
    steps guess results (is ++ js) =
      steps guess results is >>= fun after => steps guess after js := by
  induction is generalizing results with
  | nil => exact (pure_bind _ _).symm
  | cons i is ih =>
    rw [List.cons_append, steps, steps, bind_assoc]
    exact bind_congr ih

/-- A blank line more or less changes nothing. -/
theorem run_blank {before after : List String} {l : String} (h : Text.words l = []) :
    run guess (some ((before ++ l :: after).map .text)) =
      run guess (some ((before ++ after).map .text)) := by
  have hsteps : steps guess [] ((before ++ l :: after).map .text) =
      steps guess [] ((before ++ after).map .text) := by
    rw [List.map_append, List.map_append, steps_append, steps_append]
    refine bind_congr fun results => ?_
    rw [List.map_cons, steps, step_of_blank results h, pure_bind]
  rw [run, run, hsteps]

theorem exists_holds {code : List (List String)}
    (h : ∀ k < code.length, ∃ e, Unfolds guess code k e) :
    ∃ results, results.length = code.length ∧ Holds guess code results := by
  choose! value hvalue using h
  refine ⟨(List.range code.length).map value, by simp, fun j hj => ?_⟩
  rw [List.length_map, List.length_range] at hj
  rw [List.getD_eq_getElem _ _ (by simpa using hj), List.getElem_map, List.getElem_range]
  exact hvalue j hj

theorem exists_unfolds_of_acceptable {code : List (List String)}
    (h : ∀ k line, code[k]? = some line → Acceptable guess code k line) :
    ∀ k < code.length, ∃ e, Unfolds guess code k e := by
  intro k
  induction k using Nat.strong_induction_on with
  | _ k ih =>
    intro hk
    have hline : code[k]? = some code[k] := List.getElem?_eq_getElem hk
    exact (acceptable_iff hline fun j hj => ih j hj (hj.trans hk)).mp (h k _ hline)

/-- A program has a result exactly if there is a line that is not blank, and every such line is a
leaf, or a sign with two earlier lines at least and exponents that come down to numbers. The result
is what the last line unfolds to, and there is only one such expression. Blank lines change nothing,
wherever they stand. -/
theorem run_unfolds (guess : RootGuess) (lines : List String) :
    ((∃ e, (run guess (some (lines.map .text))).outcome = .ok e) ↔
        code lines ≠ [] ∧
          ∀ k line, (code lines)[k]? = some line → Acceptable guess (code lines) k line) ∧
      (∀ e, (run guess (some (lines.map .text))).outcome = .ok e →
        Unfolds guess (code lines) ((code lines).length - 1) e) ∧
      (∀ k e e', Unfolds guess (code lines) k e → Unfolds guess (code lines) k e' → e = e') ∧
      ∀ before blank after, lines = before ++ blank :: after → Text.words blank = [] →
        run guess (some (lines.map .text)) =
          run guess (some ((before ++ after).map .text)) := by
  refine ⟨⟨?_, ?_⟩, fun e => unfolds_of_run, fun k e e' => Unfolds.unique, ?_⟩
  · rintro ⟨e, h⟩
    obtain ⟨results, ⟨hlen, hholds⟩, hlast⟩ := run_eq_ok_iff.mp h
    refine ⟨?_, fun k line hline => ?_⟩
    · intro hnil
      rw [hnil, List.length_nil, List.length_eq_zero_iff] at hlen
      rw [hlen] at hlast
      cases hlast
    · have hk : k < results.length := hlen ▸ (List.getElem?_eq_some_iff.mp hline).1
      refine (acceptable_iff hline fun j hj => ?_).mpr ⟨_, hholds k hk⟩
      exact ⟨_, hholds j (hj.trans hk)⟩
  · rintro ⟨hne, hlines⟩
    obtain ⟨results, hlen, hholds⟩ := exists_holds (exists_unfolds_of_acceptable hlines)
    have hne : results ≠ [] := by
      rintro rfl
      exact hne (List.length_eq_zero_iff.mp hlen.symm)
    exact ⟨_, run_eq_ok_iff.mpr ⟨results, ⟨hlen, hholds⟩, List.getLast?_eq_some_getLast hne⟩⟩
  · rintro before blank after rfl hblank
    exact run_blank hblank

end Program

end ExactAlgebra
