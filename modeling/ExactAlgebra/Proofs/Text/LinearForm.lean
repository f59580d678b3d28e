import ExactAlgebra.Proofs.Text.UniqueReading

/-!
# The linear form is unambiguous

Two expressions with one linear form are one expression (`linear_eq_linear_iff`). A composite is its
sign and its children in brackets (`linearText_of_sign?`); a comma or the closing bracket stands
behind a child, and neither goes on with a number, so the children are told apart one by one.
-/

namespace ExactAlgebra.Expr

open Text

/-! ### The text of a node -/

/-- The text of the children of a composite node, with its brackets. -/
theorem linearText_of_sign? {e : Expr} {c : Char} (h : e.kind.sign? = some c) :
    e.linearText = c :: '(' :: (listText e.children ++ [')']) := by
  cases e with
  | num | sym => cases h
  | pow | prod | sum =>
    cases h
    rfl

theorem begins_linearText (e : Expr) : Begins e.kind e.linearText := by
  cases h : e.kind.sign? with
  | some c =>
    rw [linearText_of_sign? h]
    exact ⟨c, rfl, kindOf?_sign h⟩
  | none =>
    cases e with
    | num q => exact begins_ratText q
    | sym x => exact ⟨x.char, rfl, kindOf?_letter x⟩
    | pow | prod | sum => cases h

/-- The members of a list, each behind a comma and a space. -/
def separatedText (es : List Expr) : List Char :=
  es.flatMap fun e => ',' :: ' ' :: e.linearText

theorem listText_cons (e : Expr) (es : List Expr) :
    listText (e :: es) = e.linearText ++ separatedText es := by
  induction es generalizing e with
  | nil => exact (List.append_nil _).symm
  | cons d ds ih =>
    rw [listText, ih d]
    · rfl
    · exact List.cons_ne_nil _ _

/-- A comma and a space stand between the children. -/
theorem listText_eq_intercalate (es : List Expr) :
    listText es = List.intercalate [',', ' '] (es.map linearText) := by
  induction es with
  | nil => rfl
  | cons e es ih =>
    cases es with
    | nil => exact List.intercalate_singleton.symm
    | cons d ds =>
      rw [listText, ih]
      · simp only [List.map_cons, List.intercalate_cons_cons, List.append_assoc]
        rfl
      · exact List.cons_ne_nil _ _

/-! ### Telling texts apart -/

/-- Behind a child stands a comma or the closing bracket. -/
theorem stops_separatedText (es : List Expr) (cs : List Char) :
    Stops IsNumeral (separatedText es ++ ')' :: cs) := by
  cases es with
  | nil => exact stops_cons_iff.mpr (by decide)
  | cons e es => exact stops_cons_iff.mpr (by decide)

section

variable {as : List Expr} (has : ∀ a ∈ as, ToldApart linearText (Stops IsNumeral) a)

include has

theorem separatedText_append_inj {bs : List Expr} {cs ds : List Char}
    (h : separatedText as ++ ')' :: cs = separatedText bs ++ ')' :: ds) : as = bs ∧ cs = ds := by
  induction as generalizing bs with
  | nil =>
    cases bs with
    | nil => exact ⟨rfl, (List.cons.inj h).2⟩
    | cons b bs => exact absurd (List.cons.inj h).1 (by decide)
  | cons a as ih =>
    cases bs with
    | nil => exact absurd (List.cons.inj h).1 (by decide)
    | cons b bs =>
      obtain ⟨ha, has⟩ := List.forall_mem_cons.mp has
      have h : a.linearText ++ (separatedText as ++ ')' :: cs) =
          b.linearText ++ (separatedText bs ++ ')' :: ds) := by
        simpa [separatedText] using h
      obtain ⟨rfl, htails⟩ := ha (stops_separatedText as cs) (stops_separatedText bs ds) h
      obtain ⟨rfl, hrest⟩ := ih has htails
      exact ⟨rfl, hrest⟩

theorem listText_append_inj {bs : List Expr} {cs ds : List Char}
    (h : listText as ++ ')' :: cs = listText bs ++ ')' :: ds) : as = bs ∧ cs = ds := by
  -- no text of an expression begins with the closing bracket
  have hclose : ∀ (e : Expr) (es : List Expr) (us vs : List Char),
      listText (e :: es) ++ us ≠ ')' :: vs := by
    intro e es us vs h
    rw [listText_cons, List.append_assoc] at h
    obtain ⟨c, hc, hkind⟩ := (begins_linearText e).append (separatedText es ++ us)
    rw [h, List.head?_cons, Option.some.injEq] at hc
    rw [← hc] at hkind
    cases hkind
  cases as with
  | nil =>
    cases bs with
    | nil => exact ⟨rfl, (List.cons.inj h).2⟩
    | cons b bs => exact absurd h.symm (hclose b bs _ _)
  | cons a as =>
    cases bs with
    | nil => exact absurd h (hclose a as _ _)
    | cons b bs =>
      obtain ⟨ha, has⟩ := List.forall_mem_cons.mp has
      rw [listText_cons, listText_cons, List.append_assoc, List.append_assoc] at h
      obtain ⟨rfl, htails⟩ := ha (stops_separatedText as cs) (stops_separatedText bs ds) h
      obtain ⟨rfl, hrest⟩ := separatedText_append_inj has htails
      exact ⟨rfl, hrest⟩

end

/-- The linear form of an expression is told apart from what does not go on with a number. -/
theorem toldApart_linearText (e : Expr) : ToldApart linearText (Stops IsNumeral) e := by
  induction e using children_induction with
  | node a ih =>
    intro b cs ds hcs hds h
    have hkind := (begins_linearText a).kind_eq (begins_linearText b) h
    cases hsign : a.kind.sign? with
    | some c =>
      rw [linearText_of_sign? hsign, linearText_of_sign? (hkind ▸ hsign)] at h
      have h : listText a.children ++ ')' :: cs = listText b.children ++ ')' :: ds := by
        simpa using h
      obtain ⟨hchildren, hrest⟩ := listText_append_inj ih h
      exact ⟨eq_of_children_eq hkind (by rw [hsign]; simp) hchildren, hrest⟩
    | none =>
      cases a with
      | num p =>
        cases b with
        | num q =>
          obtain ⟨rfl, hrest⟩ := toldApart_ratText p hcs hds h
          exact ⟨rfl, hrest⟩
        | sym | pow | prod | sum => cases hkind
      | sym x =>
        cases b with
        | sym y =>
          obtain ⟨hchar, hrest⟩ := List.cons.inj h
          exact ⟨congrArg sym (Letter.ext hchar), hrest⟩
        | num | pow | prod | sum => cases hkind
      | pow | prod | sum => cases hsign

/-- Expressions are the same exactly if their linear forms are. -/
theorem linear_eq_linear_iff (a b : Expr) : a.linear = b.linear ↔ a = b := by
  constructor
  · intro h
    have htext : a.linearText = b.linearText := String.ofList_injective h
    exact (toldApart_linearText a (stops_nil _) (stops_nil _) (congrArg (· ++ []) htext)).1
  · rintro rfl
    rfl

end ExactAlgebra.Expr
