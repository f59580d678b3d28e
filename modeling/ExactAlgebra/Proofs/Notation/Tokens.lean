import ExactAlgebra.Input.Token
import ExactAlgebra.Proofs.Text.UniqueReading

/-!
# Numbers and letters as tokens

A number is one decimal digit or more, with a sign in front of them or without one
(`Text.readNumber?_eq_some_iff`); a letter is a small letter and nothing else. So no token is both,
and a token is a leaf exactly if it is one of them (`Expr.ofToken?_eq_some_iff`).
-/

namespace ExactAlgebra

namespace Text

/-! ### Digits -/

theorem asciiDigit?_eq_some_iff {c : Char} {d : Nat} :
    asciiDigit? c = some d ↔ IsDigit c ∧ d = c.toNat - '0'.toNat := by
  rw [asciiDigit?]
  split_ifs with h
  · exact Option.some_inj.trans (eq_comm.trans (and_iff_right h).symm)
  · exact iff_of_false nofun fun hc => h hc.1

theorem mapM_asciiDigit?_eq_some_iff {cs : List Char} {ds : List Nat} :
    cs.mapM asciiDigit? = some ds ↔
      (∀ c ∈ cs, IsDigit c) ∧ ds = cs.map fun c => c.toNat - '0'.toNat := by
  induction cs generalizing ds with
  | nil => simp [eq_comm]
  | cons c cs ih =>
    simp only [List.mapM_cons, Option.bind_eq_bind, Option.bind_eq_some_iff,
      asciiDigit?_eq_some_iff, ih, List.forall_mem_cons, List.map_cons]
    constructor
    · rintro ⟨_, ⟨hc, rfl⟩, _, ⟨hcs, rfl⟩, ⟨⟩⟩
      exact ⟨⟨hc, hcs⟩, rfl⟩
    · rintro ⟨⟨hc, hcs⟩, rfl⟩
      exact ⟨_, ⟨hc, rfl⟩, _, ⟨hcs, rfl⟩, rfl⟩

theorem ofDigits_map (cs : List Char) :
    ofDigits (cs.map fun c => c.toNat - '0'.toNat) = Nat.ofDigitChars 10 cs 0 := by
  rw [ofDigits, List.foldl_map, Nat.ofDigitChars_eq_foldl]

/-! ### Numbers -/

/-- A sign is split off digits, where there is one. -/
theorem splitSign_eq_iff {cs ds : List Char} {negative : Bool} (h : ∀ d ∈ ds, IsDigit d) :
    splitSign cs = (negative, ds) ↔
      (cs = ds ∧ negative = false) ∨ (cs = '+' :: ds ∧ negative = false) ∨
        (cs = '-' :: ds ∧ negative = true) := by
  have hplus : ∀ es, ds ≠ '+' :: es := by
    rintro es rfl
    exact absurd (h '+' List.mem_cons_self) (by decide)
  have hminus : ∀ es, ds ≠ '-' :: es := by
    rintro es rfl
    exact absurd (h '-' List.mem_cons_self) (by decide)
  constructor
  · intro hsplit
    unfold splitSign at hsplit
    split at hsplit
    · cases hsplit
      exact Or.inr (Or.inl ⟨rfl, rfl⟩)
    · cases hsplit
      exact Or.inr (Or.inr ⟨rfl, rfl⟩)
    · cases hsplit
      exact Or.inl ⟨rfl, rfl⟩
  · rintro (⟨rfl, rfl⟩ | ⟨rfl, rfl⟩ | ⟨rfl, rfl⟩)
    · rw [splitSign]
      · exact hplus
      · exact hminus
    · rfl
    · rfl

/-- What is read is the sign that is split off, and the digits behind it. -/
theorem readNumber?_eq_some_iff_splitSign {s : String} {n : Int} :
    readNumber? s = some n ↔ ∃ negative ds, splitSign s.toList = (negative, ds) ∧ ds ≠ [] ∧
      (∀ d ∈ ds, IsDigit d) ∧ n = withSign negative (Nat.ofDigitChars 10 ds 0) := by
  rw [readNumber?]
  obtain ⟨negative, ds⟩ := splitSign s.toList
  cases ds with
  | nil =>
    refine iff_of_false nofun ?_
    rintro ⟨_, _, ⟨⟩, hne, -⟩
    exact hne rfl
  | cons d ds =>
    simp only [Option.map_eq_some_iff, mapM_asciiDigit?_eq_some_iff]
    constructor
    · rintro ⟨_, ⟨hds, rfl⟩, rfl⟩
      refine ⟨negative, d :: ds, rfl, List.cons_ne_nil d ds, hds, ?_⟩
      rw [ofDigits_map]
    · rintro ⟨_, _, ⟨⟩, -, hds, rfl⟩
      refine ⟨_, ⟨hds, rfl⟩, ?_⟩
      rw [ofDigits_map]

/-- A text is a number exactly if it is digits, one at least, with a sign in front of them or
without. It is the number that these are the decimal digits of, or its opposite behind a minus. -/
theorem readNumber?_eq_some_iff {s : String} {n : Int} :
    readNumber? s = some n ↔ ∃ ds : List Char, ds ≠ [] ∧ (∀ d ∈ ds, IsDigit d) ∧
      ((s.toList = ds ∧ n = Nat.ofDigitChars 10 ds 0) ∨
        (s.toList = '+' :: ds ∧ n = Nat.ofDigitChars 10 ds 0) ∨
        (s.toList = '-' :: ds ∧ n = -(Nat.ofDigitChars 10 ds 0 : Int))) := by
  rw [readNumber?_eq_some_iff_splitSign]
  constructor
  · rintro ⟨negative, ds, hsplit, hne, hds, rfl⟩
    refine ⟨ds, hne, hds, ?_⟩
    rcases (splitSign_eq_iff hds).mp hsplit with ⟨hs, rfl⟩ | ⟨hs, rfl⟩ | ⟨hs, rfl⟩
    · exact Or.inl ⟨hs, rfl⟩
    · exact Or.inr (Or.inl ⟨hs, rfl⟩)
    · exact Or.inr (Or.inr ⟨hs, rfl⟩)
  · rintro ⟨ds, hne, hds, ⟨hs, rfl⟩ | ⟨hs, rfl⟩ | ⟨hs, rfl⟩⟩
    · exact ⟨false, ds, (splitSign_eq_iff hds).mpr (Or.inl ⟨hs, rfl⟩), hne, hds, rfl⟩
    · exact ⟨false, ds, (splitSign_eq_iff hds).mpr (Or.inr (Or.inl ⟨hs, rfl⟩)), hne, hds, rfl⟩
    · exact ⟨true, ds, (splitSign_eq_iff hds).mpr (Or.inr (Or.inr ⟨hs, rfl⟩)), hne, hds, rfl⟩

/-- No letter is a number. -/
theorem readNumber?_letter (x : Letter) : readNumber? (String.ofList [x.char]) = none := by
  -- a number ends with a digit
  rw [Option.eq_none_iff_forall_ne_some]
  intro n hn
  obtain ⟨ds, hne, hds, htext⟩ := readNumber?_eq_some_iff.mp hn
  rw [String.toList_ofList] at htext
  have hdigit : IsDigit x.char := by
    rcases htext with ⟨rfl, -⟩ | ⟨h, -⟩ | ⟨h, -⟩
    · exact hds x.char List.mem_cons_self
    · exact absurd (List.cons.inj h).2.symm hne
    · exact absurd (List.cons.inj h).2.symm hne
  exact absurd (Char.le_trans x.isLower.1 hdigit.2) (by decide)

end Text

/-! ### Leaves -/

/-- A token is a leaf exactly if it is a number or a letter. -/
theorem Expr.ofToken?_eq_some_iff {t : String} {e : Expr} :
    ofToken? t = some e ↔
      (∃ n : Int, Text.readNumber? t = some n ∧ e = num n) ∨
        ∃ x : Letter, t = String.ofList [x.char] ∧ e = sym x := by
  rw [ofToken?]
  cases hn : Text.readNumber? t with
  | some n =>
    have hletter : ∀ x : Letter, t ≠ String.ofList [x.char] := by
      rintro x rfl
      rw [Text.readNumber?_letter] at hn
      cases hn
    simp only [hletter, false_and, exists_false, or_false, Option.some.injEq, exists_eq_left']
    exact eq_comm
  | none =>
    simp only [Option.map_eq_some_iff, Letter.ofString?_eq_some_iff, reduceCtorEq, false_and,
      exists_false, false_or]
    exact exists_congr fun x => and_congr_right fun _ => eq_comm

end ExactAlgebra
