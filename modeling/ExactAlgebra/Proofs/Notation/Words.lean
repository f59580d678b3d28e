import ExactAlgebra.Proofs.Notation.Trees

/-!
# Words

Words joined by blanks are the words of the line they make (`words_unwords`), provided that none is
empty or holds a blank. The tokens of a tree are such words (`isWord_of_mem_postorder`,
`isWord_of_mem_preorder`), and so are positions, which are read as what was written
(`readPosition?_position`).
-/

namespace ExactAlgebra

namespace Text

/-- A text that is a word: not empty, and without blanks. -/
def IsWord (w : String) : Prop :=
  w.toList ≠ [] ∧ ∀ c ∈ w.toList, isBlank c = false

/-- A line of words. -/
def unwords (ws : List String) : String :=
  " ".intercalate ws

theorem consWord_of_ne_nil {w : List Char} (h : w ≠ []) (ws : List (List Char)) :
    consWord w ws = w :: ws := by
  cases w with
  | nil => exact absurd rfl h
  | cons c w => rfl

theorem cutWord_append {w : List Char} (h : ∀ c ∈ w, isBlank c = false) (cs : List Char) :
    cutWord (w ++ cs) = (w ++ (cutWord cs).1, (cutWord cs).2) := by
  induction w with
  | nil => rfl
  | cons c w ih =>
    obtain ⟨hc, hw⟩ := List.forall_mem_cons.mp h
    rw [List.cons_append, cutWord, ih hw]
    simp [hc]

theorem wordsOf_intercalate {ws : List (List Char)}
    (h : ∀ w ∈ ws, w ≠ [] ∧ ∀ c ∈ w, isBlank c = false) :
    wordsOf (List.intercalate [' '] ws) = ws := by
  induction ws with
  | nil => rfl
  | cons w ws ih =>
    obtain ⟨⟨hne, hw⟩, hws⟩ := List.forall_mem_cons.mp h
    cases ws with
    | nil =>
      have hcut := cutWord_append hw []
      rw [List.append_nil] at hcut
      rw [List.intercalate_singleton, wordsOf, hcut]
      show consWord (w ++ []) [] = [w]
      rw [List.append_nil, consWord_of_ne_nil hne]
    | cons v ws =>
      rw [List.intercalate_cons_cons, List.append_assoc, wordsOf, cutWord_append hw]
      show consWord (w ++ []) (wordsOf (List.intercalate [' '] (v :: ws))) = _
      rw [List.append_nil, consWord_of_ne_nil hne, ih hws]

/-- The words of a line of words. -/
theorem words_unwords {ws : List String} (h : ∀ w ∈ ws, IsWord w) : words (unwords ws) = ws := by
  have hblank : " ".toList = [' '] := rfl
  rw [words, unwords, String.toList_intercalate, hblank, wordsOf_intercalate, List.map_map]
  · exact (List.map_congr_left fun w _ => String.ofList_toList).trans (List.map_id ws)
  · exact List.forall_mem_map.mpr h

/-! ### Characters of words -/

theorem not_isBlank {c : Char} (h : '!' ≤ c) (h' : c ≤ '~') : isBlank c = false := by
  have h : 33 ≤ c.toNat := h
  have h' : c.toNat ≤ 126 := h'
  simp [isBlank]
  omega

theorem isWord_of_forall {s : String} (hne : s.toList ≠ [])
    (h : ∀ c ∈ s.toList, '!' ≤ c ∧ c ≤ '~') : IsWord s :=
  ⟨hne, fun c hc => not_isBlank (h c hc).1 (h c hc).2⟩

theorem isWord_singleton {c : Char} (h : '!' ≤ c ∧ c ≤ '~') : IsWord (String.ofList [c]) := by
  refine isWord_of_forall ?_ ?_ <;> rw [String.toList_ofList]
  · exact List.cons_ne_nil _ _
  · exact List.forall_mem_singleton.mpr h

theorem isWord_of_readNumber? {s : String} {n : Int} (h : readNumber? s = some n) :
    IsWord s := by
  obtain ⟨ds, hne, hds, hs⟩ := readNumber?_eq_some_iff.mp h
  have hplain : ∀ d ∈ ds, '!' ≤ d ∧ d ≤ '~' := by
    intro d hd
    obtain ⟨hlow, hhigh⟩ := hds d hd
    exact ⟨Char.le_trans (by decide) hlow, Char.le_trans hhigh (by decide)⟩
  rcases hs with ⟨hs, -⟩ | ⟨hs, -⟩ | ⟨hs, -⟩
  · rw [← hs] at hne hplain
    exact isWord_of_forall hne hplain
  · refine isWord_of_forall ?_ ?_ <;> rw [hs]
    · exact List.cons_ne_nil _ _
    · exact List.forall_mem_cons.mpr ⟨by decide, hplain⟩
  · refine isWord_of_forall ?_ ?_ <;> rw [hs]
    · exact List.cons_ne_nil _ _
    · exact List.forall_mem_cons.mpr ⟨by decide, hplain⟩

theorem isWord_letter (x : Letter) : IsWord (String.ofList [x.char]) := by
  apply isWord_singleton
  constructor
  · exact Char.le_trans (by decide) x.isLower.1
  · exact Char.le_trans x.isLower.2 (by decide)

/-! ### Positions -/

/-- A position in decimal digits. -/
def position (n : Nat) : String :=
  String.ofList (natText n)

theorem isWord_position (n : Nat) : IsWord (position n) := by
  refine isWord_of_forall ?_ ?_ <;> rw [position, String.toList_ofList]
  · exact Nat.toDigits_ne_nil
  · intro c hc
    obtain ⟨hlow, hhigh⟩ := isDigit_of_mem_natText hc
    exact ⟨Char.le_trans (by decide) hlow, Char.le_trans hhigh (by decide)⟩

theorem anyDigit?_of_digit {c : Char} (h : IsDigit c) :
    anyDigit? c = some (c.toNat - '0'.toNat) := by
  have hlow : 0x30 ≤ c.toNat := h.1
  have hhigh : c.toNat ≤ 0x30 + 9 := h.2
  have hfind : digitZeros.find? (fun z => z ≤ c.toNat && c.toNat ≤ z + 9) = some 0x30 := by
    rw [digitZeros, List.find?_cons_of_pos]
    simp [hlow, hhigh]
  rw [anyDigit?, hfind]
  rfl

theorem groupedDigits?_of_digits {cs : List Char} (hne : cs ≠ [])
    (h : ∀ c ∈ cs, IsDigit c) :
    groupedDigits? cs = some (cs.map fun c => c.toNat - '0'.toNat) := by
  induction cs with
  | nil => exact absurd rfl hne
  | cons c cs ih =>
    obtain ⟨hc, hcs⟩ := List.forall_mem_cons.mp h
    cases cs with
    | nil =>
      rw [groupedDigits?, anyDigit?_of_digit hc]
      rfl
    | cons d ds =>
      have hcons : groupedDigits? (c :: d :: ds) =
          (do return (← anyDigit? c) :: (← groupedDigits? (d :: ds))) := by
        rw [groupedDigits?]
        · exact List.cons_ne_nil _ _
        · intro ds' hds
          obtain ⟨rfl, -⟩ := List.cons.inj hds
          exact absurd (hcs '_' List.mem_cons_self) (by decide)
      rw [hcons, anyDigit?_of_digit hc, ih (List.cons_ne_nil _ _) hcs]
      rfl

/-- A position is read as what was written. -/
theorem readPosition?_position (n : Nat) : readPosition? (position n) = some (n : Int) := by
  have hne : natText n ≠ [] := Nat.toDigits_ne_nil
  have hdigits : ∀ c ∈ natText n, IsDigit c := fun c => isDigit_of_mem_natText
  have hsplit : splitSign (natText n) = (false, natText n) :=
    (splitSign_eq_iff hdigits).mpr (Or.inl ⟨rfl, rfl⟩)
  have hvalue : ofDigits ((natText n).map fun c => c.toNat - '0'.toNat) = n := by
    rw [ofDigits_map]
    exact Nat.ofDigitChars_ten_toDigits
  rw [readPosition?, position, String.toList_ofList, hsplit]
  show (groupedDigits? (natText n)).map _ = _
  rw [groupedDigits?_of_digits hne hdigits, Option.map_some, hvalue]
  rfl

end Text

/-! ### The words of a tree -/

theorem LeafToken.isWord_text (t : LeafToken) : Text.IsWord t.text := by
  rcases Expr.ofToken?_eq_some_iff.mp t.reads with ⟨n, hn, -⟩ | ⟨x, hx, -⟩
  · exact Text.isWord_of_readNumber? hn
  · rw [hx]
    exact Text.isWord_letter x

theorem Operation.isWord_token (o : Operation) : Text.IsWord o.token := by
  apply Text.isWord_singleton
  cases o <;> decide

namespace TokenTree

theorem isWord_of_mem_postorder (T : TokenTree) : ∀ w ∈ T.postorder, Text.IsWord w := by
  induction T with
  | leaf t => exact List.forall_mem_singleton.mpr t.isWord_text
  | node o l r ihl ihr =>
    rw [postorder, List.forall_mem_append, List.forall_mem_append, List.forall_mem_singleton]
    exact ⟨⟨ihl, ihr⟩, o.isWord_token⟩

theorem isWord_of_mem_preorder (T : TokenTree) : ∀ w ∈ T.preorder, Text.IsWord w := by
  induction T with
  | leaf t => exact List.forall_mem_singleton.mpr t.isWord_text
  | node o l r ihl ihr =>
    rw [preorder, List.forall_mem_cons, List.forall_mem_append]
    exact ⟨o.isWord_token, ihl, ihr⟩

end TokenTree

end ExactAlgebra
