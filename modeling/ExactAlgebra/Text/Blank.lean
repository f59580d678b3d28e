/-!
# Blanks and words

A line of input is read as words: the longest runs of characters that are not blank. Blank is meant
in the sense of the Unicode property of white space together with the four information separators
`U+001C` to `U+001F`, so that a line pasted from a typeset text splits where a reader sees a gap.

Two laws say most of it: no word is empty or holds a blank (`mem_wordsOf`), and the words joined
together are the text without its blanks (`flatten_wordsOf`).
-/

namespace ExactAlgebra.Text

/-- White space of any script, and the information separators. -/
def isBlank (c : Char) : Bool :=
  let n := c.toNat
  (0x09 ≤ n && n ≤ 0x0d) || (0x1c ≤ n && n ≤ 0x20) || n == 0x85 || n == 0xa0 || n == 0x1680 ||
    (0x2000 ≤ n && n ≤ 0x200a) || n == 0x2028 || n == 0x2029 || n == 0x202f || n == 0x205f ||
    n == 0x3000

/-- A word in front of others, unless it is empty. -/
def consWord : List Char → List (List Char) → List (List Char)
  | [], ws => ws
  | w, ws => w :: ws

/-- The characters up to the first blank, and the words after it. -/
def cutWord : List Char → List Char × List (List Char)
  | [] => ([], [])
  | c :: cs =>
    let (w, ws) := cutWord cs
    if isBlank c then ([], consWord w ws) else (c :: w, ws)

/-- The words of a text, from left to right. -/
def wordsOf (cs : List Char) : List (List Char) :=
  consWord (cutWord cs).1 (cutWord cs).2

/-- The words of a line. -/
def words (line : String) : List String :=
  (wordsOf line.toList).map String.ofList

/-! ### Laws of the words -/

private theorem mem_consWord {w v : List Char} {ws : List (List Char)} (h : v ∈ consWord w ws) :
    (v = w ∧ w ≠ []) ∨ v ∈ ws := by
  cases w with
  | nil => exact Or.inr h
  | cons c cs =>
    rcases List.mem_cons.mp h with h | h
    · exact Or.inl ⟨h, List.cons_ne_nil _ _⟩
    · exact Or.inr h

private theorem flatten_consWord (w : List Char) (ws : List (List Char)) :
    (consWord w ws).flatten = w ++ ws.flatten := by
  cases w <;> rfl

private theorem not_isBlank_cutWord (cs : List Char) :
    (∀ c ∈ (cutWord cs).1, isBlank c = false) ∧
      ∀ w ∈ (cutWord cs).2, w ≠ [] ∧ ∀ c ∈ w, isBlank c = false := by
  induction cs with
  | nil => simp [cutWord]
  | cons c cs ih =>
    obtain ⟨hw, hws⟩ := ih
    simp only [cutWord]
    split
    · refine ⟨by simp, fun w h => ?_⟩
      rcases mem_consWord h with ⟨rfl, hne⟩ | h
      · exact ⟨hne, hw⟩
      · exact hws w h
    · rename_i hc
      refine ⟨fun d hd => ?_, hws⟩
      rcases List.mem_cons.mp hd with rfl | hd
      · simpa using hc
      · exact hw d hd

/-- A word is not empty and holds no blank. -/
theorem mem_wordsOf {cs w : List Char} (h : w ∈ wordsOf cs) :
    w ≠ [] ∧ ∀ c ∈ w, isBlank c = false := by
  rcases mem_consWord h with ⟨rfl, hne⟩ | h
  · exact ⟨hne, (not_isBlank_cutWord cs).1⟩
  · exact (not_isBlank_cutWord cs).2 w h

/-- The words hold every character of the text but its blanks, in order. -/
theorem flatten_wordsOf (cs : List Char) :
    (wordsOf cs).flatten = cs.filter (fun c => !isBlank c) := by
  have cut : (cutWord cs).1 ++ (cutWord cs).2.flatten = cs.filter (fun c => !isBlank c) := by
    induction cs with
    | nil => rfl
    | cons c cs ih =>
      simp only [cutWord]
      split
      · rename_i hc
        simp [flatten_consWord, ih, hc]
      · rename_i hc
        simp [ih, hc]
  rw [wordsOf, flatten_consWord, cut]

end ExactAlgebra.Text
