/-!
# Lines

A text is cut into lines at every line boundary of Unicode: line feed, carriage return, the two of
them together as one, vertical tab, form feed, the three information separators above the unit
separator, next line, line separator and paragraph separator. A boundary ends a line, so a text that
ends with one has no empty line after it.
-/

namespace ExactAlgebra.Text

/-- The characters that end a line. -/
def isLineEnd (c : Char) : Bool :=
  let n := c.toNat
  (0x0a ≤ n && n ≤ 0x0d) || (0x1c ≤ n && n ≤ 0x1e) || n == 0x85 || n == 0x2028 || n == 0x2029

/-- A character in front of the first line. -/
def consLine (c : Char) : List (List Char) → List (List Char)
  | [] => [[c]]
  | l :: ls => (c :: l) :: ls

/-- The lines of a text, without what ends them. -/
def linesOf : List Char → List (List Char)
  | [] => []
  | '\r' :: '\n' :: cs => [] :: linesOf cs
  | c :: cs => if isLineEnd c then [] :: linesOf cs else consLine c (linesOf cs)

/-- The lines of a text. -/
def lines (text : String) : List String :=
  (linesOf text.toList).map String.ofList

/-- No line holds a character that ends a line. -/
theorem not_isLineEnd_of_mem {cs l : List Char} (h : l ∈ linesOf cs) :
    ∀ c ∈ l, isLineEnd c = false := by
  fun_induction linesOf cs generalizing l with
  | case1 => simp at h
  | case2 cs ih =>
    rcases List.mem_cons.mp h with rfl | h
    · simp
    · exact ih h
  | case3 c cs _ hc ih =>
    rcases List.mem_cons.mp h with rfl | h
    · simp
    · exact ih h
  | case4 c cs _ hc ih =>
    cases hl : linesOf cs with
    | nil =>
      rw [hl] at h
      simp only [consLine, List.mem_singleton] at h
      simpa [h] using hc
    | cons m ls =>
      rw [hl] at h ih
      simp only [consLine, List.mem_cons] at h
      rcases h with rfl | h
      · intro d hd
        rcases List.mem_cons.mp hd with rfl | hd
        · simpa using hc
        · exact ih List.mem_cons_self d hd
      · exact ih (List.mem_cons_of_mem _ h)

end ExactAlgebra.Text
