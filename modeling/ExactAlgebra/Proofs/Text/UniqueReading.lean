import ExactAlgebra.Proofs.Nodes
import Mathlib.Tactic.SplitIfs

/-!
# Unique reading

What the texts of expressions have in common. A text is told apart from others if it settles what it
is the text of and where it ends, whatever stands behind it (`ToldApart`). Numbers are told apart
where they are not followed by one more of the characters that numbers are written with
(`toldApart_ratText`).

The first character of a text says of which kind the node is (`kindOf?`). A node is its kind and its
children, or else a leaf, so what is left for each of the forms is to separate the children.
-/

namespace ExactAlgebra

namespace Text

/-! ### Separating two texts -/

/-- Where the text of `a` and another text begin one list of characters, and what stands behind
either is as `Ends` has it, both are one text, of `a`. -/
def ToldApart {α : Type} (text : α → List Char) (Ends : List Char → Prop) (a : α) : Prop :=
  ∀ ⦃b : α⦄ ⦃cs ds : List Char⦄, Ends cs → Ends ds → text a ++ cs = text b ++ ds → a = b ∧ cs = ds

/-- The characters do not begin with one of a certain kind. -/
def Stops (P : Char → Prop) (cs : List Char) : Prop :=
  ∀ c ∈ cs.head?, ¬ P c

theorem stops_nil (P : Char → Prop) : Stops P [] := by
  simp [Stops]

theorem stops_cons_iff {P : Char → Prop} {c : Char} {cs : List Char} :
    Stops P (c :: cs) ↔ ¬ P c := by
  simp [Stops]

/-- Two runs of characters of a certain kind that begin one list, and that the list does not go on
with, are one run. -/
theorem append_inj_of_stops {P : Char → Prop} {as bs cs ds : List Char} (has : ∀ c ∈ as, P c)
    (hbs : ∀ c ∈ bs, P c) (hcs : Stops P cs) (hds : Stops P ds) (h : as ++ cs = bs ++ ds) :
    as = bs ∧ cs = ds := by
  induction as generalizing bs with
  | nil =>
    cases bs with
    | nil => exact ⟨rfl, h⟩
    | cons b bs =>
      rw [List.nil_append] at h
      subst h
      exact absurd (hbs b List.mem_cons_self) (stops_cons_iff.mp hcs)
  | cons a as ih =>
    cases bs with
    | nil =>
      rw [List.nil_append] at h
      subst h
      exact absurd (has a List.mem_cons_self) (stops_cons_iff.mp hds)
    | cons b bs =>
      obtain ⟨rfl, htails⟩ := List.cons.inj h
      obtain ⟨rfl, hrest⟩ :=
        ih (List.forall_mem_cons.mp has).2 (List.forall_mem_cons.mp hbs).2 htails
      exact ⟨rfl, hrest⟩

/-! ### Integers -/

/-- A character of a natural number. -/
def IsDigit (c : Char) : Prop :=
  '0' ≤ c ∧ c ≤ '9'

instance : DecidablePred IsDigit := fun _ => inferInstanceAs (Decidable (_ ∧ _))

theorem isDigit_of_mem_natText {n : Nat} {c : Char} (h : c ∈ natText n) : IsDigit c := by
  have hdigit := Nat.isDigit_of_mem_toDigits (by decide) (by decide) h
  simp only [Char.isDigit, Bool.and_eq_true, decide_eq_true_eq] at hdigit
  exact hdigit

theorem natText_injective : Function.Injective natText := by
  have hleft : Function.LeftInverse (fun cs => Nat.ofDigitChars 10 cs 0) natText :=
    fun n => Nat.ofDigitChars_ten_toDigits
  exact hleft.injective

/-- A character of an integer. -/
def IsIntegral (c : Char) : Prop :=
  IsDigit c ∨ c = '-'

instance : DecidablePred IsIntegral := fun _ => inferInstanceAs (Decidable (_ ∨ _))

theorem isIntegral_of_mem_intText {n : Int} {c : Char} (h : c ∈ intText n) : IsIntegral c := by
  rw [intText] at h
  split at h
  · rcases List.mem_cons.mp h with rfl | h
    · exact Or.inr rfl
    · exact Or.inl (isDigit_of_mem_natText h)
  · exact Or.inl (isDigit_of_mem_natText h)

theorem natText_ne_cons_minus (m : Nat) (cs : List Char) : natText m ≠ '-' :: cs := by
  intro h
  have hminus : '-' ∈ natText m := h ▸ List.mem_cons_self
  exact absurd (isDigit_of_mem_natText hminus) (by decide)

theorem intText_injective : Function.Injective intText := by
  intro m n h
  simp only [intText] at h
  split_ifs at h with hm hn hn
  · have := natText_injective (List.cons.inj h).2
    omega
  · exact absurd h.symm (natText_ne_cons_minus _ _)
  · exact absurd h (natText_ne_cons_minus _ _)
  · have := natText_injective h
    omega

end Text

open Text

/-! ### Numbers -/

/-- A character of a rational number. -/
def IsNumeral (c : Char) : Prop :=
  IsIntegral c ∨ c = '/'

instance : DecidablePred IsNumeral := fun _ => inferInstanceAs (Decidable (_ ∨ _))

/-- The denominator of a number, as it stands in its text. -/
def denText (q : Rat) : List Char :=
  if q.den = 1 then [] else '/' :: natText q.den

theorem ratText_eq (q : Rat) : ratText q = intText q.num ++ denText q := by
  rw [ratText, denText]
  split_ifs
  · exact (List.append_nil _).symm
  · rfl

theorem isNumeral_of_mem_ratText {q : Rat} {c : Char} (h : c ∈ ratText q) : IsNumeral c := by
  rw [ratText_eq, denText] at h
  rcases List.mem_append.mp h with h | h
  · exact Or.inl (isIntegral_of_mem_intText h)
  · split_ifs at h
    · cases h
    · rcases List.mem_cons.mp h with rfl | h
      · exact Or.inr rfl
      · exact Or.inl (Or.inl (isDigit_of_mem_natText h))

theorem ratText_ne_nil (q : Rat) : ratText q ≠ [] := by
  rw [ratText_eq, intText]
  split_ifs
  · exact List.cons_ne_nil _ _
  · exact List.append_ne_nil_of_left_ne_nil Nat.toDigits_ne_nil _

theorem stops_denText (q : Rat) : Stops IsIntegral (denText q) := by
  rw [denText]
  split_ifs
  · exact stops_nil _
  · exact stops_cons_iff.mpr (by decide)

theorem den_eq_of_denText_eq {p q : Rat} (h : denText p = denText q) : p.den = q.den := by
  rw [denText, denText] at h
  split_ifs at h with hp hq
  · rw [hp, hq]
  · exact natText_injective (List.cons.inj h).2

theorem ratText_injective : Function.Injective ratText := by
  intro p q h
  rw [ratText_eq, ratText_eq] at h
  obtain ⟨hnum, hden⟩ := append_inj_of_stops (fun _ => isIntegral_of_mem_intText)
    (fun _ => isIntegral_of_mem_intText) (stops_denText p) (stops_denText q) h
  exact Rat.ext (intText_injective hnum) (den_eq_of_denText_eq hden)

/-- A number is told apart from what does not go on with a character of a number. -/
theorem toldApart_ratText (q : Rat) : ToldApart ratText (Stops IsNumeral) q := by
  intro p cs ds hcs hds h
  obtain ⟨htext, hrest⟩ := append_inj_of_stops (fun _ => isNumeral_of_mem_ratText)
    (fun _ => isNumeral_of_mem_ratText) hcs hds h
  exact ⟨ratText_injective htext, hrest⟩

/-! ### First characters -/

/-- The kind of a node, by the first character of its text. -/
def kindOf? (c : Char) : Option Kind :=
  if IsNumeral c then some .rational
  else if 'a' ≤ c ∧ c ≤ 'z' then some .symbol
  else if c = '^' then some .power
  else if c = '*' then some .product
  else if c = '+' then some .sum
  else none

theorem kindOf?_of_isNumeral {c : Char} (h : IsNumeral c) : kindOf? c = some .rational :=
  if_pos h

theorem not_isNumeral_of_letter {c : Char} (h : 'a' ≤ c) : ¬ IsNumeral c := by
  rintro ((⟨-, hc⟩ | rfl) | rfl)
  · exact absurd (Char.le_trans h hc) (by decide)
  · exact absurd h (by decide)
  · exact absurd h (by decide)

theorem kindOf?_letter (x : Letter) : kindOf? x.char = some .symbol := by
  rw [kindOf?, if_neg (not_isNumeral_of_letter x.isLower.1), if_pos x.isLower]

theorem kindOf?_sign {k : Kind} {c : Char} (h : k.sign? = some c) : kindOf? c = some k := by
  cases k with
  | rational | symbol => cases h
  | power | product | sum =>
    cases h
    decide

/-- A text begins with a character that says of which kind the node is. -/
def Begins (kind : Kind) (cs : List Char) : Prop :=
  ∃ c, cs.head? = some c ∧ kindOf? c = some kind

theorem Begins.append {k : Kind} {cs : List Char} (h : Begins k cs) (ds : List Char) :
    Begins k (cs ++ ds) := by
  obtain ⟨c, hc, hk⟩ := h
  refine ⟨c, ?_, hk⟩
  rw [List.head?_append, hc]
  rfl

/-- Two texts that begin one list of characters are those of nodes of one kind. -/
theorem Begins.kind_eq {k l : Kind} {as bs cs ds : List Char} (hk : Begins k as)
    (hl : Begins l bs) (h : as ++ cs = bs ++ ds) : k = l := by
  obtain ⟨c, hc, hk⟩ := hk.append cs
  obtain ⟨d, hd, hl⟩ := hl.append ds
  rw [h] at hc
  obtain rfl : c = d := Option.some.inj (hc.symm.trans hd)
  exact Option.some.inj (hk.symm.trans hl)

theorem begins_ratText (q : Rat) : Begins .rational (ratText q) := by
  cases h : ratText q with
  | nil => exact absurd h (ratText_ne_nil q)
  | cons c cs =>
    have hc : c ∈ ratText q := h ▸ List.mem_cons_self
    exact ⟨c, rfl, kindOf?_of_isNumeral (isNumeral_of_mem_ratText hc)⟩

/-! ### Nodes and their children -/

namespace Expr

/-- Induction over expressions by their children; the exponent of a power is one of them. -/
theorem children_induction {motive : Expr → Prop}
    (node : ∀ e, (∀ d ∈ e.children, motive d) → motive e) (e : Expr) : motive e := by
  induction e with
  | num | sym => exact node _ nofun
  | pow b p ih =>
    refine node _ (List.forall_mem_cons.mpr ⟨ih, List.forall_mem_singleton.mpr ?_⟩)
    exact node _ nofun
  | prod fs ih => exact node _ ih
  | sum ts ih => exact node _ ih

/-- A node that is no leaf is its kind and its children. -/
theorem eq_of_children_eq {d e : Expr} (hkind : d.kind = e.kind) (hsign : d.kind.sign? ≠ none)
    (h : d.children = e.children) : d = e := by
  cases d with
  | num | sym => exact absurd rfl hsign
  | pow b p =>
    cases e with
    | pow c q =>
      simp only [children, List.cons.injEq, num.injEq, and_true] at h
      rw [h.1, h.2]
    | num | sym | prod | sum => cases hkind
  | prod fs =>
    cases e with
    | prod gs => exact congrArg prod h
    | num | sym | pow | sum => cases hkind
  | sum ts =>
    cases e with
    | sum us => exact congrArg sum h
    | num | sym | pow | prod => cases hkind

end Expr

end ExactAlgebra
