import ExactAlgebra.Expr.Tree
import ExactAlgebra.Proofs.Text.LinearForm
import Mathlib.Algebra.BigOperators.Group.List.Basic
import Mathlib.Algebra.Ring.Nat

/-!
# The tree form is faithful

The tree form has one line for each node (`length_treeLines`), and a margin comes before every line
but the first and changes nothing else (`treeText_eq`). Below the sign of a composite node the lines
of each child hang at a mark, in a column of their own (`hung`).

Two expressions with one tree form are one expression. The margin, and the mark or the column behind
it, tell to which node a line belongs: the lines of a node end where the next line does not begin
with the margin of its children (`Beyond`). So each child is told apart from those that follow
(`toldApart_treeText`).
-/

namespace ExactAlgebra.Expr

open Text

/-! ### Counting nodes -/

mutual

/-- The number of nodes of an expression, exponents included. -/
def nodeCount : Expr → Nat
  | num _ => 1
  | sym _ => 1
  | pow b _ => b.nodeCount + 2
  | prod fs => nodeCountAll fs + 1
  | sum ts => nodeCountAll ts + 1

/-- The numbers of nodes of the expressions of a list, added up. -/
def nodeCountAll : List Expr → Nat
  | [] => 0
  | e :: es => e.nodeCount + nodeCountAll es

end

theorem nodeCountAll_eq (es : List Expr) : nodeCountAll es = (es.map nodeCount).sum := by
  induction es with
  | nil => rfl
  | cons e es ih => rw [nodeCountAll, ih, List.map_cons, List.sum_cons]

/-- A node counts one more than its children. -/
theorem nodeCount_eq (e : Expr) : e.nodeCount = (e.children.map nodeCount).sum + 1 := by
  rw [← nodeCountAll_eq]
  cases e <;> rfl

/-! ### Lines -/

/-- Some lines, each with a line feed behind it. -/
def unlines (ls : List (List Char)) : List Char :=
  ls.flatMap fun l => l ++ ['\n']

theorem unlines_append (ls ls' : List (List Char)) :
    unlines (ls ++ ls') = unlines ls ++ unlines ls' :=
  List.flatMap_append

/-- The lines of a child, the first behind its mark and the others behind its column. -/
def hung (last : Bool) : List (List Char) → List (List Char)
  | [] => []
  | l :: ls => (branchMark last ++ l) :: ls.map fun l => branchColumn last ++ l

theorem length_hung (last : Bool) (ls : List (List Char)) : (hung last ls).length = ls.length := by
  cases ls with
  | nil => rfl
  | cons l ls => simp [hung]

mutual

/-- The lines of the tree form, without a margin. -/
def treeLines : Expr → List (List Char)
  | num q => [ratText q]
  | sym x => [[x.char]]
  | pow b p => ['^'] :: (hung false b.treeLines ++ hung true [ratText p])
  | prod fs => ['*'] :: branchLines fs
  | sum ts => ['+'] :: branchLines ts

/-- The lines of the children of a node. -/
def branchLines : List Expr → List (List Char)
  | [] => []
  | e :: es => hung es.isEmpty e.treeLines ++ branchLines es

end

/-- Some lines with a margin before every line but the first. -/
def indented (margin : List Char) : List (List Char) → List (List Char)
  | [] => []
  | l :: ls => l :: ls.map fun l => margin ++ l

theorem unlines_hung (margin : List Char) (last : Bool) {ls : List (List Char)} (h : ls ≠ []) :
    unlines ((hung last ls).map fun l => margin ++ l) =
      margin ++ branchMark last ++ unlines (indented (margin ++ branchColumn last) ls) := by
  cases ls with
  | nil => exact absurd rfl h
  | cons l ls => simp [hung, indented, unlines, List.flatMap_map]

/-! ### The text of a node -/

theorem treeText_of_leaf {e : Expr} (margin : List Char) (h : e.kind.sign? = none) :
    treeText margin e = e.linearText ++ ['\n'] ∧ e.treeLines = [e.linearText] ∧
      e.nodeCount = 1 := by
  cases e with
  | num | sym => exact ⟨rfl, rfl, rfl⟩
  | pow | prod | sum => cases h

theorem branchesText_cons (margin : List Char) (e : Expr) (es : List Expr) :
    branchesText margin (e :: es) = margin ++ branchMark es.isEmpty ++
      treeText (margin ++ branchColumn es.isEmpty) e ++ branchesText margin es := by
  cases es with
  | nil => exact (List.append_nil _).symm
  | cons d ds =>
    rw [branchesText]
    · rfl
    · exact List.cons_ne_nil _ _

theorem treeText_of_sign? {e : Expr} {c : Char} (margin : List Char) (h : e.kind.sign? = some c) :
    treeText margin e = c :: '\n' :: branchesText margin e.children := by
  cases e with
  | num | sym => cases h
  | pow b p =>
    cases h
    simp [treeText, children, branchesText_cons, branchesText]
  | prod | sum =>
    cases h
    rfl

theorem treeLines_of_sign? {e : Expr} {c : Char} (h : e.kind.sign? = some c) :
    e.treeLines = [c] :: branchLines e.children := by
  cases e with
  | num | sym => cases h
  | pow | prod | sum =>
    cases h
    rfl

theorem treeLines_ne_nil (e : Expr) : e.treeLines ≠ [] := by
  cases e <;> exact List.cons_ne_nil _ _

theorem branchesText_eq {es : List Expr} (margin : List Char)
    (h : ∀ e ∈ es, ∀ m, treeText m e = unlines (indented m e.treeLines)) :
    branchesText margin es = unlines ((branchLines es).map fun l => margin ++ l) := by
  induction es with
  | nil => rfl
  | cons e es ih =>
    obtain ⟨he, hes⟩ := List.forall_mem_cons.mp h
    rw [branchesText_cons, he, ih hes, branchLines, List.map_append, unlines_append,
      unlines_hung _ _ (treeLines_ne_nil e)]

/-- A margin comes before every line but the first. -/
theorem treeText_eq (e : Expr) (margin : List Char) :
    treeText margin e = unlines (indented margin e.treeLines) := by
  induction e using children_induction generalizing margin with
  | node e ih =>
    cases hsign : e.kind.sign? with
    | some c =>
      rw [treeText_of_sign? margin hsign, treeLines_of_sign? hsign,
        branchesText_eq margin fun d hd m => ih d hd m]
      rfl
    | none =>
      obtain ⟨htext, hlines, -⟩ := treeText_of_leaf margin hsign
      rw [htext, hlines]
      exact (List.append_nil _).symm

theorem length_branchLines {es : List Expr} (h : ∀ e ∈ es, e.treeLines.length = e.nodeCount) :
    (branchLines es).length = (es.map nodeCount).sum := by
  induction es with
  | nil => rfl
  | cons e es ih =>
    obtain ⟨he, hes⟩ := List.forall_mem_cons.mp h
    rw [branchLines, List.length_append, length_hung, he, ih hes, List.map_cons, List.sum_cons]

/-- There is one line for each node. -/
theorem length_treeLines (e : Expr) : e.treeLines.length = e.nodeCount := by
  induction e using children_induction with
  | node e ih =>
    cases hsign : e.kind.sign? with
    | some c =>
      rw [treeLines_of_sign? hsign, List.length_cons, length_branchLines ih, nodeCount_eq]
    | none =>
      obtain ⟨-, hlines, hcount⟩ := treeText_of_leaf [] hsign
      rw [hlines, hcount]
      rfl

/-! ### Line feeds -/

theorem lineFeed_notMem_leaf {e : Expr} (h : e.kind.sign? = none) : '\n' ∉ e.linearText := by
  cases e with
  | num q => exact fun hq => absurd (isNumeral_of_mem_ratText hq) (by decide)
  | sym x =>
    intro hx
    have hlow := x.isLower.1
    rw [← List.mem_singleton.mp hx] at hlow
    exact absurd hlow (by decide)
  | pow | prod | sum => cases h

theorem lineFeed_ne_sign {k : Kind} {c : Char} (h : k.sign? = some c) : '\n' ≠ c := by
  rintro rfl
  cases k <;> exact absurd h (by decide)

theorem lineFeed_notMem_hung (last : Bool) {ls : List (List Char)} (h : ∀ l ∈ ls, '\n' ∉ l) :
    ∀ l ∈ hung last ls, '\n' ∉ l := by
  have hmark : '\n' ∉ branchMark last := by
    cases last <;> decide
  have hcolumn : '\n' ∉ branchColumn last := by
    cases last <;> decide
  cases ls with
  | nil => exact h
  | cons l ls =>
    obtain ⟨hl, hls⟩ := List.forall_mem_cons.mp h
    refine List.forall_mem_cons.mpr ⟨?_, List.forall_mem_map.mpr fun k hk => ?_⟩
    · exact List.not_mem_append hmark hl
    · exact List.not_mem_append hcolumn (hls k hk)

theorem lineFeed_notMem_branchLines {es : List Expr}
    (h : ∀ e ∈ es, ∀ l ∈ e.treeLines, '\n' ∉ l) : ∀ l ∈ branchLines es, '\n' ∉ l := by
  induction es with
  | nil => exact List.forall_mem_nil _
  | cons e es ih =>
    obtain ⟨he, hes⟩ := List.forall_mem_cons.mp h
    exact List.forall_mem_append.mpr ⟨lineFeed_notMem_hung _ he, ih hes⟩

/-- The lines of the tree form hold no line feeds. -/
theorem lineFeed_notMem_treeLines (e : Expr) : ∀ l ∈ e.treeLines, '\n' ∉ l := by
  induction e using children_induction with
  | node e ih =>
    cases hsign : e.kind.sign? with
    | some c =>
      rw [treeLines_of_sign? hsign]
      refine List.forall_mem_cons.mpr ⟨?_, lineFeed_notMem_branchLines ih⟩
      exact List.not_mem_cons_of_ne_of_not_mem (lineFeed_ne_sign hsign) List.not_mem_nil
    | none =>
      obtain ⟨-, hlines, -⟩ := treeText_of_leaf [] hsign
      rw [hlines, List.forall_mem_singleton]
      exact lineFeed_notMem_leaf hsign

theorem lineFeed_notMem_margin (margin : Margin) : '\n' ∉ margin.chars :=
  fun h => absurd (List.all_eq_true.mp margin.isPlain _ h) (by decide)

theorem indented_nil (ls : List (List Char)) : indented [] ls = ls := by
  cases ls with
  | nil => rfl
  | cons l ls => exact congrArg (l :: ·) (List.map_id ls)

/-! ### Telling trees apart -/

/-- The characters with which a mark or a column may begin. -/
def branchChars : List Char :=
  [' ', '│', '├', '╰']

/-- The text does not go on below a node whose children have this margin. -/
def Beyond (margin cs : List Char) : Prop :=
  ∀ c ∈ branchChars, ¬ (margin ++ [c]) <+: cs

theorem beyond_nil (margin : List Char) : Beyond margin [] :=
  fun _ _ h => absurd (List.prefix_nil.mp h) (by simp)

theorem branchesText_cons_append (margin : List Char) (e : Expr) (es : List Expr)
    (cs : List Char) :
    branchesText margin (e :: es) ++ cs = margin ++ (branchMark es.isEmpty ++
      (treeText (margin ++ branchColumn es.isEmpty) e ++ (branchesText margin es ++ cs))) := by
  rw [branchesText_cons]
  simp only [List.append_assoc]

/-- The text of a child goes on below its parent. -/
theorem not_beyond_branchesText_cons (margin : List Char) (e : Expr) (es : List Expr)
    (cs : List Char) : ¬ Beyond margin (branchesText margin (e :: es) ++ cs) := by
  intro h
  rw [branchesText_cons_append] at h
  cases hlast : es.isEmpty with
  | true =>
    rw [hlast] at h
    exact h '╰' (by decide) ((List.prefix_append_right_inj _).mpr ⟨_, rfl⟩)
  | false =>
    rw [hlast] at h
    exact h '├' (by decide) ((List.prefix_append_right_inj _).mpr ⟨_, rfl⟩)

/-- What does not go on below a node does not go on below its last child. -/
theorem beyond_column {margin cs : List Char} (last : Bool) (h : Beyond margin cs) :
    Beyond (margin ++ branchColumn last) cs := by
  obtain ⟨d, hd, ds, hcolumn⟩ : ∃ d ∈ branchChars, ∃ ds, branchColumn last = d :: ds := by
    cases last with
    | true => exact ⟨' ', by decide, _, rfl⟩
    | false => exact ⟨'│', by decide, _, rfl⟩
  rintro c - hprefix
  refine h d hd (List.IsPrefix.trans ?_ hprefix)
  rw [hcolumn, List.append_assoc]
  exact (List.prefix_append_right_inj _).mpr ⟨ds ++ [c], rfl⟩

/-- The mark of the next child does not go on below a child. -/
theorem beyond_mark (margin : List Char) (last : Bool) (cs : List Char) :
    Beyond (margin ++ branchColumn false) (margin ++ (branchMark last ++ cs)) := by
  rintro c - hprefix
  rw [List.append_assoc, List.prefix_append_right_inj] at hprefix
  cases last with
  | true => exact absurd (List.cons_prefix_cons.mp hprefix).1 (by decide)
  | false => exact absurd (List.cons_prefix_cons.mp hprefix).1 (by decide)

/-- What follows a child does not go on below it. -/
theorem beyond_branchesText {margin cs : List Char} (es : List Expr) (h : Beyond margin cs) :
    Beyond (margin ++ branchColumn es.isEmpty) (branchesText margin es ++ cs) := by
  cases es with
  | nil => exact beyond_column true h
  | cons e es =>
    rw [branchesText_cons_append]
    exact beyond_mark margin _ _

theorem branchMark_append_inj {last last' : Bool} {cs ds : List Char}
    (h : branchMark last ++ cs = branchMark last' ++ ds) : last = last' ∧ cs = ds := by
  cases last <;> cases last' <;> simp_all [branchMark]

theorem branchesText_append_inj {as : List Expr} {margin : List Char}
    (has : ∀ a ∈ as, ∀ m, ToldApart (treeText m) (Beyond m) a) :
    ToldApart (branchesText margin) (Beyond margin) as := by
  intro bs cs ds hcs hds h
  induction as generalizing bs with
  | nil =>
    cases bs with
    | nil => exact ⟨rfl, h⟩
    | cons b bs =>
      rw [branchesText, List.nil_append] at h
      subst h
      exact absurd hcs (not_beyond_branchesText_cons margin b bs ds)
  | cons a as ih =>
    cases bs with
    | nil =>
      rw [branchesText, List.nil_append] at h
      subst h
      exact absurd hds (not_beyond_branchesText_cons margin a as cs)
    | cons b bs =>
      obtain ⟨ha, has⟩ := List.forall_mem_cons.mp has
      rw [branchesText_cons_append, branchesText_cons_append] at h
      obtain ⟨hlast, h⟩ := branchMark_append_inj (List.append_cancel_left h)
      rw [hlast] at h
      have hend := beyond_branchesText as hcs
      rw [hlast] at hend
      obtain ⟨rfl, htails⟩ := ha _ hend (beyond_branchesText bs hds) h
      obtain ⟨rfl, hrest⟩ := ih has htails
      exact ⟨rfl, hrest⟩

theorem begins_treeText (margin : List Char) (e : Expr) : Begins e.kind (treeText margin e) := by
  cases hsign : e.kind.sign? with
  | some c =>
    rw [treeText_of_sign? margin hsign]
    exact ⟨c, rfl, kindOf?_sign hsign⟩
  | none =>
    rw [(treeText_of_leaf margin hsign).1]
    exact (begins_linearText e).append _

/-- The tree form of an expression with a margin is told apart from what does not go on below that
margin. -/
theorem toldApart_treeText (e : Expr) (margin : List Char) :
    ToldApart (treeText margin) (Beyond margin) e := by
  induction e using children_induction generalizing margin with
  | node a ih =>
    intro b cs ds hcs hds h
    have hkind := (begins_treeText margin a).kind_eq (begins_treeText margin b) h
    cases hsign : a.kind.sign? with
    | some c =>
      rw [treeText_of_sign? margin hsign, treeText_of_sign? margin (hkind ▸ hsign)] at h
      have h : branchesText margin a.children ++ cs = branchesText margin b.children ++ ds := by
        simpa using h
      obtain ⟨hchildren, hrest⟩ := branchesText_append_inj ih hcs hds h
      exact ⟨eq_of_children_eq hkind (by rw [hsign]; simp) hchildren, hrest⟩
    | none =>
      have hline : ∀ cs, Stops IsNumeral ('\n' :: cs) := fun cs => stops_cons_iff.mpr (by decide)
      rw [(treeText_of_leaf margin hsign).1, (treeText_of_leaf margin (hkind ▸ hsign)).1,
        List.append_assoc, List.append_assoc] at h
      obtain ⟨hab, hrest⟩ := toldApart_linearText a (hline cs) (hline ds) h
      exact ⟨hab, (List.cons.inj hrest).2⟩

/-! ### The tree form -/

/-- A text is made of these lines, each with a line feed behind it and none in it. -/
def IsLines (s : String) (ls : List (List Char)) : Prop :=
  s = String.ofList (unlines ls) ∧ ∀ l ∈ ls, '\n' ∉ l

/-- The tree form has one line for each node, a margin comes before every line but the first and
changes nothing else, and expressions are the same exactly if their tree forms are. -/
theorem tree_faithful :
    (∀ (margin : Margin) (e : Expr), ∃ first rest,
      IsLines e.tree (first :: rest) ∧
        IsLines (e.treeWithin margin) (first :: rest.map fun l => margin.chars ++ l) ∧
          (first :: rest).length = e.nodeCount) ∧
      ∀ a b : Expr, a.tree = b.tree ↔ a = b := by
  constructor
  · intro margin e
    have hfree := lineFeed_notMem_treeLines e
    have hcount := length_treeLines e
    have htree : e.tree = String.ofList (unlines e.treeLines) := by
      rw [tree, treeWithin, treeText_eq, Margin.none, indented_nil]
    have hwithin :
        e.treeWithin margin = String.ofList (unlines (indented margin.chars e.treeLines)) :=
      congrArg String.ofList (treeText_eq e margin.chars)
    cases hlines : e.treeLines with
    | nil => exact absurd hlines (treeLines_ne_nil e)
    | cons first rest =>
      rw [hlines] at hfree hcount htree hwithin
      obtain ⟨hfirst, hrest⟩ := List.forall_mem_cons.mp hfree
      refine ⟨first, rest, ⟨htree, hfree⟩, ⟨hwithin, ?_⟩, hcount⟩
      refine List.forall_mem_cons.mpr ⟨hfirst, List.forall_mem_map.mpr fun l hl => ?_⟩
      exact List.not_mem_append (lineFeed_notMem_margin margin) (hrest l hl)
  · intro a b
    constructor
    · intro h
      have htext : treeText [] a = treeText [] b := String.ofList_injective h
      have hends : treeText [] a ++ [] = treeText [] b ++ [] := congrArg (· ++ []) htext
      exact (toldApart_treeText a [] (beyond_nil _) (beyond_nil _) hends).1
    · rintro rfl
      rfl

end ExactAlgebra.Expr
