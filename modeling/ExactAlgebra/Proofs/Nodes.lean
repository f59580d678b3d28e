import ExactAlgebra.Expr.Build

/-!
# The nodes of an expression

Induction over expressions, with a hypothesis for each child of a sum or product, and what it means
for all nodes of an expression to have a property. The exponent of a power is part of the power and
no node of its own; what it means for all powers, or for all exponents, to have a property is said
apart. The nodes as a list (`nodes`) serve to say that some node has a property.

The sizes of lists of expressions are here as well: they do not depend on the order of the list, and
so building a node costs one.
-/

namespace ExactAlgebra.Expr

/-! ### Induction -/

/-- Induction over an expression and all its children. -/
@[elab_as_elim, induction_eliminator]
theorem induction {motive : Expr → Prop} (num : ∀ q, motive (num q)) (sym : ∀ x, motive (sym x))
    (pow : ∀ b p, motive b → motive (pow b p))
    (prod : ∀ fs, (∀ f ∈ fs, motive f) → motive (prod fs))
    (sum : ∀ ts, (∀ t ∈ ts, motive t) → motive (sum ts)) (e : Expr) : motive e := by
  refine @Expr.rec motive (fun es => ∀ e ∈ es, motive e) num sym pow prod sum
    (fun _ h => nomatch h) (fun e es he hes => ?_) e
  exact List.forall_mem_cons.mpr ⟨he, hes⟩

/-! ### All nodes -/

mutual

/-- Every node of the expression has the property. -/
def Everywhere (p : Expr → Prop) : Expr → Prop
  | num q => p (num q)
  | sym x => p (sym x)
  | pow b e => p (pow b e) ∧ b.Everywhere p
  | prod fs => p (prod fs) ∧ EverywhereAll p fs
  | sum ts => p (sum ts) ∧ EverywhereAll p ts

/-- Every node of every expression of the list has the property. -/
def EverywhereAll (p : Expr → Prop) : List Expr → Prop
  | [] => True
  | e :: es => e.Everywhere p ∧ EverywhereAll p es

end

variable {p q : Expr → Prop}

theorem everywhereAll_iff {es : List Expr} :
    EverywhereAll p es ↔ ∀ e ∈ es, e.Everywhere p := by
  induction es with
  | nil => simp [EverywhereAll]
  | cons e es ih => simp [EverywhereAll, ih]

@[simp] theorem everywhere_num {c : Rat} : (num c).Everywhere p ↔ p (num c) := Iff.rfl

@[simp] theorem everywhere_sym {x : Letter} : (sym x).Everywhere p ↔ p (sym x) := Iff.rfl

@[simp] theorem everywhere_pow {b : Expr} {e : Rat} :
    (pow b e).Everywhere p ↔ p (pow b e) ∧ b.Everywhere p := Iff.rfl

@[simp] theorem everywhere_prod {fs : List Expr} :
    (prod fs).Everywhere p ↔ p (prod fs) ∧ ∀ f ∈ fs, f.Everywhere p :=
  and_congr Iff.rfl everywhereAll_iff

@[simp] theorem everywhere_sum {ts : List Expr} :
    (sum ts).Everywhere p ↔ p (sum ts) ∧ ∀ t ∈ ts, t.Everywhere p :=
  and_congr Iff.rfl everywhereAll_iff

/-- What every node has, the root has. -/
theorem Everywhere.root {e : Expr} (h : e.Everywhere p) : p e := by
  cases e with
  | num | sym => exact h
  | pow | prod | sum => exact h.1

theorem Everywhere.mono (hpq : ∀ e, p e → q e) {e : Expr} (h : e.Everywhere p) :
    e.Everywhere q := by
  induction e with
  | num | sym => exact hpq _ h
  | pow b e ih => exact ⟨hpq _ h.1, ih h.2⟩
  | prod fs ih =>
    rw [everywhere_prod] at h ⊢
    exact ⟨hpq _ h.1, fun f hf => ih f hf (h.2 f hf)⟩
  | sum ts ih =>
    rw [everywhere_sum] at h ⊢
    exact ⟨hpq _ h.1, fun t ht => ih t ht (h.2 t ht)⟩

theorem everywhere_and {e : Expr} :
    e.Everywhere (fun d => p d ∧ q d) ↔ e.Everywhere p ∧ e.Everywhere q := by
  constructor
  · intro h
    exact ⟨h.mono fun _ hd => hd.1, h.mono fun _ hd => hd.2⟩
  · rintro ⟨hp, hq⟩
    induction e with
    | num | sym => exact ⟨hp, hq⟩
    | pow b e ih => exact ⟨⟨hp.1, hq.1⟩, ih hp.2 hq.2⟩
    | prod fs ih =>
      rw [everywhere_prod] at hp hq ⊢
      exact ⟨⟨hp.1, hq.1⟩, fun f hf => ih f hf (hp.2 f hf) (hq.2 f hf)⟩
    | sum ts ih =>
      rw [everywhere_sum] at hp hq ⊢
      exact ⟨⟨hp.1, hq.1⟩, fun t ht => ih t ht (hp.2 t ht) (hq.2 t ht)⟩

/-! ### The list of all nodes -/

mutual

/-- All nodes of the expression. -/
def nodes : Expr → List Expr
  | num q => [num q]
  | sym x => [sym x]
  | pow b p => pow b p :: b.nodes
  | prod fs => prod fs :: nodesAll fs
  | sum ts => sum ts :: nodesAll ts

/-- All nodes of the expressions of a list. -/
def nodesAll : List Expr → List Expr
  | [] => []
  | e :: es => e.nodes ++ nodesAll es

end

theorem mem_nodesAll {d : Expr} {es : List Expr} : d ∈ nodesAll es ↔ ∃ e ∈ es, d ∈ e.nodes := by
  induction es with
  | nil => simp [nodesAll]
  | cons e es ih => simp [nodesAll, ih]

theorem forall_mem_nodesAll_iff {es : List Expr}
    (h : ∀ e ∈ es, e.Everywhere p ↔ ∀ d ∈ e.nodes, p d) :
    (∀ e ∈ es, e.Everywhere p) ↔ ∀ d ∈ nodesAll es, p d := by
  constructor
  · intro hes d hd
    obtain ⟨e, he, hd⟩ := mem_nodesAll.mp hd
    exact (h e he).mp (hes e he) d hd
  · intro hes e he
    exact (h e he).mpr fun d hd => hes d (mem_nodesAll.mpr ⟨e, he, hd⟩)

/-- Every node has a property exactly if all nodes of the list have it. -/
theorem everywhere_iff_forall_mem_nodes {e : Expr} : e.Everywhere p ↔ ∀ d ∈ e.nodes, p d := by
  induction e with
  | num | sym => simp [nodes]
  | pow b e ih => rw [everywhere_pow, nodes, List.forall_mem_cons, ih]
  | prod fs ih => rw [everywhere_prod, nodes, List.forall_mem_cons, forall_mem_nodesAll_iff ih]
  | sum ts ih => rw [everywhere_sum, nodes, List.forall_mem_cons, forall_mem_nodesAll_iff ih]

/-! ### All powers and exponents -/

/-- Every power in the expression has the property, which is one of its base and exponent. -/
def Powers (P : Expr → Rat → Prop) (e : Expr) : Prop :=
  e.Everywhere fun d => ∀ b p, d = pow b p → P b p

section

variable {P Q : Expr → Rat → Prop}

@[simp] theorem powers_num (q : Rat) : (num q).Powers P := nofun

@[simp] theorem powers_sym (x : Letter) : (sym x).Powers P := nofun

@[simp] theorem powers_pow {b : Expr} {p : Rat} : (pow b p).Powers P ↔ P b p ∧ b.Powers P := by
  rw [Powers, everywhere_pow]
  refine and_congr ⟨fun h => h b p rfl, ?_⟩ Iff.rfl
  rintro h _ _ ⟨⟩
  exact h

@[simp] theorem powers_prod {fs : List Expr} : (prod fs).Powers P ↔ ∀ f ∈ fs, f.Powers P := by
  rw [Powers, everywhere_prod]
  exact and_iff_right nofun

@[simp] theorem powers_sum {ts : List Expr} : (sum ts).Powers P ↔ ∀ t ∈ ts, t.Powers P := by
  rw [Powers, everywhere_sum]
  exact and_iff_right nofun

theorem powers_ofFactors {fs : List Expr} : (ofFactors fs).Powers P ↔ ∀ f ∈ fs, f.Powers P := by
  rw [ofFactors, powers_prod]
  exact forall_congr' fun f => by rw [mem_sort]

theorem powers_ofTerms {ts : List Expr} : (ofTerms ts).Powers P ↔ ∀ t ∈ ts, t.Powers P := by
  rw [ofTerms, powers_sum]
  exact forall_congr' fun t => by rw [mem_sort]

theorem Powers.mono (hPQ : ∀ b p, P b p → Q b p) {e : Expr} (h : e.Powers P) : e.Powers Q :=
  Everywhere.mono (fun _ hd b p hbp => hPQ b p (hd b p hbp)) h

end

/-- Every exponent in the expression has the property. -/
def Exponents (P : Rat → Prop) (e : Expr) : Prop :=
  e.Everywhere fun d => ∀ b p, d = pow b p → P p

section

variable {P : Rat → Prop}

@[simp] theorem exponents_num (q : Rat) : (num q).Exponents P := nofun

@[simp] theorem exponents_sym (x : Letter) : (sym x).Exponents P := nofun

@[simp] theorem exponents_pow {b : Expr} {p : Rat} : (pow b p).Exponents P ↔ P p ∧ b.Exponents P :=
  powers_pow

@[simp] theorem exponents_prod {fs : List Expr} : (prod fs).Exponents P ↔ ∀ f ∈ fs, f.Exponents P :=
  powers_prod

@[simp] theorem exponents_sum {ts : List Expr} : (sum ts).Exponents P ↔ ∀ t ∈ ts, t.Exponents P :=
  powers_sum

theorem exponents_ofFactors {fs : List Expr} :
    (ofFactors fs).Exponents P ↔ ∀ f ∈ fs, f.Exponents P :=
  powers_ofFactors

theorem exponents_ofTerms {ts : List Expr} :
    (ofTerms ts).Exponents P ↔ ∀ t ∈ ts, t.Exponents P :=
  powers_ofTerms

end

/-- No exponent in the expression is a certain one. -/
theorem exponents_ne_iff {c : Rat} {e : Expr} :
    e.Exponents (fun p => p ≠ c) ↔ e.Everywhere fun d => ∀ b, d ≠ pow b c := by
  have h : ∀ d : Expr, (∀ b p, d = pow b p → p ≠ c) ↔ ∀ b, d ≠ pow b c := by
    intro d
    constructor
    · rintro h b rfl
      exact h b c rfl rfl
    · rintro h b _ rfl rfl
      exact h b rfl
  constructor
  · exact Everywhere.mono fun d => (h d).mp
  · exact Everywhere.mono fun d => (h d).mpr

/-! ### Well formed nodes -/

/-- A pass that keeps the terms of a sum well formed keeps the sum so. -/
theorem wellFormed_ofTerms_map {f : Expr → Expr} {ts : List Expr} (h : (sum ts).WellFormed)
    (hf : ∀ t ∈ ts, t.WellFormed → (f t).WellFormed) : (ofTerms (ts.map f)).WellFormed := by
  obtain ⟨hlen, -, hts⟩ := h
  rw [allWellFormed_iff] at hts
  refine wellFormed_ofTerms (List.forall_mem_map.mpr fun t ht => hf t ht (hts t ht)) ?_
  rwa [List.length_map]

/-! ### Sizes -/

@[simp] theorem size_num (c : Rat) : (num c).size = 0 := rfl

@[simp] theorem size_sym (x : Letter) : (sym x).size = 1 := rfl

@[simp] theorem size_pow (b : Expr) (e : Rat) : (pow b e).size = b.size + 1 := rfl

@[simp] theorem size_prod (fs : List Expr) : (prod fs).size = sizeAll fs + 1 := rfl

@[simp] theorem size_sum (ts : List Expr) : (sum ts).size = sizeAll ts + 1 := rfl

@[simp] theorem sizeAll_nil : sizeAll [] = 0 := rfl

@[simp] theorem sizeAll_cons (e : Expr) (es : List Expr) :
    sizeAll (e :: es) = e.size + sizeAll es := rfl

@[simp] theorem sizeAll_append (as bs : List Expr) :
    sizeAll (as ++ bs) = sizeAll as + sizeAll bs := by
  induction as with
  | nil => simp
  | cons a as ih => simp [ih, Nat.add_assoc]

theorem sizeAll_perm {as bs : List Expr} (h : as.Perm bs) : sizeAll as = sizeAll bs := by
  induction h with
  | nil => rfl
  | cons _ _ ih => simp [ih]
  | swap => simp [Nat.add_left_comm]
  | trans _ _ ih₁ ih₂ => exact ih₁.trans ih₂

@[simp] theorem size_ofTerms (ts : List Expr) : (ofTerms ts).size = sizeAll ts + 1 := by
  rw [ofTerms, size_sum, sizeAll_perm (sort_perm ts)]

@[simp] theorem size_ofFactors (fs : List Expr) : (ofFactors fs).size = sizeAll fs + 1 := by
  rw [ofFactors, size_prod, sizeAll_perm (sort_perm fs)]

theorem size_le_sizeAll {e : Expr} {es : List Expr} (h : e ∈ es) : e.size ≤ sizeAll es := by
  induction es with
  | nil => cases h
  | cons d ds ih =>
    rw [sizeAll_cons]
    rcases List.mem_cons.mp h with rfl | h
    · omega
    · have := ih h
      omega

/-- Only numbers have no size. -/
theorem size_eq_zero_iff {e : Expr} : e.size = 0 ↔ e.kind = .rational := by
  cases e <;> simp [kind]

end ExactAlgebra.Expr
