import ExactAlgebra.Proofs.Canonical.Parts
import Mathlib.Logic.Function.Iterate

/-!
# Folding like parts

Sums and products deal with their parts in one way: each part is entered with an amount under a key,
the amounts under a key are added up, and a group of them is turned into parts again. Where a group
comes to a node of the kind around it, or to a number, its key is lost; then the parts are gathered
once more. A `Folding` says what is common to both, and nothing in this module is about one of them
alone.

The parts of a whole may stand in place of the whole among other parts if none of their groups is
lost (`form_spliced_append_of_plain`), or if no key that may be lost is one of the others as well
(`form_spliced_append_of_apart`). The second rests on `form_append_iterate`: parts that have no such
key in common are folded on their own, any number of times, without a change to what they come to
together. That they come to an end is because folding with a loss takes off nodes (`exists_plain`).
-/

namespace ExactAlgebra.Canonical

open ExactAlgebra.Expr

variable {guess : RootGuess}

/-! ### Keys -/

/-- The keys of some parts that are no numbers, and those of the parts that such a key has itself,
where it is of the kind of the node. -/
inductive KeyIn (kind : Kind) (key : Expr → Expr) : List Expr → Expr → Prop
  | own {us : List Expr} {u : Expr} :
      u ∈ us → u.kind ≠ .rational → KeyIn kind key us (key u)
  | inner {us : List Expr} {k d : Expr} :
      KeyIn kind key us k → k.kind = kind → KeyIn kind key k.children d → KeyIn kind key us d

/-- Parts have no other keys if their own keys are none, and they have no parts but those of such
keys. -/
theorem KeyIn.of_parts {kind : Kind} {key : Expr → Expr} {us vs : List Expr}
    (h : ∀ u ∈ vs, u.kind ≠ .rational →
      ∃ k, KeyIn kind key us k ∧ (key u = k ∨ k.kind = kind ∧ u ∈ k.children))
    {d : Expr} (hd : KeyIn kind key vs d) : KeyIn kind key us d := by
  generalize hws : vs = ws at hd
  induction hd with
  | own hu hrat =>
    subst hws
    obtain ⟨k, hk, hkey | ⟨hkind, hmem⟩⟩ := h _ hu hrat
    · rwa [hkey]
    · exact .inner hk hkind (.own hmem hrat)
  | inner _ hkind hd ih _ =>
    exact .inner (ih hws) hkind hd

/-- The keys are those of the parts alone if none of these is of the kind of the node. -/
theorem KeyIn.eq_key {kind : Kind} {key : Expr → Expr} {us : List Expr}
    (h : ∀ u ∈ us, (key u).kind ≠ kind) {d : Expr} (hd : KeyIn kind key us d) :
    ∃ u ∈ us, key u = d := by
  induction hd with
  | own hu => exact ⟨_, hu, rfl⟩
  | inner _ hkind _ ih _ =>
    obtain ⟨u, hu, rfl⟩ := ih h
    exact absurd hkind (h u hu)

/-! ### What sums and products have in common -/

/-- Parts of a node of some kind: reduced, and none of that kind. -/
def Flat (guess : RootGuess) (kind : Kind) (us : List Expr) : Prop :=
  ∀ u ∈ us, Reduced guess u ∧ u.kind ≠ kind

/-- Parts of a node that are irreducible. -/
def Firm (guess : RootGuess) (kind : Kind) (us : List Expr) : Prop :=
  ∀ u ∈ us, Irreducible guess u ∧ u.kind ≠ kind

theorem Firm.flat {kind : Kind} {us : List Expr} (h : Firm guess kind us) : Flat guess kind us :=
  fun u hu => ⟨(h u hu).1.reduced, (h u hu).2⟩

theorem Flat.append {kind : Kind} {us vs : List Expr} (hus : Flat guess kind us)
    (hvs : Flat guess kind vs) : Flat guess kind (us ++ vs) :=
  List.forall_mem_append.mpr ⟨hus, hvs⟩

theorem Firm.append {kind : Kind} {us vs : List Expr} (hus : Firm guess kind us)
    (hvs : Firm guess kind vs) : Firm guess kind (us ++ vs) :=
  List.forall_mem_append.mpr ⟨hus, hvs⟩

/-- The keys of parts, with the amounts under them. -/
def entriesBy (key : Expr → Expr) (amount : Expr → Rat) (us : List Expr) : List (Expr × Rat) :=
  (nonNumbers us).map fun u => (key u, amount u)

/-- The parts that groups are turned into, and a number. -/
def foldedBy (key : Expr → Expr) (amount : Expr → Rat) (drawn : Expr × Rat → List Expr)
    (constant : List Expr → Rat) (us : List Expr) : List Expr :=
  (Groups.collect (entriesBy key amount us)).flatMap drawn ++ [.num (constant us)]

section

variable {M : Type} [AddCommMonoid M]

/-- What some parts are worth together. -/
def worthAll (worth : Expr → M) (us : List Expr) : M :=
  (us.map worth).sum

variable (worth : Expr → M)

@[simp] theorem worthAll_nil : worthAll worth [] = 0 := rfl

theorem worthAll_cons (u : Expr) (us : List Expr) :
    worthAll worth (u :: us) = worth u + worthAll worth us :=
  List.sum_cons

theorem worthAll_append (us vs : List Expr) :
    worthAll worth (us ++ vs) = worthAll worth us + worthAll worth vs := by
  rw [worthAll, List.map_append, List.sum_append, worthAll, worthAll]

@[simp] theorem worthAll_singleton (u : Expr) : worthAll worth [u] = worth u :=
  List.sum_singleton

theorem worthAll_perm {us vs : List Expr} (h : us.Perm vs) :
    worthAll worth us = worthAll worth vs :=
  (h.map worth).sum_eq

theorem worthAll_flatMap {α : Type} (f : α → List Expr) (as : List α) :
    worthAll worth (as.flatMap f) = (as.map fun a => worthAll worth (f a)).sum := by
  induction as with
  | nil => rfl
  | cons a as ih => rw [List.flatMap_cons, worthAll_append, ih, List.map_cons, List.sum_cons]

end

/-- How the parts of a node of one kind are dealt with. -/
structure Folding (guess : RootGuess) (M : Type) [AddCommMonoid M] where
  /-- The kind of the node. -/
  kind : Kind
  /-- The node over some children. -/
  node : List Expr → Expr
  /-- The key under which a part is entered. -/
  key : Expr → Expr
  /-- The amount that a part is entered with. -/
  amount : Expr → Rat
  /-- The parts that a group is turned into. -/
  drawn : Expr × Rat → List Expr
  /-- What the numbers among the parts come to. -/
  constant : List Expr → Rat
  /-- What the parts come to. -/
  form : List Expr → Except Error Expr
  /-- What a part is worth: all of it that counts for what the parts come to. -/
  worth : Expr → M
  /-- Each group leaves a part under its own key. -/
  Plain : List Expr → Prop
  /-- The key of a group may be lost. -/
  Loses : Expr → Prop
  kind_ne : kind ≠ .power
  exists_simplify_node_iff : ∀ {es : List Expr}, (∃ n, (node es).simplify guess = .ok n) ↔
    ∀ e ∈ es, ∃ n, e.simplify guess = .ok n
  simplify_node : ∀ {es : List Expr}, (∀ e ∈ es, ∃ n, e.simplify guess = .ok n) →
    (node es).simplify guess = form (parts guess kind es)
  worth_constant : ∀ us vs, worth (.num (constant (us ++ vs))) =
    worth (.num (constant us)) + worth (.num (constant vs))
  drawn_zero : ∀ k, drawn (k, 0) = []
  drawn_add : ∀ {us : List Expr}, Firm guess kind us → ∀ g ∈ entriesBy key amount us,
    ¬ Loses g.1 → ∀ x y, worthAll worth (drawn (g.1, x + y)) =
      worthAll worth (drawn (g.1, x)) + worthAll worth (drawn (g.1, y))
  key_of_mem_drawn : ∀ {us : List Expr}, Firm guess kind us →
    ∀ g ∈ Groups.collect (entriesBy key amount us), ∀ u ∈ drawn g, u.kind ≠ .rational →
      key u = g.1 ∨ g.1.kind = kind ∧ u ∈ g.1.children
  form_congr : ∀ {us vs : List Expr}, Flat guess kind us → Flat guess kind vs →
    worthAll worth us = worthAll worth vs → form us = form vs
  worth_folded_congr : ∀ {us vs : List Expr}, worthAll worth us = worthAll worth vs →
    worthAll worth (foldedBy key amount drawn constant us) =
      worthAll worth (foldedBy key amount drawn constant vs)
  firm_folded : ∀ {us : List Expr}, Firm guess kind us →
    Firm guess kind (foldedBy key amount drawn constant us)
  form_folded : ∀ {us : List Expr}, Firm guess kind us →
    form (foldedBy key amount drawn constant us) = form us
  worth_folded_of_plain : ∀ {us : List Expr}, Flat guess kind us → Plain us →
    worthAll worth (foldedBy key amount drawn constant us) = worthAll worth us
  size_folded_lt : ∀ {us : List Expr}, Firm guess kind us → ¬ Plain us →
    sizeAll (foldedBy key amount drawn constant us) < sizeAll us
  reduced_form : ∀ {us : List Expr} {m : Expr}, Flat guess kind us → form us = .ok m →
    Reduced guess m
  worth_form_of_plain : ∀ {us : List Expr} {m : Expr}, Flat guess kind us → Plain us →
    form us = .ok m → worthAll worth (spliced kind [m]) = worthAll worth us

namespace Folding

variable {M : Type} [AddCommMonoid M] (F : Folding guess M)

/-- The keys of the parts with their amounts. -/
def entries (us : List Expr) : List (Expr × Rat) :=
  entriesBy F.key F.amount us

/-- The parts folded once: the groups, turned into parts, and the number. -/
def folded (us : List Expr) : List Expr :=
  foldedBy F.key F.amount F.drawn F.constant us

/-- No key that may be lost is a key of both. -/
def Apart (us vs : List Expr) : Prop :=
  ∀ k, F.Loses k → KeyIn F.kind F.key us k → ¬ KeyIn F.kind F.key vs k

/-! ### Folding once -/

theorem worth_drawn_zero (k : Expr) : worthAll F.worth (F.drawn (k, 0)) = 0 := by
  rw [F.drawn_zero, worthAll_nil]

theorem worth_folded (us : List Expr) :
    worthAll F.worth (F.folded us) =
      ((Groups.amounts (F.entries us)).sum fun k c => worthAll F.worth (F.drawn (k, c))) +
        F.worth (.num (F.constant us)) := by
  have hgroups := Groups.sum_map_collect (φ := fun k c => worthAll F.worth (F.drawn (k, c)))
    F.worth_drawn_zero (F.entries us)
  rw [folded, foldedBy, worthAll_append, worthAll_flatMap, worthAll_singleton, ← hgroups]
  rfl

/-- Parts that have no key in common that may be lost can be folded on their own. -/
theorem worth_folded_append {us vs : List Expr} (hus : Firm guess F.kind us)
    (h : F.Apart us vs) :
    worthAll F.worth (F.folded (us ++ vs)) = worthAll F.worth (F.folded us ++ F.folded vs) := by
  have hentries : F.entries (us ++ vs) = F.entries us ++ F.entries vs := by
    rw [entries, entriesBy, nonNumbers, List.filter_append, List.map_append]
    rfl
  have hadd : ∀ g ∈ F.entries us, ∀ g' ∈ F.entries vs, g.1 = g'.1 → ∀ x y,
      worthAll F.worth (F.drawn (g.1, x + y)) =
        worthAll F.worth (F.drawn (g.1, x)) + worthAll F.worth (F.drawn (g.1, y)) := by
    intro g hg g' hg' hkey
    refine F.drawn_add hus g hg fun hloses => ?_
    obtain ⟨u, hu, rfl⟩ := List.mem_map.mp hg
    obtain ⟨v, hv, rfl⟩ := List.mem_map.mp hg'
    obtain ⟨hu, hurat⟩ := mem_nonNumbers.mp hu
    obtain ⟨hv, hvrat⟩ := mem_nonNumbers.mp hv
    refine h _ hloses (.own hu hurat) ?_
    rw [hkey]
    exact .own hv hvrat
  have hsum := Groups.sum_amounts_append (φ := fun k c => worthAll F.worth (F.drawn (k, c)))
    F.worth_drawn_zero hadd
  rw [worthAll_append, worth_folded, worth_folded, worth_folded, hentries, hsum, F.worth_constant]
  exact add_add_add_comm _ _ _ _

theorem keyIn_folded {us : List Expr} (hus : Firm guess F.kind us) {k : Expr}
    (h : KeyIn F.kind F.key (F.folded us) k) : KeyIn F.kind F.key us k := by
  refine h.of_parts fun u hu hrat => ?_
  rcases List.mem_append.mp hu with hu | hu
  · obtain ⟨g, hg, hu⟩ := List.mem_flatMap.mp hu
    refine ⟨g.1, ?_, F.key_of_mem_drawn hus g hg u hu hrat⟩
    refine Groups.forall_mem_collect (I := fun k _ => KeyIn F.kind F.key us k)
      (fun _ _ _ h _ => h) ?_ g hg
    intro g hg
    obtain ⟨v, hv, rfl⟩ := List.mem_map.mp hg
    obtain ⟨hv, hvrat⟩ := mem_nonNumbers.mp hv
    exact .own hv hvrat
  · rw [List.mem_singleton.mp hu] at hrat
    exact absurd rfl hrat

theorem Apart.folded {us vs : List Expr} (h : F.Apart us vs) (hus : Firm guess F.kind us)
    (hvs : Firm guess F.kind vs) : F.Apart (F.folded us) (F.folded vs) :=
  fun k hloses hk hk' => h k hloses (F.keyIn_folded hus hk) (F.keyIn_folded hvs hk')

/-! ### Folding any number of times -/

theorem firm_iterate {us : List Expr} (hus : Firm guess F.kind us) (n : ℕ) :
    Firm guess F.kind (F.folded^[n] us) := by
  induction n with
  | zero => exact hus
  | succ n ih =>
    rw [Function.iterate_succ_apply']
    exact F.firm_folded ih

theorem keyIn_iterate {us : List Expr} (hus : Firm guess F.kind us) (n : ℕ) {k : Expr}
    (h : KeyIn F.kind F.key (F.folded^[n] us) k) : KeyIn F.kind F.key us k := by
  induction n with
  | zero => exact h
  | succ n ih =>
    rw [Function.iterate_succ_apply'] at h
    exact ih (F.keyIn_folded (F.firm_iterate hus n) h)

theorem form_iterate {us : List Expr} (hus : Firm guess F.kind us) (n : ℕ) :
    F.form (F.folded^[n] us) = F.form us := by
  induction n with
  | zero => rfl
  | succ n ih =>
    rw [Function.iterate_succ_apply', ← ih]
    exact F.form_folded (F.firm_iterate hus n)

/-- Folding on their own, any number of times, changes nothing for parts that have no key in common
that may be lost. -/
theorem form_append_iterate {us vs : List Expr} (hus : Firm guess F.kind us)
    (hvs : Firm guess F.kind vs) (h : F.Apart us vs) (n : ℕ) :
    F.form (us ++ vs) = F.form (F.folded^[n] us ++ F.folded^[n] vs) := by
  induction n generalizing us vs with
  | zero => rfl
  | succ n ih =>
    have hboth := hus.append hvs
    have hfolded := (F.firm_folded hus).append (F.firm_folded hvs)
    calc F.form (us ++ vs)
        = F.form (F.folded (us ++ vs)) := (F.form_folded hboth).symm
      _ = F.form (F.folded us ++ F.folded vs) :=
          F.form_congr (F.firm_folded hboth).flat hfolded.flat (F.worth_folded_append hus h)
      _ = F.form (F.folded^[n + 1] us ++ F.folded^[n + 1] vs) :=
          ih (F.firm_folded hus) (F.firm_folded hvs) (Apart.folded F h hus hvs)

/-- Parts whose groups leave their keys are not changed by folding. -/
theorem worth_iterate_of_plain {us : List Expr} (hus : Flat guess F.kind us) (h : F.Plain us)
    (n : ℕ) : worthAll F.worth (F.folded^[n] us) = worthAll F.worth us := by
  induction n with
  | zero => rfl
  | succ n ih =>
    rw [Function.iterate_succ_apply']
    exact (F.worth_folded_congr ih).trans (F.worth_folded_of_plain hus h)

/-- Folding comes to an end. -/
theorem exists_plain {us : List Expr} (hus : Firm guess F.kind us) :
    ∃ n, F.Plain (F.folded^[n] us) := by
  induction hsize : sizeAll us using Nat.strong_induction_on generalizing us with
  | _ size ih =>
    by_cases h : F.Plain us
    · exact ⟨0, h⟩
    · have hlt := F.size_folded_lt hus h
      rw [hsize] at hlt
      obtain ⟨n, hn⟩ := ih _ hlt (F.firm_folded hus) rfl
      exact ⟨n + 1, hn⟩

/-! ### Parts in place of a whole -/

theorem flat_spliced {us : List Expr} {m : Expr} (hus : Flat guess F.kind us)
    (hm : F.form us = .ok m) : Flat guess F.kind (spliced F.kind [m]) := by
  have hm := F.reduced_form hus hm
  have hv : ∀ e ∈ [m], Reduced guess (id e) := List.forall_mem_singleton.mpr hm
  rw [← List.map_id [m]]
  exact fun u hu => ⟨reduced_spliced hv u hu, kind_ne_of_mem_spliced F.kind_ne hv u hu⟩

variable {us vs : List Expr} {m : Expr}

/-- Parts whose groups leave their keys may be put in place of what they come to. -/
theorem form_spliced_append_of_plain (hus : Flat guess F.kind us) (hvs : Flat guess F.kind vs)
    (hplain : F.Plain us) (hm : F.form us = .ok m) :
    F.form (spliced F.kind [m] ++ vs) = F.form (us ++ vs) := by
  apply F.form_congr ((F.flat_spliced hus hm).append hvs) (hus.append hvs)
  rw [worthAll_append, worthAll_append, F.worth_form_of_plain hus hplain hm]

/-- Parts that have no key in common with the others that may be lost may be put in place of what
they come to. -/
theorem form_spliced_append_of_apart (hus : Firm guess F.kind us) (hvs : Firm guess F.kind vs)
    (hapart : F.Apart us vs) (hm : F.form us = .ok m) :
    F.form (spliced F.kind [m] ++ vs) = F.form (us ++ vs) := by
  obtain ⟨n, hplain⟩ := F.exists_plain hus
  have hfirm := F.firm_iterate hus n
  have happart : F.Apart (F.folded^[n] us) vs :=
    fun k hloses hk => hapart k hloses (F.keyIn_iterate hus n hk)
  have hm' : F.form (F.folded^[n] us) = .ok m := (F.form_iterate hus n).trans hm
  have hends := F.worth_iterate_of_plain hfirm.flat hplain n
  calc F.form (spliced F.kind [m] ++ vs)
      = F.form (F.folded^[n] us ++ vs) :=
        F.form_spliced_append_of_plain hfirm.flat hvs.flat hplain hm'
    _ = F.form (F.folded^[n] (F.folded^[n] us) ++ F.folded^[n] vs) :=
        F.form_append_iterate hfirm hvs happart n
    _ = F.form (F.folded^[n] us ++ F.folded^[n] vs) := by
        have hvs' := F.firm_iterate hvs n
        apply F.form_congr ((F.firm_iterate hfirm n).append hvs').flat (hfirm.append hvs').flat
        rw [worthAll_append, worthAll_append, hends]
    _ = F.form (us ++ vs) := (F.form_append_iterate hus hvs hapart n).symm

/-- A node among the children of one of its kind may be replaced by its own children if none of
their groups is lost, or if no key that may be lost is one of the other children as well. -/
theorem simplify_node_cons_iff {xs ys : List Expr}
    (h : F.Plain (parts guess F.kind xs) ∨ (∀ u ∈ parts guess F.kind (xs ++ ys), u.OneFree) ∧
      F.Apart (parts guess F.kind xs) (parts guess F.kind ys)) (n : Expr) :
    (F.node (F.node xs :: ys)).simplify guess = .ok n ↔
      (F.node (xs ++ ys)).simplify guess = .ok n := by
  by_cases hforms : ∀ e ∈ xs ++ ys, ∃ n, e.simplify guess = .ok n
  · obtain ⟨hxs, hys⟩ := List.forall_mem_append.mp hforms
    obtain ⟨m, hm⟩ := F.exists_simplify_node_iff.mpr hxs
    have hflat : ∀ {es : List Expr}, (∀ e ∈ es, ∃ n, e.simplify guess = .ok n) →
        Flat guess F.kind (parts guess F.kind es) :=
      fun hes u hu => ⟨reduced_parts hes F.kind u hu, kind_ne_of_mem_parts hes F.kind_ne u hu⟩
    have hform : F.form (parts guess F.kind xs) = .ok m := by rw [← F.simplify_node hxs, hm]
    rw [F.simplify_node (List.forall_mem_cons.mpr ⟨⟨m, hm⟩, hys⟩), F.simplify_node hforms,
      parts_cons F.kind ys hm, parts_append]
    rcases h with hplain | ⟨hone, hapart⟩
    · rw [F.form_spliced_append_of_plain (hflat hxs) (hflat hys) hplain hform]
    · rw [parts_append] at hone
      obtain ⟨honex, honey⟩ := List.forall_mem_append.mp hone
      have hfirm : ∀ {es : List Expr}, (∀ e ∈ es, ∃ n, e.simplify guess = .ok n) →
          (∀ u ∈ parts guess F.kind es, u.OneFree) → Firm guess F.kind (parts guess F.kind es) :=
        fun hes hone u hu => ⟨⟨(hflat hes u hu).1, hone u hu⟩, (hflat hes u hu).2⟩
      rw [F.form_spliced_append_of_apart (hfirm hxs honex) (hfirm hys honey) hapart hform]
  · constructor
    · intro hn
      obtain ⟨hnode, hys⟩ := List.forall_mem_cons.mp (F.exists_simplify_node_iff.mp ⟨n, hn⟩)
      have hxs := F.exists_simplify_node_iff.mp hnode
      exact absurd (List.forall_mem_append.mpr ⟨hxs, hys⟩) hforms
    · intro hn
      exact absurd (F.exists_simplify_node_iff.mp ⟨n, hn⟩) hforms

end Folding

end ExactAlgebra.Canonical
