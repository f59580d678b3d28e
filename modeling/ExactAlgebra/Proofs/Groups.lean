import ExactAlgebra.Canonical.Groups
import Mathlib.Data.List.Nodup
import Mathlib.Data.List.Perm.Basic
import Mathlib.Tactic.SplitIfs

/-!
# Collecting amounts under keys

Entries collected into groups lose nothing: what the entries are worth together the groups are
worth together, if what a key is worth is additive in its amount (`total_collect`). The statement
is for any relation in place of equality and any operation in place of addition, so that it serves
for sums, for products and for bounds.

Entries whose keys are pairwise different are their own groups (`collect_eq_self`). Entries under
other keys have the same groups under the other keys, if keys that differ stay different
(`collect_mapKeys`).
-/

namespace ExactAlgebra.Groups

/-- Entries added to groups, one after the other. -/
def addAll (gs : Groups) (es : List (Expr × Rat)) : Groups :=
  es.foldl (fun gs g => gs.add g.1 g.2) gs

/-- Entries collected into groups. -/
def collect (es : List (Expr × Rat)) : Groups :=
  addAll [] es

theorem addAll_cons (gs : Groups) (g : Expr × Rat) (es : List (Expr × Rat)) :
    addAll gs (g :: es) = addAll (gs.add g.1 g.2) es := rfl

/-! ### Keys -/

theorem nodup_keys_add {gs : Groups} (h : (gs.map Prod.fst).Nodup) (k : Expr) (a : Rat) :
    ((gs.add k a).map Prod.fst).Nodup := by
  rw [keys_add]
  split_ifs with hk
  · exact h
  · exact List.nodup_append.mpr ⟨h, List.nodup_singleton k, by
      rintro b hb c hc rfl
      exact hk (List.mem_singleton.mp hc ▸ hb)⟩

/-- Every group has a key of its own. -/
theorem nodup_keys_collect (es : List (Expr × Rat)) : ((collect es).map Prod.fst).Nodup := by
  have run : ∀ {gs : Groups}, (gs.map Prod.fst).Nodup → ((addAll gs es).map Prod.fst).Nodup := by
    induction es with
    | nil => exact id
    | cons g es ih => exact fun h => ih (nodup_keys_add h g.1 g.2)
  exact run List.nodup_nil

theorem add_of_notMem {gs : Groups} {k : Expr} (a : Rat) (h : k ∉ gs.map Prod.fst) :
    gs.add k a = gs ++ [(k, a)] := by
  induction gs with
  | nil => rfl
  | cons g gs ih =>
    obtain ⟨k', b⟩ := g
    rw [List.map_cons, List.mem_cons, not_or] at h
    rw [add, if_neg (Ne.symm h.1), ih h.2, List.cons_append]

/-- Entries with pairwise different keys are groups as they are. -/
theorem collect_eq_self {es : List (Expr × Rat)} (h : (es.map Prod.fst).Nodup) :
    collect es = es := by
  have run : ∀ {gs : Groups}, ((gs ++ es).map Prod.fst).Nodup → addAll gs es = gs ++ es := by
    clear h
    induction es with
    | nil => exact fun _ => (List.append_nil _).symm
    | cons g es ih =>
      intro gs h
      have hg : g.1 ∉ gs.map Prod.fst := by
        rw [List.map_append, List.map_cons, List.nodup_append] at h
        exact fun hm => h.2.2 _ hm _ List.mem_cons_self rfl
      rw [addAll_cons, add_of_notMem g.2 hg, ih, List.append_assoc]
      · rfl
      · rwa [List.append_assoc]
  exact run h

/-! ### Amounts -/

section

variable {I : Expr → Rat → Prop} (hI : ∀ k x y, I k x → I k y → I k (x + y))

include hI

theorem forall_mem_add {gs : Groups} {k : Expr} {a : Rat} (hgs : ∀ g ∈ gs, I g.1 g.2)
    (ha : I k a) : ∀ g ∈ gs.add k a, I g.1 g.2 := by
  induction gs with
  | nil => exact List.forall_mem_singleton.mpr ha
  | cons g gs ih =>
    obtain ⟨k', x⟩ := g
    obtain ⟨hg, hgs⟩ := List.forall_mem_cons.mp hgs
    rw [add, Rational.add_eq]
    split_ifs with hk
    · subst hk
      exact List.forall_mem_cons.mpr ⟨hI k' x a hg ha, hgs⟩
    · exact List.forall_mem_cons.mpr ⟨hg, ih hgs⟩

/-- What holds of entries and is kept by adding amounts holds of the groups. -/
theorem forall_mem_collect {es : List (Expr × Rat)} (hes : ∀ g ∈ es, I g.1 g.2) :
    ∀ g ∈ collect es, I g.1 g.2 := by
  have run : ∀ {gs : Groups}, (∀ g ∈ gs, I g.1 g.2) → ∀ g ∈ addAll gs es, I g.1 g.2 := by
    induction es with
    | nil => exact id
    | cons g es ih =>
      intro gs h
      obtain ⟨hg, hes⟩ := List.forall_mem_cons.mp hes
      exact ih hes (forall_mem_add hI h hg)
  exact run nofun

end

/-! ### Other keys -/

/-- Entries with other keys, where `f` tells what the other key is. -/
def mapKeys (f : Expr → Expr) (es : List (Expr × Rat)) : List (Expr × Rat) :=
  es.map fun g => (f g.1, g.2)

section

variable {P : Expr → Prop} {f : Expr → Expr} (hf : ∀ {k l}, P k → P l → f k = f l → k = l)

include hf

theorem add_mapKeys {gs : Groups} {k : Expr} (a : Rat) (hgs : ∀ g ∈ gs, P g.1) (hk : P k) :
    add (f k) a (mapKeys f gs) = mapKeys f (gs.add k a) := by
  induction gs with
  | nil => rfl
  | cons g gs ih =>
    obtain ⟨k', b⟩ := g
    obtain ⟨hk', hgs⟩ := List.forall_mem_cons.mp hgs
    have hkeys : f k' = f k ↔ k' = k := ⟨hf hk' hk, congrArg f⟩
    show (if f k' = f k then _ else (f k', b) :: add (f k) a (mapKeys f gs)) = _
    rw [ih hgs]
    simp only [hkeys, add]
    split_ifs <;> rfl

/-- Entries under other keys are collected to the same groups under the other keys, as long as
different keys stay different. -/
theorem collect_mapKeys {es : List (Expr × Rat)} (hes : ∀ g ∈ es, P g.1) :
    collect (mapKeys f es) = mapKeys f (collect es) := by
  have run : ∀ gs : Groups, (∀ g ∈ gs, P g.1) →
      addAll (mapKeys f gs) (mapKeys f es) = mapKeys f (addAll gs es) := by
    induction es with
    | nil => exact fun _ _ => rfl
    | cons g es ih =>
      intro gs hgs
      obtain ⟨hg, hes⟩ := List.forall_mem_cons.mp hes
      have hadd := forall_mem_add (I := fun k _ => P k) (fun _ _ _ h _ => h) (a := g.2) hgs hg
      rw [addAll_cons, ← ih hes _ hadd, ← add_mapKeys hf g.2 hgs hg]
      rfl
  exact run [] nofun

end

/-! ### Totals -/

/-- What some entries are worth together, where `f` is the worth of one and `op` puts two together.
-/
def total {M : Type} (op : M → M → M) (unit : M) (f : Expr × Rat → M)
    (es : List (Expr × Rat)) : M :=
  (es.map f).foldr op unit

section

variable {M : Type} {op : M → M → M} [assoc : Std.Associative op] [Std.Commutative op]

theorem total_perm {es es' : List (Expr × Rat)} (h : es.Perm es') (unit : M) (f : Expr × Rat → M) :
    total op unit f es = total op unit f es' :=
  have : LeftCommutative op := ⟨fun a b c => by
    ac_rfl⟩
  (h.map f).foldr_eq unit

variable {R : M → M → Prop} {I : Expr → Rat → Prop} {f : Expr × Rat → M}
  (refl : ∀ a, R a a) (mono : ∀ c {a b}, R a b → R (op a c) (op b c))
  (mono' : ∀ c {a b}, R a b → R (op c a) (op c b))
  (hI : ∀ k x y, I k x → I k y → I k (x + y))
  (hf : ∀ k x y, I k x → I k y → R (f (k, x + y)) (op (f (k, x)) (f (k, y))))

include refl mono mono' hI hf

omit hI in
private theorem total_add (unit : M) (es : List (Expr × Rat)) {k : Expr} {a : Rat} (ha : I k a)
    {gs : Groups} (hgs : ∀ g ∈ gs, I g.1 g.2) :
    R (total op unit f (gs.add k a ++ es)) (total op unit f (gs ++ (k, a) :: es)) := by
  induction gs with
  | nil => exact refl _
  | cons g gs ih =>
    obtain ⟨k', x⟩ := g
    obtain ⟨hg, hgs⟩ := List.forall_mem_cons.mp hgs
    rw [add, Rational.add_eq]
    split_ifs with hk
    · subst hk
      have hperm : ((k', x) :: gs ++ (k', a) :: es).Perm ((k', x) :: (k', a) :: (gs ++ es)) :=
        List.perm_middle.cons (k', x)
      rw [total_perm hperm]
      show R (op (f (k', x + a)) _) (op (f (k', x)) (op (f (k', a)) _))
      rw [← assoc.assoc]
      exact mono _ (hf k' x a hg ha)
    · exact mono' _ (ih hgs)

/-- What the groups are worth is related to what the entries are worth, if an addition of amounts
under a key is. -/
theorem total_collect (trans : ∀ {a b c}, R a b → R b c → R a c) (unit : M)
    {es : List (Expr × Rat)} (hes : ∀ g ∈ es, I g.1 g.2) :
    R (total op unit f (collect es)) (total op unit f es) := by
  have run : ∀ {gs : Groups}, (∀ g ∈ gs, I g.1 g.2) →
      R (total op unit f (addAll gs es)) (total op unit f (gs ++ es)) := by
    induction es with
    | nil =>
      intro gs h
      rw [List.append_nil]
      exact refl _
    | cons g es ih =>
      intro gs h
      obtain ⟨hg, hes⟩ := List.forall_mem_cons.mp hes
      exact trans (ih hes (forall_mem_add hI h hg))
        (total_add refl mono mono' hf unit es hg h)
  exact run nofun

end

section

variable {I : Expr → Rat → Prop} (hI : ∀ k x y, I k x → I k y → I k (x + y))

include hI

/-- The groups are worth what the entries are worth, if a key is worth the sum of its amounts. -/
theorem total_collect_eq {M : Type} {op : M → M → M} [Std.Associative op] [Std.Commutative op]
    {f : Expr × Rat → M} (hf : ∀ k x y, I k x → I k y → f (k, x + y) = op (f (k, x)) (f (k, y)))
    (unit : M) {es : List (Expr × Rat)} (hes : ∀ g ∈ es, I g.1 g.2) :
    total op unit f (collect es) = total op unit f es := by
  refine total_collect (R := Eq) (fun _ => rfl) ?_ ?_ hI hf Eq.trans unit hes
  · intro c a b h
    rw [h]
  · intro c a b h
    rw [h]

/-- The groups take no more than the entries, if a key takes no more for the sum of its amounts. -/
theorem total_collect_le {f : Expr × Rat → ℕ}
    (hf : ∀ k x y, I k x → I k y → f (k, x + y) ≤ f (k, x) + f (k, y))
    {es : List (Expr × Rat)} (hes : ∀ g ∈ es, I g.1 g.2) :
    total (· + ·) 0 f (collect es) ≤ total (· + ·) 0 f es := by
  refine total_collect Nat.le_refl ?_ ?_ hI hf Nat.le_trans 0 hes
  · intro c a b h
    exact Nat.add_le_add_right h c
  · intro c a b h
    exact Nat.add_le_add_left h c

end

end ExactAlgebra.Groups
