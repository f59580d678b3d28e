import ExactAlgebra.Proofs.Canonical.Bounds

/-!
# Results are no larger

The pass never adds to the size of an expression, and it takes off a node for every power of
exponent one: what is left has at most as many nodes as the core of the expression, which does not
count these (`size_of_yields`).

A new coefficient or exponent is paid for by the terms or factors that were put together under it
(`likeSize_add_le`, `factorSize_add_le`). A sum whose terms are unwrapped loses a node
(`size_collectedTerms`), and so does a product with a power of a group that is a product
(`size_gathered`).
-/

namespace ExactAlgebra

namespace Expr

/-! ### The core of an expression -/

mutual

/-- The number of nodes that are neither numbers nor powers of exponent one. -/
def core : Expr → Nat
  | num _ => 0
  | sym _ => 1
  | pow b p => b.core + if p = 1 then 0 else 1
  | prod fs => coreAll fs + 1
  | sum ts => coreAll ts + 1

/-- The cores of all expressions of a list, added up. -/
def coreAll : List Expr → Nat
  | [] => 0
  | e :: es => e.core + coreAll es

end

theorem coreAll_eq (es : List Expr) : coreAll es = (es.map core).sum := by
  induction es with
  | nil => rfl
  | cons e es ih => simp [coreAll, ih]

theorem sizeAll_eq (es : List Expr) : sizeAll es = (es.map size).sum := by
  induction es with
  | nil => rfl
  | cons e es ih => simp [ih]

theorem sizeAll_flatMap {α : Type} (f : α → List Expr) (xs : List α) :
    sizeAll (xs.flatMap f) = (xs.map fun x => sizeAll (f x)).sum := by
  induction xs with
  | nil => rfl
  | cons x xs ih => rw [List.flatMap_cons, sizeAll_append, ih, List.map_cons, List.sum_cons]

/-- The factors of a product take a node less than the product. -/
theorem sizeAll_factors_add_le (e : Expr) :
    sizeAll e.factors + (decide (e.kind = .product)).toNat ≤ e.size := by
  cases e <;> simp [factors, kind]

/-- No power in the expression has the exponent one. -/
def OneFree (e : Expr) : Prop :=
  e.Everywhere fun d => ∀ b, d ≠ pow b 1

theorem core_le_size (e : Expr) : e.core ≤ e.size := by
  induction e with
  | num | sym => simp [core]
  | pow b p ih =>
    rw [core, size_pow]
    split_ifs <;> omega
  | prod es ih | sum es ih =>
    have := List.sum_le_sum ih
    simp only [core, size_prod, size_sum, coreAll_eq, sizeAll_eq]
    omega

theorem sizeAll_le_coreAll_iff {es : List Expr} :
    sizeAll es ≤ coreAll es ↔ ∀ e ∈ es, e.size ≤ e.core := by
  rw [coreAll_eq, sizeAll_eq]
  constructor
  · intro h e he
    by_contra hlt
    have := List.sum_lt_sum core size (fun e _ => core_le_size e) ⟨e, he, not_le.mp hlt⟩
    omega
  · exact List.sum_le_sum

/-- An expression is all core exactly if it has no power of exponent one. -/
theorem oneFree_num (q : Rat) : (num q).OneFree := by
  intro b h
  cases h

theorem OneFree.pow {b : Expr} {p : Rat} (hb : b.OneFree) (hp : p ≠ 1) : (pow b p).OneFree := by
  refine ⟨?_, hb⟩
  intro c hc
  exact hp (Expr.pow.inj hc).2

theorem size_le_core_iff {e : Expr} : e.size ≤ e.core ↔ e.OneFree := by
  induction e with
  | num | sym => simp [core, OneFree]
  | pow b p ih =>
    have := core_le_size b
    rw [core, size_pow, OneFree, everywhere_pow]
    by_cases hp : p = 1
    · simp only [if_pos hp]
      constructor
      · intro h
        omega
      · rintro ⟨h, -⟩
        exact absurd (by rw [hp]) (h b)
    · rw [if_neg hp, Nat.add_le_add_iff_right]
      refine ih.trans ⟨fun h => ⟨?_, h⟩, fun h => h.2⟩
      rintro c ⟨⟩
      exact hp rfl
  | prod es ih | sum es ih =>
    have hes : (∀ e ∈ es, e.size ≤ e.core) ↔ ∀ e ∈ es, e.OneFree :=
      forall₂_congr ih
    simp only [core, size_prod, size_sum, OneFree, everywhere_prod, everywhere_sum]
    rw [Nat.add_le_add_iff_right, sizeAll_le_coreAll_iff, hes]
    exact ⟨fun h => ⟨by simp, h⟩, fun h => h.2⟩

end Expr

namespace Canonical

open ExactAlgebra.Expr

variable {guess : RootGuess}

/-! ### Powers -/

/-- A power takes one node more than its base, unless its exponent is one. -/
theorem size_of_power {b n : Expr} {p : Rat} (h : power guess b p = .ok n) :
    n.size ≤ b.size + if p = 1 then 0 else 1 :=
  le_of_power (fun _ _ => rfl) size_pow h

/-! ### Splicing -/

theorem sizeAll_spliced_le (kind : Kind) (us : List Expr) :
    sizeAll (spliced kind us) ≤ sizeAll us := by
  induction us with
  | nil => exact le_rfl
  | cons u us ih =>
    rw [spliced, List.flatMap_cons, sizeAll_append, sizeAll_cons]
    refine Nat.add_le_add ?_ ih
    split_ifs
    · cases u <;> simp [children]
    · simp

/-! ### Terms -/

theorem sizeAll_append_besides (us : List Expr) (c neutral : Rat) :
    sizeAll (us ++ besides c neutral) = sizeAll us := by
  rw [sizeAll_append, besides]
  split_ifs <;> rfl

theorem toNat_or_le (a b : Bool) : (a || b).toNat ≤ a.toNat + b.toNat := by
  cases a <;> cases b <;> decide

/-- The size of the terms that a group of like terms comes down to, before any are unwrapped. -/
def likeSize : Expr × Rat → Nat
  | (k, c) => if c = 0 then 0 else (withCoefficient c k).size

theorem size_withCoefficient_le (c : Rat) (k : Expr) : (withCoefficient c k).size ≤ k.size + 1 := by
  rw [withCoefficient]
  split_ifs
  · omega
  · rw [size_ofFactors, sizeAll_cons, size_num]
    cases k <;> simp [factors]

theorem le_size_withCoefficient (c : Rat) (k : Expr) : k.size ≤ (withCoefficient c k).size := by
  rw [withCoefficient]
  split_ifs
  · exact le_rfl
  · rw [size_ofFactors, sizeAll_cons, size_num]
    cases k <;> simp [factors]

/-- Like terms that are put together pay for the coefficient. -/
theorem likeSize_add_le (k : Expr) (x y : Rat) (hk : 1 ≤ k.size) :
    likeSize (k, x + y) ≤ likeSize (k, x) + likeSize (k, y) :=
  paid_add_le hk (fun c => le_size_withCoefficient c k) (fun c => size_withCoefficient_le c k) x y

theorem size_likeTermsOf (g : Expr × Rat) :
    sizeAll (likeTermsOf g) + (isUnwrapped g).toNat ≤ likeSize g := by
  cases hg : isUnwrapped g with
  | true =>
    obtain ⟨k, c⟩ := g
    obtain ⟨hsum, rfl⟩ := isUnwrapped_iff.mp hg
    rw [likeTermsOf_of_unwrapped hg, likeSize, if_neg one_ne_zero, withCoefficient, if_pos rfl]
    cases k with
    | sum ts => exact le_rfl
    | num | sym | pow | prod => cases hsum
  | false =>
    rw [likeTermsOf_of_plain hg, likeSize]
    split_ifs <;> simp

theorem size_flatMap_likeTermsOf (gs : Groups) :
    sizeAll (gs.flatMap likeTermsOf) + (gs.any isUnwrapped).toNat ≤
      Groups.total (· + ·) 0 likeSize gs := by
  induction gs with
  | nil => exact le_rfl
  | cons g gs ih =>
    have hg := size_likeTermsOf g
    have hany := toNat_or_le (isUnwrapped g) (gs.any isUnwrapped)
    rw [List.flatMap_cons, sizeAll_append, List.any_cons]
    show _ ≤ likeSize g + Groups.total (· + ·) 0 likeSize gs
    omega

/-- The entry of a reduced term takes what the term takes. -/
theorem likeSize_entry {u : Expr} (h : Reduced guess u) (hrat : u.kind ≠ .rational) :
    likeSize (u.stem, u.coefficient) = u.size := by
  obtain ⟨-, h0, hterm⟩ := h.stem_spec hrat
  rw [likeSize, if_neg h0, hterm]

/-- Collecting terms adds nothing to their size, and unwrapping takes off a node. -/
theorem size_collectedTerms {us : List Expr} (h : ∀ u ∈ us, Reduced guess u) :
    sizeAll (collectedTerms us) + (unwraps us).toNat ≤ sizeAll us := by
  have hcollect : Groups.total (· + ·) 0 likeSize (Groups.collect (termEntries us)) ≤
      ((nonNumbers us).map size).sum := by
    refine total_collect_termEntries_le (P := fun k => 1 ≤ k.size) likeSize_add_le ?_
    intro u hu hrat
    have hstem := ((h u hu).stem_spec hrat).1.ne_number
    exact ⟨Nat.pos_of_ne_zero fun h0 => hstem (size_eq_zero_iff.mp h0),
      (likeSize_entry (h u hu) hrat).le⟩
  have := size_flatMap_likeTermsOf (Groups.collect (termEntries us))
  rw [← sizeAll_eq, sizeAll_nonNumbers] at hcollect
  rw [collectedTerms, sizeAll_append_besides, unwraps]
  omega

/-! ### Factors -/

/-- The most that the power of a group of like factors takes. -/
def factorSize : Expr × Rat → Nat
  | (b, p) => if p = 0 then 0 else max 1 (b.size + if p = 1 then 0 else 1)

theorem factorSize_le (b : Expr) (p : Rat) : factorSize (b, p) ≤ b.size + 1 := by
  rw [factorSize]
  split_ifs <;> omega

/-- Like factors that are put together pay for the exponent. -/
theorem factorSize_add_le (b : Expr) (x y : Rat) :
    factorSize (b, x + y) ≤ factorSize (b, x) + factorSize (b, y) := by
  have hlow : ∀ p : Rat, max 1 b.size ≤ max 1 (b.size + if p = 1 then 0 else 1) :=
    fun _ => max_le_max le_rfl (Nat.le_add_right _ _)
  have hhigh : ∀ p : Rat, max 1 (b.size + if p = 1 then 0 else 1) ≤ max 1 b.size + 1 := by
    intro p
    split_ifs <;> omega
  exact paid_add_le (le_max_left 1 b.size) hlow hhigh x y

theorem factorSize_entry_le {u : Expr} (hu : u.kind ≠ .rational) :
    factorSize (u.base, u.exponent) ≤ u.size := by
  have hpos : 1 ≤ u.size := Nat.pos_of_ne_zero fun h0 => hu (size_eq_zero_iff.mp h0)
  cases u with
  | num => exact absurd rfl hu
  | pow b p => exact factorSize_le b p
  | sym | prod | sum =>
    simp only [factorSize, exponent, if_neg one_ne_zero]
    exact max_le hpos le_rfl

/-- The groups of some factors take no more than the factors. -/
theorem sum_factorSize_le (us : List Expr) :
    ((live (factorGroups us [])).map factorSize).sum ≤ sizeAll us := by
  rw [← sizeAll_nonNumbers, sizeAll_eq]
  exact sum_live_factorGroups_le (P := fun _ => True) (fun b x y _ => factorSize_add_le b x y)
    fun u _ hrat => ⟨trivial, factorSize_entry_le hrat⟩

theorem size_remaining (p : Expr) :
    sizeAll (remaining p) + (decide (p.kind = .product)).toNat ≤ p.size := by
  cases p <;> simp [remaining, kind, factors]

/-- Splicing the factors of a power into a product takes off a node. -/
theorem size_factors_powersOf (w : Expr × Rat → Expr) (gs : Groups) :
    sizeAll (powersOf w gs).factors + (powersOf w gs).fromProduct.toNat ≤
      ((live gs).map fun g => (w g).size).sum := by
  rw [factors_powersOf, fromProduct_powersOf]
  induction live gs with
  | nil => exact le_rfl
  | cons g gs ih =>
    have hg := size_remaining (w g)
    have hany := toNat_or_le ((w g).kind = .product) (gs.any fun g => (w g).kind = .product)
    rw [List.flatMap_cons, sizeAll_append, List.any_cons, List.map_cons, List.sum_cons]
    omega

/-- Gathering factors adds nothing to their size, if no power takes more than it may. -/
theorem size_gathered {w : Expr × Rat → Expr} {us : List Expr}
    (hw : ∀ g ∈ live (factorGroups us []), (w g).size ≤ factorSize g) :
    sizeAll (gathered w us).factors + (gathered w us).fromProduct.toNat ≤ sizeAll us :=
  (size_factors_powersOf w _).trans ((List.sum_le_sum hw).trans (sum_factorSize_le us))

theorem core_pow_le {b : Expr} {p : Rat} (hp : p ≠ 0) :
    (Expr.pow b p).core ≤ factorSize (b, p) := by
  have := core_le_size b
  rw [core, factorSize, if_neg hp]
  omega

/-! ### Every result -/

theorem sizeAll_le_coreAll {es : List Expr} {v : Expr → Expr} (h : ∀ e ∈ es, (v e).size ≤ e.core) :
    sizeAll (es.map v) ≤ coreAll es := by
  rw [sizeAll_eq, coreAll_eq, List.map_map]
  exact List.sum_le_sum h

/-- The terms of a sum take no more when they are collected. -/
theorem size_of_collected {ts terms : List Expr} {v : Expr → Expr} {unwrapped : Bool}
    (hv : ∀ t ∈ ts, Reduced guess (v t)) (hsize : ∀ t ∈ ts, (v t).size ≤ t.core)
    (hterms : collected (spliced .sum (ts.map v)) = .ok (terms, unwrapped)) :
    sizeAll terms + unwrapped.toNat ≤ coreAll ts := by
  obtain ⟨rfl, rfl⟩ := eq_of_collected (reduced_spliced hv) hterms
  exact (size_collectedTerms (reduced_spliced hv)).trans
    ((sizeAll_spliced_le _ _).trans (sizeAll_le_coreAll hsize))

/-- The factors of a product take no more when they are gathered. -/
theorem size_of_gathered {fs : List Expr} {v : Expr → Expr} {w : Expr × Rat → Expr}
    (hsize : ∀ f ∈ fs, (v f).size ≤ f.core)
    (hw : ∀ g ∈ live (factorGroups (spliced .product (fs.map v)) []),
      (w g).size ≤ (Expr.pow g.1 g.2).core) :
    sizeAll (gathered w (spliced .product (fs.map v))).factors +
        (gathered w (spliced .product (fs.map v))).fromProduct.toNat ≤ coreAll fs :=
  (size_gathered fun g hg => (hw g hg).trans (core_pow_le (ne_zero_of_mem_live hg))).trans
    ((sizeAll_spliced_le _ _).trans (sizeAll_le_coreAll hsize))

/-- A result has at most as many nodes as there are in the core of the expression. -/
theorem size_of_yields {e n : Expr} (h : Yields guess e n) : n.size ≤ e.core := by
  induction h with
  | num q => exact le_rfl
  | sym x => exact le_rfl
  | @pow b b' n p _ hn ih =>
    have := size_of_power hn
    rw [core]
    omega
  | @sum ts terms n v hv hterms hn ih =>
    have hsize := size_of_collected (fun t ht => reduced_of_yields (hv t ht)) ih hterms
    rw [core]
    rcases total_eq_ok hn with ⟨-, rfl⟩ | rfl | ⟨-, rfl⟩
    · exact Nat.zero_le _
    · rw [sizeAll_cons, sizeAll_nil] at hsize
      omega
    · rw [size_ofTerms]
      omega
  | @sumAgain ts terms d n v hv hterms hd _ ih ihd =>
    have hsize := size_of_collected (fun t ht => reduced_of_yields (hv t ht)) ih hterms
    obtain ⟨-, rfl⟩ := sumOf_eq_ok_iff.mp hd
    have := core_le_size (ofTerms terms)
    rw [size_ofTerms] at this
    rw [core]
    omega
  | prodZero => exact Nat.zero_le _
  | @prod fs ps n v w _ _ hps _ _ hn ih ihw =>
    have hsize := size_of_gathered ih ihw
    rw [← hps, ← sizeAll_append_besides ps.factors ps.constant 1] at hsize
    rw [core]
    rcases productOr_eq_ok hn with ⟨-, rfl⟩ | hone | ⟨-, rfl⟩
    · exact Nat.zero_le _
    · rw [hone, sizeAll_cons, sizeAll_nil] at hsize
      omega
    · rw [size_ofFactors]
      omega
  | @prodAgain fs ps d n v w _ _ hps _ _ hd _ ih ihw ihd =>
    have hsize := size_of_gathered ih ihw
    obtain ⟨-, rfl⟩ := prodOf_eq_ok_iff.mp hd
    have := core_le_size (ofFactors (ps.factors ++ [.num ps.constant]))
    rw [size_ofFactors, sizeAll_append, sizeAll_cons, sizeAll_nil, size_num] at this
    rw [← hps] at hsize
    rw [core]
    omega

/-- The children of a node take no more when they are reduced and spliced. -/
theorem sizeAll_spliced_le_of_yields {kind : Kind} {es : List Expr} {v : Expr → Expr}
    (hv : ∀ e ∈ es, Yields guess e (v e)) : sizeAll (spliced kind (es.map v)) ≤ sizeAll es := by
  refine (sizeAll_spliced_le kind _).trans ?_
  rw [sizeAll_eq, sizeAll_eq, List.map_map]
  exact List.sum_le_sum fun e he => (size_of_yields (hv e he)).trans (core_le_size e)

end Canonical

end ExactAlgebra
