import ExactAlgebra.Proofs.Canonical.Rules
import ExactAlgebra.Proofs.Groups
import ExactAlgebra.Proofs.Nodes

/-!
# How terms and factors are gathered

The terms of a sum are entered by what is left of them without their coefficients, their stems; the
factors of a product by their bases. `collected_of_wellFormed` and `factorGroups_eq` put the
gathering of both in terms of the groups of such entries; on well-formed terms nothing in it fails.
-/

namespace ExactAlgebra

namespace Expr

/-! ### Numbers and others -/

/-- The expressions of a list that are no numbers. -/
def nonNumbers (us : List Expr) : List Expr :=
  us.filter fun u => u.kind ≠ .rational

/-- The expressions of a list that are numbers. -/
def numbers (us : List Expr) : List Expr :=
  us.filter fun u => u.kind = .rational

theorem kind_eq_rational_iff {u : Expr} : u.kind = .rational ↔ ∃ q, u = num q := by
  cases u <;> simp [kind]

theorem mem_nonNumbers {u : Expr} {us : List Expr} :
    u ∈ nonNumbers us ↔ u ∈ us ∧ u.kind ≠ .rational := by
  simp [nonNumbers]

@[simp] theorem nonNumbers_num_cons (q : Rat) (us : List Expr) :
    nonNumbers (num q :: us) = nonNumbers us := rfl

theorem nonNumbers_cons_of_ne {u : Expr} (us : List Expr) (h : u.kind ≠ .rational) :
    nonNumbers (u :: us) = u :: nonNumbers us :=
  List.filter_cons_of_pos (by simpa using h)

theorem nonNumbers_eq_self {us : List Expr} (h : ∀ u ∈ us, u.kind ≠ .rational) :
    nonNumbers us = us :=
  List.filter_eq_self.mpr fun u hu => by simpa using h u hu

theorem numbers_eq_nil {us : List Expr} (h : ∀ u ∈ us, u.kind ≠ .rational) : numbers us = [] :=
  List.filter_eq_nil_iff.mpr fun u hu => by simpa using h u hu

theorem sizeAll_nonNumbers (us : List Expr) : sizeAll (nonNumbers us) = sizeAll us := by
  induction us with
  | nil => rfl
  | cons u us ih =>
    by_cases h : u.kind = .rational
    · obtain ⟨q, rfl⟩ := kind_eq_rational_iff.mp h
      rw [nonNumbers_num_cons, ih, sizeAll_cons, size_num, Nat.zero_add]
    · rw [nonNumbers_cons_of_ne us h, sizeAll_cons, sizeAll_cons, ih]

/-- The numbers and the others make up the list. -/
theorem nonNumbers_append_numbers_perm (us : List Expr) :
    (nonNumbers us ++ numbers us).Perm us := by
  have h := List.filter_append_perm (fun u : Expr => decide (u.kind ≠ .rational)) us
  simpa [nonNumbers, numbers] using h

/-! ### Stems -/

/-- What is left of a term without its coefficient. -/
def stem : Expr → Expr
  | prod [num _, u] => u
  | prod (num _ :: us) => ofFactors us
  | u => u

/-- A stem with a coefficient: the term that it is the stem of. -/
def withCoefficient (c : Rat) (k : Expr) : Expr :=
  if c = 1 then k else ofFactors (num c :: k.factors)

private theorem two_le_length {us : List Expr} (h : 2 ≤ us.length + 1)
    (hne : ∀ u, us = [u] → False) : 2 ≤ us.length := by
  rcases us with _ | ⟨a, _ | ⟨b, us⟩⟩
  · simp at h
  · exact absurd rfl (hne a)
  · simp

/-- The key of a term is its stem. -/
theorem key_of_wellFormed {u : Expr} (h : u.WellFormed) : u.key = .ok u.stem := by
  unfold key
  split
  · rfl
  · rename_i us hne
    rw [stem, prodOf_eq_ok_iff]
    · exact ⟨two_le_length h.1 hne, rfl⟩
    · exact hne
  · rename_i hne₁ hne₂
    rw [stem]
    · exact hne₁
    · exact hne₂

theorem wellFormed_stem {u : Expr} (h : u.WellFormed) : u.stem.WellFormed := by
  unfold stem
  split
  · exact allWellFormed_iff.mp h.2.2 _ (by simp)
  · rename_i us hne
    refine wellFormed_ofFactors (fun f hf => ?_) (two_le_length h.1 hne)
    exact allWellFormed_iff.mp h.2.2 f (List.mem_cons_of_mem _ hf)
  · exact h

theorem wellFormed_base {u : Expr} (h : u.WellFormed) : u.base.WellFormed := by
  cases u <;> exact h

theorem factors_eq_singleton {u : Expr} (h : u.kind ≠ .product) : u.factors = [u] := by
  cases u with
  | prod => exact absurd rfl h
  | num | sym | pow | sum => rfl

/-- Anything but a power is its own base. -/
theorem base_of_ne_power {u : Expr} (h : u.kind ≠ .power) : u.base = u ∧ u.exponent = 1 := by
  cases u with
  | pow => exact absurd rfl h
  | num | sym | prod | sum => exact ⟨rfl, rfl⟩

theorem factors_ne_nil {k : Expr} (h : k.WellFormed) : k.factors ≠ [] := by
  cases k with
  | prod fs =>
    rintro rfl
    exact absurd h.1 (by simp)
  | num | sym | pow | sum => exact List.cons_ne_nil _ _

/-! ### Putting together -/

theorem total_of_two_le {ts : List Expr} (h : 2 ≤ ts.length) : total ts = .ok (ofTerms ts) := by
  rcases ts with _ | ⟨a, _ | ⟨b, ts⟩⟩
  · simp at h
  · simp at h
  · exact sumOf_eq_ok_iff.mpr ⟨h, rfl⟩

theorem productOr_of_two_le (empty : Expr) {fs : List Expr} (h : 2 ≤ fs.length) :
    productOr empty fs = .ok (ofFactors fs) := by
  rcases fs with _ | ⟨a, _ | ⟨b, fs⟩⟩
  · simp at h
  · simp at h
  · exact prodOf_eq_ok_iff.mpr ⟨h, rfl⟩

theorem total_eq_ok {ts : List Expr} {n : Expr} (h : total ts = .ok n) :
    (ts = [] ∧ n = num 0) ∨ ts = [n] ∨ (2 ≤ ts.length ∧ n = ofTerms ts) := by
  rcases ts with _ | ⟨a, _ | ⟨b, ts⟩⟩
  · exact Or.inl ⟨rfl, (Except.ok.inj h).symm⟩
  · rw [Except.ok.inj h]
    exact Or.inr (Or.inl rfl)
  · exact Or.inr (Or.inr (sumOf_eq_ok_iff.mp h))

theorem productOr_eq_ok {empty : Expr} {fs : List Expr} {n : Expr}
    (h : productOr empty fs = .ok n) :
    (fs = [] ∧ n = empty) ∨ fs = [n] ∨ (2 ≤ fs.length ∧ n = ofFactors fs) := by
  rcases fs with _ | ⟨a, _ | ⟨b, fs⟩⟩
  · exact Or.inl ⟨rfl, (Except.ok.inj h).symm⟩
  · rw [Except.ok.inj h]
    exact Or.inr (Or.inl rfl)
  · exact Or.inr (Or.inr (prodOf_eq_ok_iff.mp h))

/-- What is true of the terms and of sums of them is true of their total. -/
theorem of_total {P : Expr → Prop} {ts : List Expr} {n : Expr} (h : total ts = .ok n)
    (zero : ts = [] → P (num 0)) (hts : ∀ t ∈ ts, P t) (many : 2 ≤ ts.length → P (ofTerms ts)) :
    P n := by
  rcases total_eq_ok h with ⟨hnil, rfl⟩ | rfl | ⟨hlen, rfl⟩
  · exact zero hnil
  · exact hts n (List.mem_singleton_self n)
  · exact many hlen

/-- What is true of the factors and of products of them is true of what they multiply to. -/
theorem of_productOr {P : Expr → Prop} {empty : Expr} {fs : List Expr} {n : Expr}
    (h : productOr empty fs = .ok n) (none : fs = [] → P empty) (hfs : ∀ f ∈ fs, P f)
    (many : 2 ≤ fs.length → P (ofFactors fs)) : P n := by
  rcases productOr_eq_ok h with ⟨hnil, rfl⟩ | rfl | ⟨hlen, rfl⟩
  · exact none hnil
  · exact hfs n (List.mem_singleton_self n)
  · exact many hlen

theorem total_eq_of_perm {ts us : List Expr} (h : ts.Perm us) : total ts = total us := by
  rcases ts with _ | ⟨a, _ | ⟨b, ts⟩⟩
  · rw [List.nil_perm.mp h]
  · rw [List.singleton_perm.mp h]
  · have hlen : 2 ≤ (a :: b :: ts).length := by simp
    rw [total_of_two_le hlen, total_of_two_le (h.length_eq ▸ hlen), ofTerms, sort_eq_of_perm h,
      ofTerms]

theorem productOr_factors (empty : Expr) {u : Expr} (h : u.WellFormed) :
    productOr empty u.factors = .ok u := by
  cases u with
  | prod fs => rw [factors, productOr_of_two_le empty h.1, ofFactors, sort_eq_self h.2.1]
  | num | sym | pow | sum => rfl

theorem productOr_eq_of_perm (empty : Expr) {fs gs : List Expr} (h : fs.Perm gs) :
    productOr empty fs = productOr empty gs := by
  rcases fs with _ | ⟨a, _ | ⟨b, fs⟩⟩
  · rw [List.nil_perm.mp h]
  · rw [List.singleton_perm.mp h]
  · have hlen : 2 ≤ (a :: b :: fs).length := by simp
    rw [productOr_of_two_le empty hlen, productOr_of_two_le empty (h.length_eq ▸ hlen), ofFactors,
      sort_eq_of_perm h, ofFactors]

theorem total_ne_error {ts : List Expr} {err : Error} : total ts ≠ .error err := by
  rcases ts with _ | ⟨a, _ | ⟨b, ts⟩⟩
  · exact nofun
  · exact nofun
  · rw [total_of_two_le (by simp)]
    exact nofun

theorem productOr_ne_error {empty : Expr} {fs : List Expr} {err : Error} :
    productOr empty fs ≠ .error err := by
  rcases fs with _ | ⟨a, _ | ⟨b, fs⟩⟩
  · exact nofun
  · exact nofun
  · rw [productOr_of_two_le _ (by simp)]
    exact nofun

end Expr

namespace Canonical

open ExactAlgebra.Expr

/-! ### Entries -/

/-- The terms that are no numbers, as coefficients under stems. -/
def termEntries (us : List Expr) : List (Expr × Rat) :=
  (nonNumbers us).map fun u => (u.stem, u.coefficient)

/-- The factors that are no numbers, as exponents under bases. -/
def factorEntries (us : List Expr) : List (Expr × Rat) :=
  (nonNumbers us).map fun u => (u.base, u.exponent)

theorem termEntries_cons_of_ne {u : Expr} (us : List Expr) (h : u.kind ≠ .rational) :
    termEntries (u :: us) = (u.stem, u.coefficient) :: termEntries us := by
  rw [termEntries, nonNumbers_cons_of_ne us h, List.map_cons, termEntries]

theorem factorEntries_cons_of_ne {u : Expr} (us : List Expr) (h : u.kind ≠ .rational) :
    factorEntries (u :: us) = (u.base, u.exponent) :: factorEntries us := by
  rw [factorEntries, nonNumbers_cons_of_ne us h, List.map_cons, factorEntries]

theorem forall_mem_termEntries {P : Expr × Rat → Prop} {us : List Expr}
    (h : ∀ u ∈ us, u.kind ≠ .rational → P (u.stem, u.coefficient)) : ∀ g ∈ termEntries us, P g := by
  intro g hg
  obtain ⟨u, hu, rfl⟩ := List.mem_map.mp hg
  obtain ⟨hu, hrat⟩ := mem_nonNumbers.mp hu
  exact h u hu hrat

theorem forall_mem_factorEntries {P : Expr × Rat → Prop} {us : List Expr}
    (h : ∀ u ∈ us, u.kind ≠ .rational → P (u.base, u.exponent)) : ∀ g ∈ factorEntries us, P g := by
  intro g hg
  obtain ⟨u, hu, rfl⟩ := List.mem_map.mp hg
  obtain ⟨hu, hrat⟩ := mem_nonNumbers.mp hu
  exact h u hu hrat

theorem factorGroups_eq (us : List Expr) :
    factorGroups us [] = Groups.collect (factorEntries us) := by
  have run : ∀ gs, factorGroups us gs = Groups.addAll gs (factorEntries us) := by
    induction us with
    | nil => exact fun _ => rfl
    | cons u us ih =>
      intro gs
      cases u with
      | num q => exact ih gs
      | sym | pow | prod | sum => exact ih _
  exact run []

theorem constantTerm_num_cons (q : Rat) (us : List Expr) :
    constantTerm (.num q :: us) = q + constantTerm us :=
  Rational.add_eq q _

theorem constantFactor_num_cons (q : Rat) (us : List Expr) :
    constantFactor (.num q :: us) = q * constantFactor us :=
  Rational.multiply_eq q _

theorem constantFactor_singleton (q : Rat) : constantFactor [.num q] = q := by
  rw [constantFactor_num_cons, constantFactor, Rat.mul_one]

theorem constantTerm_cons_of_ne {u : Expr} (us : List Expr) (h : u.kind ≠ .rational) :
    constantTerm (u :: us) = constantTerm us := by
  cases u with
  | num => exact absurd rfl h
  | sym | pow | prod | sum => rfl

theorem constantFactor_cons_of_ne {u : Expr} (us : List Expr) (h : u.kind ≠ .rational) :
    constantFactor (u :: us) = constantFactor us := by
  cases u with
  | num => exact absurd rfl h
  | sym | pow | prod | sum => rfl

private theorem termGroups_cons {u : Expr} (us : List Expr) (gs : Groups) (h : u.kind ≠ .rational) :
    termGroups (u :: us) gs = u.key >>= fun k => termGroups us (gs.add k u.coefficient) := by
  cases u with
  | num q => exact absurd rfl h
  | sym | pow | prod | sum => rfl

theorem termGroups_of_wellFormed {us : List Expr} (h : ∀ u ∈ us, u.WellFormed) :
    termGroups us [] = .ok (Groups.collect (termEntries us)) := by
  have run : ∀ gs, termGroups us gs = .ok (Groups.addAll gs (termEntries us)) := by
    induction us with
    | nil => exact fun _ => rfl
    | cons u us ih =>
      intro gs
      obtain ⟨hu, hus⟩ := List.forall_mem_cons.mp h
      by_cases hn : u.kind = .rational
      · obtain ⟨q, rfl⟩ := kind_eq_rational_iff.mp hn
        exact ih hus gs
      · rw [termGroups_cons us gs hn, key_of_wellFormed hu, termEntries,
          nonNumbers_cons_of_ne us hn]
        exact ih hus _
  exact run []

/-! ### Like terms -/

/-- The terms that a group of like terms comes down to. -/
def likeTermsOf (g : Expr × Rat) : List Expr :=
  if g.2 = 0 then [] else if isUnwrapped g then g.1.children else [withCoefficient g.2 g.1]

theorem isUnwrapped_iff {k : Expr} {c : Rat} :
    isUnwrapped (k, c) = true ↔ k.kind = .sum ∧ c = 1 := by
  cases k <;> simp [isUnwrapped, kind]

theorem likeTermsOf_of_unwrapped {g : Expr × Rat} (h : isUnwrapped g = true) :
    likeTermsOf g = g.1.children := by
  rw [likeTermsOf, if_pos h, if_neg]
  rw [(isUnwrapped_iff.mp h).2]
  decide

theorem likeTermsOf_of_plain {g : Expr × Rat} (h : isUnwrapped g = false) :
    likeTermsOf g = if g.2 = 0 then [] else [withCoefficient g.2 g.1] := by
  rw [likeTermsOf, h]
  rfl

private theorem likeTerms_eq (k : Expr) (c : Rat) :
    likeTerms (k, c) =
      if c = 0 then .ok []
      else if isUnwrapped (k, c) then .ok k.children
      else if c = 1 then .ok [k]
      else prodOf (.num c :: k.factors) >>= fun t => .ok [t] := by
  unfold likeTerms
  by_cases h0 : c = 0
  · simp only [if_pos h0]
  · by_cases h1 : c = 1
    · subst h1
      cases k <;> rfl
    · have : ¬ isUnwrapped (k, c) = true := fun h => h1 (isUnwrapped_iff.mp h).2
      simp only [if_neg h0, if_neg h1, if_neg this]
      rfl

theorem likeTerms_of_wellFormed {g : Expr × Rat} (h : g.1.WellFormed) :
    likeTerms g = .ok (likeTermsOf g) := by
  obtain ⟨k, c⟩ := g
  have hlen : 2 ≤ (Expr.num c :: k.factors).length :=
    Nat.succ_le_succ (List.length_pos_iff.mpr (factors_ne_nil h))
  rw [likeTerms_eq, prodOf_eq_ok_iff.mpr ⟨hlen, rfl⟩]
  simp only [likeTermsOf, withCoefficient]
  split_ifs <;> rfl

/-! ### Collected terms -/

/-- What the terms of a sum are collected to. -/
def collectedTerms (us : List Expr) : List Expr :=
  (Groups.collect (termEntries us)).flatMap likeTermsOf ++ besides (constantTerm us) 0

/-- Whether a group of like terms is unwrapped. -/
def unwraps (us : List Expr) : Bool :=
  (Groups.collect (termEntries us)).any isUnwrapped

private theorem mapM_likeTerms_of_wellFormed {gs : Groups} (h : ∀ g ∈ gs, g.1.WellFormed) :
    gs.mapM likeTerms = .ok (gs.map likeTermsOf) := by
  induction gs with
  | nil => rfl
  | cons g gs ih =>
    obtain ⟨hg, hgs⟩ := List.forall_mem_cons.mp h
    rw [List.mapM_cons, likeTerms_of_wellFormed hg, ih hgs]
    rfl

/-- Well-formed terms can be collected. -/
theorem collected_of_wellFormed {us : List Expr} (h : ∀ u ∈ us, u.WellFormed) :
    collected us = .ok (collectedTerms us, unwraps us) := by
  have hstems : ∀ g ∈ Groups.collect (termEntries us), g.1.WellFormed := by
    refine Groups.forall_mem_collect (I := fun k _ => k.WellFormed) (fun _ _ _ h _ => h) ?_
    intro g hg
    obtain ⟨u, hu, rfl⟩ := List.mem_map.mp hg
    exact wellFormed_stem (h u (mem_nonNumbers.mp hu).1)
  rw [collected, termGroups_of_wellFormed h]
  simp only [bind, Except.bind, mapM_likeTerms_of_wellFormed hstems, collectedTerms, unwraps,
    List.flatMap_def]
  rfl

/-! ### Numbers at the end -/

theorem mem_besides {u : Expr} {c neutral : Rat} :
    u ∈ besides c neutral ↔ u = .num c ∧ c ≠ neutral := by
  unfold besides
  split_ifs with h <;> simp [h]

theorem forall_mem_append_besides {P : Expr → Prop} {us : List Expr} {c neutral : Rat}
    (hus : ∀ u ∈ us, P u) (hc : c ≠ neutral → P (.num c)) : ∀ u ∈ us ++ besides c neutral, P u := by
  intro u hu
  rcases List.mem_append.mp hu with hu | hu
  · exact hus u hu
  · obtain ⟨rfl, hne⟩ := mem_besides.mp hu
    exact hc hne

theorem nonNumbers_append_besides {us : List Expr} (h : ∀ u ∈ us, u.kind ≠ .rational)
    (c neutral : Rat) : nonNumbers (us ++ besides c neutral) = us := by
  rw [nonNumbers, List.filter_append]
  show nonNumbers us ++ nonNumbers (besides c neutral) = us
  rw [nonNumbers_eq_self h, besides]
  split_ifs <;> exact List.append_nil us

theorem numbers_append_besides {us : List Expr} (h : ∀ u ∈ us, u.kind ≠ .rational)
    (c neutral : Rat) : numbers (us ++ besides c neutral) = besides c neutral := by
  rw [numbers, List.filter_append]
  show numbers us ++ numbers (besides c neutral) = _
  rw [numbers_eq_nil h, besides]
  split_ifs <;> rfl

theorem num_mem_append_besides {us : List Expr} (h : ∀ u ∈ us, u.kind ≠ .rational)
    {c neutral q : Rat} (hq : .num q ∈ us ++ besides c neutral) : q = c ∧ c ≠ neutral := by
  rcases List.mem_append.mp hq with hq | hq
  · exact absurd rfl (h _ hq)
  · obtain ⟨hqc, hne⟩ := mem_besides.mp hq
    exact ⟨Expr.num.inj hqc, hne⟩

theorem length_besides_le (c neutral : Rat) : (besides c neutral).length ≤ 1 := by
  unfold besides
  split_ifs <;> simp

/-! ### Splicing -/

theorem mem_spliced {kind : Kind} {us : List Expr} {u : Expr} :
    u ∈ spliced kind us ↔ ∃ w ∈ us, if w.kind = kind then u ∈ w.children else u = w := by
  rw [spliced, List.mem_flatMap]
  refine exists_congr fun w => and_congr_right fun _ => ?_
  split_ifs <;> simp

/-- What some expressions have, and the children of those that are spliced with them, all have that
are there afterwards. -/
theorem forall_mem_spliced {P : Expr → Prop} {kind : Kind} {us : List Expr} (h : ∀ u ∈ us, P u)
    (hchild : ∀ u, P u → u.kind = kind → ∀ d ∈ u.children, P d) : ∀ u ∈ spliced kind us, P u := by
  intro u hu
  obtain ⟨w, hw, hu⟩ := mem_spliced.mp hu
  split_ifs at hu with hkind
  · exact hchild w (h w hw) hkind u hu
  · rw [hu]
    exact h w hw

/-! ### Powers of groups -/

/-- What a power of a group leaves but for a number. -/
def remaining (p : Expr) : List Expr :=
  if p.kind = .rational then [] else p.factors

/-- The number that a power of a group is, and one if it is none. -/
def constantOf : Expr → Rat
  | .num q => q
  | _ => 1

theorem constantOf_of_ne {p : Expr} (h : p.kind ≠ .rational) : constantOf p = 1 := by
  cases p with
  | num => exact absurd rfl h
  | sym | pow | prod | sum => rfl

theorem factors_powersOf (w : Expr × Rat → Expr) (gs : Groups) :
    (powersOf w gs).factors = (live gs).flatMap fun g => remaining (w g) := by
  have step : ∀ (p : Expr) (ps : Powers), (ps.cons p).factors = remaining p ++ ps.factors := by
    intro p ps
    cases p <;> rfl
  rw [powersOf]
  induction live gs with
  | nil => rfl
  | cons g gs ih => rw [List.map_cons, List.foldr_cons, step, ih, List.flatMap_cons]

theorem forall_mem_factors_powersOf {P : Expr → Prop} {w : Expr × Rat → Expr} {gs : Groups}
    (h : ∀ g ∈ live gs, ∀ f ∈ (w g).factors, P f) : ∀ f ∈ (powersOf w gs).factors, P f := by
  intro f hf
  rw [factors_powersOf] at hf
  obtain ⟨g, hg, hf⟩ := List.mem_flatMap.mp hf
  rw [remaining] at hf
  split_ifs at hf
  · cases hf
  · exact h g hg f hf

theorem constant_powersOf (w : Expr × Rat → Expr) (gs : Groups) :
    (powersOf w gs).constant = ((live gs).map fun g => constantOf (w g)).foldr (· * ·) 1 := by
  have step : ∀ (p : Expr) (ps : Powers), (ps.cons p).constant = constantOf p * ps.constant := by
    intro p ps
    cases p with
    | num q => exact Rational.multiply_eq q _
    | sym | pow | prod | sum => exact (Rat.one_mul _).symm
  rw [powersOf]
  induction live gs with
  | nil => rfl
  | cons g gs ih => rw [List.map_cons, List.foldr_cons, step, ih, List.map_cons, List.foldr_cons]

theorem fromProduct_powersOf (w : Expr × Rat → Expr) (gs : Groups) :
    (powersOf w gs).fromProduct = (live gs).any fun g => (w g).kind = .product := by
  have step : ∀ (p : Expr) (ps : Powers),
      (ps.cons p).fromProduct = (decide (p.kind = .product) || ps.fromProduct) := by
    intro p ps
    cases p <;> rfl
  rw [powersOf]
  induction live gs with
  | nil => rfl
  | cons g gs ih => rw [List.map_cons, List.foldr_cons, step, ih, List.any_cons]

/-- Powers that are no numbers and no products are left as they are. -/
theorem factors_powersOf_eq_map {w : Expr × Rat → Expr} {gs : Groups}
    (hrat : ∀ g ∈ live gs, (w g).kind ≠ .rational) (hplain : (powersOf w gs).fromProduct = false) :
    (powersOf w gs).factors = (live gs).map w := by
  rw [fromProduct_powersOf, List.any_eq_false] at hplain
  rw [factors_powersOf, List.map_eq_flatMap]
  refine List.flatMap_congr fun g hg => ?_
  rw [remaining, if_neg (hrat g hg), factors_eq_singleton (by simpa using hplain g hg)]

end Canonical

end ExactAlgebra
