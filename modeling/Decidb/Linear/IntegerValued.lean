import Decidb.Linear.Form

/-!
# Integer-valued forms

A quadratic form is integer-valued on a lattice, each column of which takes all integers or only zero
and one, exactly when finitely many sums of its coefficients are integers.
-/

namespace Linear

variable {ι K : Type*} [DecidableEq ι]

/-! ## Forms by their coefficients -/

section Support

variable [CommRing K]

/-- The value of a form is that of its combined coefficients. -/
theorem Form.eval_eq_sum_coefficient {f : Form ι K} {s : Finset ι} (hs : ∀ t ∈ f, t.1 ∈ s)
    (a : ι → K) : f.eval a = ∑ c ∈ s, f.coefficient c * a c := by
  induction f with
  | nil => simp
  | cons t f ih =>
    have ht : ∑ c ∈ s, (if t.1 = c then t.2 else 0) * a c = t.2 * a t.1 := by
      simp only [ite_mul, zero_mul]
      rw [Finset.sum_ite_eq, if_pos (hs t List.mem_cons_self)]
    rw [Form.eval_cons, ih fun u hu => hs u (List.mem_cons_of_mem _ hu), ← ht,
      ← Finset.sum_add_distrib]
    refine Finset.sum_congr rfl fun c _ => ?_
    rw [Form.coefficient_cons]
    ring

/-- At a multiple of a unit assignment a form is worth the coefficient of that column. -/
theorem Form.eval_single (f : Form ι K) (c : ι) (x : K) :
    f.eval (Pi.single c x) = f.coefficient c * x := by
  induction f with
  | nil => simp
  | cons t f ih =>
    rw [Form.eval_cons, Form.coefficient_cons, ih]
    by_cases h : t.1 = c
    · subst h
      simp only [Pi.single_eq_same, if_true]
      ring
    · simp [h]

omit [DecidableEq ι] in
theorem Form.eval_add (f : Form ι K) (a b : ι → K) : f.eval (a + b) = f.eval a + f.eval b := by
  induction f with
  | nil => simp
  | cons t f ih =>
    rw [Form.eval_cons, Form.eval_cons, Form.eval_cons, ih, Pi.add_apply]
    ring

/-- The integers of a ring. -/
abbrev integers (K : Type*) [CommRing K] : Subring K := (Int.castRingHom K).range

theorem intCast_mem_integers (n : ℤ) : (n : K) ∈ integers K := ⟨n, rfl⟩

/-- A form with integer coefficients is integer-valued where its columns are integers. -/
theorem Form.eval_mem_integers {f : Form ι K} {a : ι → K}
    (hf : ∀ c, f.coefficient c ∈ integers K) (ha : ∀ t ∈ f, a t.1 ∈ integers K) :
    f.eval a ∈ integers K := by
  have hs : ∀ t ∈ f, t.1 ∈ (f.map Prod.fst).toFinset := fun t ht => by
    simpa using ⟨t.2, ht⟩
  rw [Form.eval_eq_sum_coefficient hs]
  refine sum_mem fun c hc => mul_mem (hf c) ?_
  obtain ⟨t, ht, rfl⟩ := List.mem_map.mp (List.mem_toFinset.mp hc)
  exact ha t ht

/-- The product of two successive integers is even. -/
theorem exists_half_mul_pred {x : K} (hx : x ∈ integers K) :
    ∃ y ∈ integers K, x * x - x = 2 * y := by
  obtain ⟨n, rfl⟩ := hx
  obtain ⟨m, hm⟩ := Int.even_mul_pred_self n
  refine ⟨m, intCast_mem_integers m, ?_⟩
  have hcast : ((n * (n - 1) : ℤ) : K) = ((m + m : ℤ) : K) := by rw [hm]
  push_cast at hcast
  simp only [eq_intCast]
  linear_combination hcast

end Support

/-! ## Quadratic forms -/

/-- A quadratic form without a constant: linear entries, squares, and products of two columns in one
order. -/
structure Quadratic (ι K : Type*) [LinearOrder ι] where
  linear : Form ι K
  squares : Form ι K
  products : Form (ι × ι) K
  ordered : ∀ t ∈ products, t.1.2 < t.1.1

namespace Quadratic

variable [CommRing K]

section Order

variable {ι : Type*} [LinearOrder ι]

/-- The value of a quadratic form. -/
def eval (q : Quadratic ι K) (a : ι → K) : K :=
  q.linear.eval a + q.squares.eval (fun c => a c * a c) + q.products.eval fun p => a p.1 * a p.2

/-- The columns a quadratic form reads are among `I`. -/
structure ReadsOnly (q : Quadratic ι K) (I : Set ι) : Prop where
  linear : ∀ t ∈ q.linear, t.1 ∈ I
  squares : ∀ t ∈ q.squares, t.1 ∈ I
  products : ∀ t ∈ q.products, t.1.1 ∈ I ∧ t.1.2 ∈ I

/-- The assignments that take integers on `I`, and only zero and one on `B`. -/
structure OnLattice (I B : Set ι) (a : ι → K) : Prop where
  integer : ∀ c ∈ I, a c ∈ integers K
  binary : ∀ c ∈ B, a c = 0 ∨ a c = 1

/-- The sums of coefficients that decide whether a form is integer-valued. -/
structure IntegralOn (q : Quadratic ι K) (B : Set ι) : Prop where
  linear : ∀ c, q.linear.coefficient c + q.squares.coefficient c ∈ integers K
  squares : ∀ c, c ∉ B → 2 * q.squares.coefficient c ∈ integers K
  products : ∀ c d, d < c → q.products.coefficient (c, d) ∈ integers K

variable {q : Quadratic ι K} {I B : Set ι}

/-- The linear entries and the squares of a form with integral sums are integer-valued together. -/
theorem IntegralOn.linear_add_squares (h : q.IntegralOn B) (hI : q.ReadsOnly I) {a : ι → K}
    (ha : OnLattice I B a) :
    q.linear.eval a + q.squares.eval (fun c => a c * a c) ∈ integers K := by
  have hsplit : (fun c => a c * a c) = a + fun c => a c * a c - a c := by
    funext c
    simp
  have hsum : q.linear.eval a + q.squares.eval (fun c => a c * a c) =
      (q.linear ++ q.squares).eval a + q.squares.eval fun c => a c * a c - a c := by
    rw [hsplit, Form.eval_add, Form.eval_append]
    ring
  have hs : ∀ t ∈ q.squares, t.1 ∈ (q.squares.map Prod.fst).toFinset := fun t ht => by
    simpa using ⟨t.2, ht⟩
  rw [hsum]
  refine add_mem (Form.eval_mem_integers (fun c => ?_) fun t ht => ha.integer _ ?_) ?_
  · rw [Form.coefficient_append]
    exact h.linear c
  · rcases List.mem_append.mp ht with ht | ht
    · exact hI.linear t ht
    · exact hI.squares t ht
  · rw [Form.eval_eq_sum_coefficient hs]
    refine sum_mem fun c hc => ?_
    obtain ⟨t, ht, rfl⟩ := List.mem_map.mp (List.mem_toFinset.mp hc)
    by_cases hB : t.1 ∈ B
    · rcases ha.binary t.1 hB with h0 | h1
      · simp [h0]
      · simp [h1]
    · obtain ⟨y, hy, hhalf⟩ := exists_half_mul_pred (ha.integer t.1 (hI.squares t ht))
      rw [hhalf, mul_left_comm, ← mul_assoc]
      exact mul_mem (h.squares t.1 hB) hy

/-- What a quadratic form is worth where at most two columns are off zero. -/
theorem eval_single_add_single (q : Quadratic ι K) {c d : ι} (hdc : d < c) (x y : K) :
    q.eval (Pi.single c x + Pi.single d y) =
      q.linear.coefficient c * x + q.linear.coefficient d * y +
        (q.squares.coefficient c * (x * x) + q.squares.coefficient d * (y * y)) +
          q.products.coefficient (c, d) * (x * y) := by
  have hsquares : (fun e => (Pi.single c x + Pi.single d y : ι → K) e *
      (Pi.single c x + Pi.single d y : ι → K) e) = Pi.single c (x * x) + Pi.single d (y * y) := by
    funext e
    by_cases hc : e = c
    · subst hc
      simp [hdc.ne']
    · by_cases hd : e = d
      · subst hd
        simp [hc]
      · simp [hc, hd]
  have hproducts : q.products.eval (fun p => (Pi.single c x + Pi.single d y : ι → K) p.1 *
      (Pi.single c x + Pi.single d y : ι → K) p.2) =
        q.products.eval (Pi.single (c, d) (x * y)) := by
    refine Form.eval_congr fun t ht => ?_
    obtain ⟨⟨e, f⟩, k⟩ := t
    have hlt : f < e := q.ordered _ ht
    by_cases hec : e = c
    · subst hec
      by_cases hfd : f = d
      · subst hfd
        simp [hlt.ne, hlt.ne']
      · simp [hlt.ne, hfd]
    · by_cases hed : e = d
      · subst hed
        have hfc : f ≠ c := (hlt.trans hdc).ne
        simp [hfc, hlt.ne, hec]
      · simp [hec, hed]
  rw [eval, hsquares, hproducts, Form.eval_add, Form.eval_add, Form.eval_single, Form.eval_single,
    Form.eval_single, Form.eval_single, Form.eval_single]

theorem eval_single (q : Quadratic ι K) (c : ι) (x : K) :
    q.eval (Pi.single c x) = q.linear.coefficient c * x + q.squares.coefficient c * (x * x) := by
  have hsquares : (fun e => (Pi.single c x : ι → K) e * (Pi.single c x : ι → K) e) =
      Pi.single c (x * x) := by
    funext e
    by_cases hc : e = c
    · subst hc
      simp
    · simp [hc]
  have hproducts : q.products.eval (fun p => (Pi.single c x : ι → K) p.1 *
      (Pi.single c x : ι → K) p.2) = q.products.eval 0 := by
    refine Form.eval_congr fun t ht => ?_
    have hlt := q.ordered t ht
    by_cases hc : t.1.1 = c
    · simp [← hc, hlt.ne]
    · simp [hc]
  have hzero : q.products.eval 0 = 0 := by
    induction q.products with
    | nil => simp
    | cons t f ih => simp [ih]
  rw [eval, hsquares, hproducts, hzero, Form.eval_single, Form.eval_single, add_zero]

/-- **A quadratic form is integer-valued on a lattice exactly when its decisive sums of coefficients
are integers.** -/
theorem integerValued_iff (hI : q.ReadsOnly I) :
    (∀ a, OnLattice I B a → q.eval a ∈ integers K) ↔ q.IntegralOn B := by
  have hone : (1 : K) ∈ integers K := one_mem _
  have htwo : (2 : K) ∈ integers K := ofNat_mem _ 2
  constructor
  · intro h
    have hlinear : ∀ c, q.linear.coefficient c + q.squares.coefficient c ∈ integers K := by
      intro c
      have hunit := h (Pi.single c 1) ⟨fun e _ => ?_, fun e _ => ?_⟩
      · rw [eval_single] at hunit
        simpa using hunit
      · by_cases he : e = c
        · subst he
          simp
        · simp [he]
      · by_cases he : e = c
        · subst he
          simp
        · simp [he]
    refine ⟨hlinear, fun c hc => ?_, fun c d hdc => ?_⟩
    · have hdouble := h (Pi.single c 2) ⟨fun e _ => ?_, fun e he => ?_⟩
      · rw [eval_single] at hdouble
        have hdiff := sub_mem hdouble (mul_mem htwo (hlinear c))
        have heq : q.linear.coefficient c * 2 + q.squares.coefficient c * (2 * 2) -
            2 * (q.linear.coefficient c + q.squares.coefficient c) =
              2 * q.squares.coefficient c := by ring
        rwa [heq] at hdiff
      · by_cases hec : e = c
        · subst hec
          simp
        · simp [hec]
      · have hec : e ≠ c := fun hec => hc (hec ▸ he)
        simp [hec]
    · have hpair := h (Pi.single c 1 + Pi.single d 1) ⟨fun e _ => ?_, fun e _ => ?_⟩
      · rw [eval_single_add_single q hdc] at hpair
        have hdiff := sub_mem hpair (add_mem (hlinear c) (hlinear d))
        have heq : q.linear.coefficient c * 1 + q.linear.coefficient d * 1 +
            (q.squares.coefficient c * (1 * 1) + q.squares.coefficient d * (1 * 1)) +
              q.products.coefficient (c, d) * (1 * 1) -
            (q.linear.coefficient c + q.squares.coefficient c +
              (q.linear.coefficient d + q.squares.coefficient d)) =
                q.products.coefficient (c, d) := by ring
        rwa [heq] at hdiff
      · by_cases hec : e = c
        · subst hec
          simp [hdc.ne']
        · by_cases hed : e = d
          · subst hed
            simp [hec]
          · simp [hec, hed]
      · by_cases hec : e = c
        · subst hec
          simp [hdc.ne']
        · by_cases hed : e = d
          · subst hed
            simp [hec]
          · simp [hec, hed]
  · intro h a ha
    refine add_mem (h.linear_add_squares hI ha) (Form.eval_mem_integers (fun p => ?_) ?_)
    · by_cases hp : p.2 < p.1
      · exact h.products p.1 p.2 hp
      · have hzero : q.products.coefficient p = 0 := by
          unfold Form.coefficient
          rw [List.filter_eq_nil_iff.mpr fun t ht => ?_]
          · simp
          · simp only [decide_eq_true_eq]
            rintro rfl
            exact hp (q.ordered t ht)
        rw [hzero]
        exact zero_mem _
    · intro t ht
      obtain ⟨hc, hd⟩ := hI.products t ht
      exact mul_mem (ha.integer _ hc) (ha.integer _ hd)

/-! ### From pairs of columns -/

/-- The quadratic form of linear entries and of pairs of columns in any order. -/
def ofPairs (linear : Form ι K) (pairs : Form (ι × ι) K) : Quadratic ι K where
  linear := linear
  squares := pairs.filterMap fun t => if t.1.1 = t.1.2 then some (t.1.1, t.2) else none
  products := pairs.filterMap fun t =>
    if t.1.1 = t.1.2 then none else some ((max t.1.1 t.1.2, min t.1.1 t.1.2), t.2)
  ordered := by
    intro t ht
    obtain ⟨u, -, hu⟩ := List.mem_filterMap.mp ht
    by_cases he : u.1.1 = u.1.2
    · simp [he] at hu
    · simp only [he, if_false, Option.some.injEq] at hu
      subst hu
      exact min_lt_max.mpr he

theorem ofPairs_eval (linear : Form ι K) (pairs : Form (ι × ι) K) (a : ι → K) :
    (ofPairs linear pairs).eval a = linear.eval a + pairs.eval fun p => a p.1 * a p.2 := by
  unfold eval ofPairs
  rw [add_assoc]
  congr 1
  induction pairs with
  | nil => simp
  | cons t pairs ih =>
    rw [Form.eval_cons, ← ih]
    by_cases he : t.1.1 = t.1.2
    · simp [he, add_assoc]
    · have hpair : a (max t.1.1 t.1.2) * a (min t.1.1 t.1.2) = a t.1.1 * a t.1.2 := by
        rcases le_total t.1.1 t.1.2 with hle | hle
        · rw [max_eq_right hle, min_eq_left hle, mul_comm]
        · rw [max_eq_left hle, min_eq_right hle]
      simp only [List.filterMap_cons, he, if_false, Form.eval_cons, hpair]
      ring

theorem ofPairs_squares_coefficient (linear : Form ι K) (pairs : Form (ι × ι) K) (c : ι) :
    (ofPairs linear pairs).squares.coefficient c = pairs.coefficient (c, c) := by
  unfold ofPairs
  induction pairs with
  | nil => simp
  | cons t pairs ih =>
    obtain ⟨⟨d, e⟩, k⟩ := t
    simp only at ih
    by_cases he : d = e
    · simp only [List.filterMap_cons, he, if_true, Form.coefficient_cons, ih, Prod.mk.injEq,
        and_self]
    · have hne : ¬ (d = c ∧ e = c) := fun h => he (h.1.trans h.2.symm)
      simp only [List.filterMap_cons, he, if_false, Form.coefficient_cons, ih, Prod.mk.injEq, hne,
        zero_add]

theorem ofPairs_products_coefficient (linear : Form ι K) (pairs : Form (ι × ι) K) {c d : ι}
    (hdc : d < c) : (ofPairs linear pairs).products.coefficient (c, d) =
      pairs.coefficient (c, d) + pairs.coefficient (d, c) := by
  unfold ofPairs
  induction pairs with
  | nil => simp
  | cons t pairs ih =>
    obtain ⟨⟨e, f⟩, k⟩ := t
    simp only at ih
    by_cases he : e = f
    · have h1 : ¬ (e = c ∧ f = d) := fun h => hdc.ne' (h.1.symm.trans (he.trans h.2))
      have h2 : ¬ (e = d ∧ f = c) := fun h => hdc.ne (h.1.symm.trans (he.trans h.2))
      simp only [List.filterMap_cons, he, if_true, Form.coefficient_cons, ih, Prod.mk.injEq] at h1 h2 ⊢
      simp only [h1, h2, if_false, zero_add]
    · have hkey : (max e f = c ∧ min e f = d) ↔ (e = c ∧ f = d) ∨ (e = d ∧ f = c) := by
        rcases lt_or_gt_of_ne he with hlt | hlt
        · rw [max_eq_right hlt.le, min_eq_left hlt.le]
          constructor
          · rintro ⟨rfl, rfl⟩
            exact Or.inr ⟨rfl, rfl⟩
          · rintro (⟨rfl, rfl⟩ | ⟨rfl, rfl⟩)
            · exact absurd hlt hdc.not_gt
            · exact ⟨rfl, rfl⟩
        · rw [max_eq_left hlt.le, min_eq_right hlt.le]
          constructor
          · rintro ⟨rfl, rfl⟩
            exact Or.inl ⟨rfl, rfl⟩
          · rintro (⟨rfl, rfl⟩ | ⟨rfl, rfl⟩)
            · exact ⟨rfl, rfl⟩
            · exact absurd hlt hdc.not_gt
      have hexcl : ¬ ((e = c ∧ f = d) ∧ (e = d ∧ f = c)) := fun h =>
        hdc.ne (h.2.1.symm.trans h.1.1)
      simp only [List.filterMap_cons, he, if_false, Form.coefficient_cons, ih, Prod.mk.injEq, hkey]
      by_cases h1 : e = c ∧ f = d
      · have h2 : ¬ (e = d ∧ f = c) := fun h => hexcl ⟨h1, h⟩
        rw [if_pos (Or.inl h1), if_pos h1, if_neg h2]
        ring
      · by_cases h2 : e = d ∧ f = c
        · rw [if_pos (Or.inr h2), if_neg h1, if_pos h2]
          ring
        · rw [if_neg (not_or.mpr ⟨h1, h2⟩), if_neg h1, if_neg h2]
          ring

omit [CommRing K] in
/-- What is read is read by a linear entry or by a pair. -/
theorem ofPairs_readsOnly {linear : Form ι K} {pairs : Form (ι × ι) K}
    (hlinear : ∀ t ∈ linear, t.1 ∈ I) (hpairs : ∀ t ∈ pairs, t.1.1 ∈ I ∧ t.1.2 ∈ I) :
    (ofPairs linear pairs).ReadsOnly I where
  linear := hlinear
  squares := by
    intro t ht
    obtain ⟨u, hu, hut⟩ := List.mem_filterMap.mp ht
    by_cases he : u.1.1 = u.1.2
    · simp only [he, if_true, Option.some.injEq] at hut
      subst hut
      exact (hpairs u hu).2
    · simp [he] at hut
  products := by
    intro t ht
    obtain ⟨u, hu, hut⟩ := List.mem_filterMap.mp ht
    by_cases he : u.1.1 = u.1.2
    · simp [he] at hut
    · simp only [he, if_false, Option.some.injEq] at hut
      subst hut
      rcases le_total u.1.1 u.1.2 with hle | hle
      · simpa only [max_eq_right hle, min_eq_left hle] using (hpairs u hu).symm
      · simpa only [max_eq_left hle, min_eq_right hle] using hpairs u hu

end Order

end Quadratic

end Linear
