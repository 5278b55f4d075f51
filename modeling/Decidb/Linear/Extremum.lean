import Decidb.Linear.Form

/-!
# Extrema over a family, and the selector rows that pin a column to one

A column `z` stands for the extremum of a family `e` when it is on the right side of every member
(the envelope) and reaches one of them (the closing side). The closing side is a disjunction; it is
encoded with one 0/1 selector per member and a constant `M` that dominates the reach of `z - e i`. An
absolute value is the maximum of a value and its negation, and needs one 0/1 sign.
-/

namespace Linear

variable {K : Type*}

/-! ## Selector rows -/

section Selectors

variable [Field K] [LinearOrder K] [IsStrictOrderedRing K] {n : Nat}

/-- Some 0/1 choice of at least one member: the sum of the selectors reaches one. -/
theorem one_le_sum_of_selected {y : Fin n → K} (hy : ∀ i, y i = 0 ∨ y i = 1) {i : Fin n}
    (hi : y i = 1) : 1 ≤ ∑ j, y j := by
  have hnn : ∀ j ∈ Finset.univ, 0 ≤ y j := fun j _ => by
    rcases hy j with h | h <;> simp [h]
  calc (1 : K) = y i := hi.symm
    _ ≤ ∑ j, y j := Finset.single_le_sum hnn (Finset.mem_univ i)

theorem exists_selected {y : Fin n → K} (hy : ∀ i, y i = 0 ∨ y i = 1) (h : 1 ≤ ∑ j, y j) :
    ∃ i, y i = 1 := by
  by_contra hno
  push Not at hno
  have hz : ∑ j, y j = 0 := Finset.sum_eq_zero fun j _ => (hy j).resolve_right (hno j)
  rw [hz] at h
  exact absurd h (not_le.mpr one_pos)

/-- The closing rows of a maximum: with `M` dominating every `z - e j` while `z` lies under some
member, selectors exist exactly when it does. -/
theorem exists_selectors_le_iff (z M : K) (e : Fin n → K)
    (hM : (∃ i, z ≤ e i) → ∀ j, z - e j ≤ M) :
    (∃ y : Fin n → K, (∀ i, y i = 0 ∨ y i = 1) ∧ (∀ i, z - e i + M * y i ≤ M) ∧ 1 ≤ ∑ i, y i) ↔
      ∃ i, z ≤ e i := by
  constructor
  · rintro ⟨y, hy, hrow, hsum⟩
    obtain ⟨i, hi⟩ := exists_selected hy hsum
    have h := hrow i
    rw [hi] at h
    exact ⟨i, by linarith⟩
  · rintro ⟨i, hi⟩
    have hy : ∀ j, (if j = i then (1 : K) else 0) = 0 ∨ (if j = i then (1 : K) else 0) = 1 := by
      intro j
      by_cases h : j = i <;> simp [h]
    refine ⟨fun j => if j = i then 1 else 0, hy, fun j => ?_, one_le_sum_of_selected hy (i := i) (by simp)⟩
    by_cases h : j = i
    · subst h
      simp only [if_true, mul_one]
      linarith
    · simp only [h, if_false, mul_zero, add_zero]
      exact hM ⟨i, hi⟩ j

/-- The closing rows of a minimum, the mirror image of `exists_selectors_le_iff`. -/
theorem exists_selectors_ge_iff (z M : K) (e : Fin n → K)
    (hM : (∃ i, e i ≤ z) → ∀ j, e j - z ≤ M) :
    (∃ y : Fin n → K, (∀ i, y i = 0 ∨ y i = 1) ∧ (∀ i, -M ≤ z - e i + -M * y i) ∧
      1 ≤ ∑ i, y i) ↔ ∃ i, e i ≤ z := by
  have key := exists_selectors_le_iff (-z) M (fun i => -e i) fun ⟨i, hi⟩ j => by
    have := hM ⟨i, by linarith⟩ j
    linarith
  constructor
  · rintro ⟨y, hy, hrow, hsum⟩
    obtain ⟨i, hi⟩ := key.mp ⟨y, hy, fun i => by have := hrow i; linarith, hsum⟩
    exact ⟨i, by linarith⟩
  · rintro ⟨i, hi⟩
    obtain ⟨y, hy, hrow, hsum⟩ := key.mpr ⟨i, by linarith⟩
    exact ⟨y, hy, fun i => by have := hrow i; linarith, hsum⟩

/-- **The sign rows of an absolute value**: over the two lower rows, a 0/1 sign with a constant that
dominates the argument exists exactly when the column is the absolute value. -/
theorem exists_sign_iff (z e M : K) (hM : |e| ≤ M) :
    (∃ s : K, (s = 0 ∨ s = 1) ∧ (e ≤ z ∧ -e ≤ z) ∧ z - e + 2 * M * s ≤ 2 * M ∧
      z + e - 2 * M * s ≤ 0) ↔ z = |e| := by
  obtain ⟨hlo, hhi⟩ := abs_le.mp hM
  constructor
  · rintro ⟨s, rfl | rfl, ⟨h1, h2⟩, h3, h4⟩
    · have hz : z = -e := by linarith
      rw [hz, abs_of_nonpos (by linarith)]
    · have hz : z = e := by linarith
      rw [hz, abs_of_nonneg (by linarith)]
  · rintro rfl
    refine (le_total 0 e).elim (fun he => ⟨1, Or.inr rfl, ?_⟩) fun he => ⟨0, Or.inl rfl, ?_⟩
    · rw [abs_of_nonneg he]
      refine ⟨⟨?_, ?_⟩, ?_, ?_⟩ <;> linarith
    · rw [abs_of_nonpos he]
      refine ⟨⟨?_, ?_⟩, ?_, ?_⟩ <;> linarith

end Selectors

/-! ## The extremum of a list -/

section Lists

variable [LinearOrder K]

theorem le_listMax_iff {l : List K} {m : K} (h : l.max? = some m) (k : K) :
    k ≤ m ↔ ∃ x ∈ l, k ≤ x := by
  obtain ⟨hm, hle⟩ := List.max?_eq_some_iff.mp h
  exact ⟨fun hk => ⟨m, hm, hk⟩, fun ⟨x, hx, hk⟩ => hk.trans (hle x hx)⟩

theorem listMax_le_iff {l : List K} {m : K} (h : l.max? = some m) (k : K) :
    m ≤ k ↔ ∀ x ∈ l, x ≤ k := by
  obtain ⟨hm, hle⟩ := List.max?_eq_some_iff.mp h
  exact ⟨fun hk x hx => (hle x hx).trans hk, fun hk => hk m hm⟩

theorem listMin_le_iff {l : List K} {m : K} (h : l.min? = some m) (k : K) :
    m ≤ k ↔ ∃ x ∈ l, x ≤ k := by
  obtain ⟨hm, hle⟩ := List.min?_eq_some_iff.mp h
  exact ⟨fun hk => ⟨m, hm, hk⟩, fun ⟨x, hx, hk⟩ => (hle x hx).trans hk⟩

theorem le_listMin_iff {l : List K} {m : K} (h : l.min? = some m) (k : K) :
    k ≤ m ↔ ∀ x ∈ l, k ≤ x := by
  obtain ⟨hm, hle⟩ := List.min?_eq_some_iff.mp h
  exact ⟨fun hk x hx => hk.trans (hle x hx), fun hk => hk m hm⟩

end Lists

end Linear
