import Mathlib.Algebra.BigOperators.Group.List.Basic
import Mathlib.Algebra.Order.BigOperators.Group.List
import Mathlib.Tactic.Linarith
import Mathlib.Tactic.Ring

/-!
# One-hot selectors

A family of zero-one columns with sum one selects one entry of a list: the weighted sum of the entries
is the entry selected, and every entry can be selected.
-/

namespace Linear

variable {K α : Type*} [Field K]

/-- The columns of a family are the positions of its entries from `base` on. -/
def selectedSum (l : List α) (base : Nat) (f : α → K) (z : Nat → K) : K :=
  ((l.zipIdx base).map fun p => f p.1 * z p.2).sum

@[simp] theorem selectedSum_nil (base : Nat) (f : α → K) (z : Nat → K) :
    selectedSum [] base f z = 0 := rfl

@[simp] theorem selectedSum_cons (x : α) (l : List α) (base : Nat) (f : α → K) (z : Nat → K) :
    selectedSum (x :: l) base f z = f x * z base + selectedSum l (base + 1) f z := rfl

/-- Columns before `base` are not read. -/
theorem selectedSum_congr {l : List α} {base : Nat} {f : α → K} {z z' : Nat → K}
    (h : ∀ v, base ≤ v → z v = z' v) : selectedSum l base f z = selectedSum l base f z' := by
  induction l generalizing base with
  | nil => rfl
  | cons x l ih =>
    rw [selectedSum_cons, selectedSum_cons, h base le_rfl,
      ih fun v hv => h v (Nat.le_of_succ_le hv)]

variable [LinearOrder K] [IsStrictOrderedRing K]

/-- A family of zero-one columns has a sum that is not negative, and is all zero when it is zero. -/
theorem selectedSum_one_nonneg {z : Nat → K} (hz : ∀ v, z v = 0 ∨ z v = 1) (l : List α)
    (base : Nat) : 0 ≤ selectedSum l base (fun _ => (1 : K)) z ∧
      (selectedSum l base (fun _ => (1 : K)) z = 0 →
        ∀ f : α → K, selectedSum l base f z = 0) := by
  induction l generalizing base with
  | nil => exact ⟨le_rfl, fun _ _ => rfl⟩
  | cons x l ih =>
    obtain ⟨hnonneg, hzero⟩ := ih (base + 1)
    rw [selectedSum_cons, one_mul]
    rcases hz base with h | h
    · rw [h, zero_add]
      refine ⟨hnonneg, fun hsum f => ?_⟩
      rw [selectedSum_cons, h, mul_zero, zero_add, hzero hsum]
    · rw [h]
      refine ⟨by linarith, fun hsum => ?_⟩
      exact absurd hsum (by linarith)

/-- **One column of the family is one**, and every weighted sum is the weight of its entry. -/
theorem exists_oneHot_entry {z : Nat → K} (hz : ∀ v, z v = 0 ∨ z v = 1) {l : List α} {base : Nat}
    (hsum : selectedSum l base (fun _ => (1 : K)) z = 1) :
    ∃ x ∈ l, ∀ f : α → K, selectedSum l base f z = f x := by
  induction l generalizing base with
  | nil => simp at hsum
  | cons x l ih =>
    rw [selectedSum_cons, one_mul] at hsum
    rcases hz base with h | h
    · rw [h, zero_add] at hsum
      obtain ⟨y, hy, hall⟩ := ih hsum
      refine ⟨y, List.mem_cons_of_mem _ hy, fun f => ?_⟩
      rw [selectedSum_cons, h, mul_zero, zero_add, hall f]
    · rw [h, add_eq_left] at hsum
      refine ⟨x, List.mem_cons_self, fun f => ?_⟩
      rw [selectedSum_cons, h, mul_one, (selectedSum_one_nonneg hz l (base + 1)).2 hsum f, add_zero]

/-- **Every entry can be selected.** -/
theorem exists_oneHot {l : List α} {x : α} (hx : x ∈ l) (base : Nat) :
    ∃ z : Nat → K, (∀ v, z v = 0 ∨ z v = 1) ∧ ∀ f : α → K, selectedSum l base f z = f x := by
  induction l generalizing base with
  | nil => cases hx
  | cons y l ih =>
    rcases List.mem_cons.mp hx with rfl | hx
    · refine ⟨fun v => if v = base then 1 else 0, fun v => ?_, fun f => ?_⟩
      · by_cases hv : v = base
        · exact Or.inr (if_pos hv)
        · exact Or.inl (if_neg hv)
      · have hrest : selectedSum l (base + 1) f (fun v => if v = base then (1 : K) else 0) =
            selectedSum l (base + 1) f fun _ => 0 :=
          selectedSum_congr fun v hv => if_neg (by omega)
        have hzero : selectedSum l (base + 1) f (fun _ => (0 : K)) = 0 :=
          (selectedSum_one_nonneg (fun _ => Or.inl rfl) l (base + 1)).2 (by simp [selectedSum]) f
        rw [selectedSum_cons, if_pos rfl, hrest, hzero, mul_one, add_zero]
    · obtain ⟨z, hz, hall⟩ := ih hx (base + 1)
      refine ⟨fun v => if v = base then 0 else z v, fun v => ?_, fun f => ?_⟩
      · by_cases hv : v = base
        · exact Or.inl (if_pos hv)
        · simpa only [hv, if_false] using hz v
      · have hrest : selectedSum l (base + 1) f (fun v => if v = base then 0 else z v) =
            selectedSum l (base + 1) f z := selectedSum_congr fun v hv => if_neg (by omega)
        rw [selectedSum_cons, if_pos rfl, hrest, hall f, mul_zero, zero_add]

end Linear
