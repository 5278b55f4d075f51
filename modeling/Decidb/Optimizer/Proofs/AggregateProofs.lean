import Decidb.Optimizer.Aggregate

/-!
# Factors and extrema of reducers

The sign of a factor known at plan time, and what a MIN or MAX of a list is.
-/

namespace Decidb

/-- The sign known at plan time is the sign of the factor. -/
theorem scaleSign_spec (scale : Option ScaleFactor) :
    scaleSignAtPlanTime scale = 0 ∨
      (scaleSignAtPlanTime scale = 1 ∧ 0 ≤ scaleFactorValue scale) ∨
        (scaleSignAtPlanTime scale = -1 ∧ scaleFactorValue scale < 0) := by
  cases scale with
  | none => right; left; simp [scaleSignAtPlanTime, scaleFactorValue]
  | some s =>
    unfold scaleSignAtPlanTime scaleFactorValue
    by_cases hf : s.foldable = true
    · by_cases h0 : s.value = 0
      · cases hd : s.divides <;> simp [hf, h0, hd]
      · by_cases hneg : s.value < 0
        · right; right
          refine ⟨by simp [hf, h0, hneg], ?_⟩
          by_cases hd : s.divides = true
          · simpa [hd] using hneg
          · simpa [hd] using hneg
        · right; left
          refine ⟨by simp [hf, h0, hneg], ?_⟩
          have hpos := not_lt.mp hneg
          by_cases hd : s.divides = true
          · simpa [hd] using hpos
          · simpa [hd] using hpos
    · simp [hf]

/-- A MIN or MAX over some rows is attained at one of them and bounds the others. -/
theorem reduce_attained {name : AggregateName} (hmm : name.isMinMax = true) {vs : List ℚ}
    (hne : vs ≠ []) :
    name.reduce vs ∈ vs ∧ ∀ v ∈ vs, if name = .max then v ≤ name.reduce vs else name.reduce vs ≤ v := by
  cases name with
  | sum | avg => cases hmm
  | max =>
    obtain ⟨m, hm⟩ := Option.isSome_iff_exists.mp (List.isSome_max?_of_ne_nil hne)
    obtain ⟨hmem, hle⟩ := List.max?_eq_some_iff.mp hm
    simp only [AggregateName.reduce, hm, Option.getD_some, if_true]
    exact ⟨hmem, hle⟩
  | min =>
    obtain ⟨m, hm⟩ := Option.isSome_iff_exists.mp (List.isSome_min?_of_ne_nil hne)
    obtain ⟨hmem, hle⟩ := List.min?_eq_some_iff.mp hm
    simp only [AggregateName.reduce, hm, Option.getD_some, reduceCtorEq, if_false]
    exact ⟨hmem, hle⟩

namespace Comparison

/-- Below a value that is small enough everything is. -/
theorem holds_of_le {cmp : Comparison} (hcmp : cmp = .le ∨ cmp = .lt) {v w : ℚ} {k : Bound}
    (hvw : v ≤ w) (h : cmp.Holds w k) : cmp.Holds v k := by
  have hb : Bound.fin v ≤ Bound.fin w := (Bound.fin_le_fin v w).mpr hvw
  rcases hcmp with rfl | rfl
  · exact hb.trans h
  · exact hb.trans_lt h

/-- Above a value that is large enough everything is. -/
theorem holds_of_ge {cmp : Comparison} (hcmp : cmp = .ge ∨ cmp = .gt) {v w : ℚ} {k : Bound}
    (hvw : w ≤ v) (h : cmp.Holds w k) : cmp.Holds v k := by
  have hb : Bound.fin w ≤ Bound.fin v := (Bound.fin_le_fin w v).mpr hvw
  rcases hcmp with rfl | rfl
  · exact le_trans h hb
  · exact lt_of_lt_of_le h hb

end Comparison

end Decidb
