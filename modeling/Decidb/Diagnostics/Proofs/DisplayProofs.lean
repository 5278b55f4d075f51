import Decidb.Diagnostics.RepairSearch

/-!
# What rounding for display keeps

Displayed values keep the order of nonnegative values, and an amount above the noise floor stays visible
through both roundings of the readback.
-/

namespace Decidb

variable {K : Type*} [Field K] [LinearOrder K] [IsStrictOrderedRing K] [FloorRing K]

/-! ## Rounding -/

omit [IsStrictOrderedRing K] in
theorem stdRound_of_nonneg {x : K} (h : 0 ≤ x) : stdRound x = ⌊x + 1 / 2⌋ := if_pos h

theorem stdRound_le_stdRound {x y : K} (hx : 0 ≤ x) (h : x ≤ y) : stdRound x ≤ stdRound y := by
  rw [stdRound_of_nonneg hx, stdRound_of_nonneg (hx.trans h)]
  exact Int.floor_le_floor (add_le_add_left h _)

theorem stdRound_intCast {n : ℤ} (h : 0 ≤ n) : stdRound (n : K) = n := by
  rw [stdRound_of_nonneg (by exact_mod_cast h), Int.floor_eq_iff]
  constructor <;> norm_num

/-- Rounding moves a number by half a unit at most. -/
theorem abs_stdRound_sub_le (x : K) : |(stdRound x : K) - x| ≤ 1 / 2 := by
  unfold stdRound
  rw [abs_le]
  split
  · have h1 := Int.floor_le (x + 1 / 2)
    have h2 := Int.lt_floor_add_one (x + 1 / 2)
    constructor <;> linarith
  · have h1 := Int.le_ceil (x - 1 / 2)
    have h2 := Int.ceil_lt_add_one (x - 1 / 2)
    constructor <;> linarith

/-! ## Displayed values -/

/-- A value shown as the integer next to it. -/
def SnapsToInteger (v : K) : Prop := |v - stdRound v| ≤ 1 / 10 ^ 6 * max 1 |v|

theorem snapDiagnosticValue_eq (v : K) [Decidable (SnapsToInteger v)] :
    snapDiagnosticValue v =
      if SnapsToInteger v then (stdRound v : K) else stdRound (v * 10 ^ 6) / 10 ^ 6 := by
  unfold snapDiagnosticValue
  by_cases hv : v = 0
  · have hround : stdRound (0 : K) = 0 := by simpa using stdRound_intCast (K := K) le_rfl
    have hsnaps : SnapsToInteger v := by
      unfold SnapsToInteger
      rw [hv, hround]
      simp
    rw [if_pos hv, if_pos hsnaps, hv, hround, Int.cast_zero]
  · rw [if_neg hv]
    exact if_congr Iff.rfl rfl rfl

/-- To six places an integer stays itself. -/
theorem stdRound_scaled_intCast {n : ℤ} (h : 0 ≤ n) :
    (stdRound ((n : K) * 10 ^ 6) : K) / 10 ^ 6 = n := by
  have hcast : (n : K) * 10 ^ 6 = ((n * 10 ^ 6 : ℤ) : K) := by push_cast; ring
  have hne : (10 : K) ^ 6 ≠ 0 := by positivity
  rw [hcast, stdRound_intCast (by positivity), ← hcast]
  exact mul_div_cancel_right₀ _ hne

/-- **What is displayed keeps the order of nonnegative values.** -/
theorem snapDiagnosticValue_le {v w : K} (hv : 0 ≤ v) (h : v ≤ w) :
    snapDiagnosticValue v ≤ snapDiagnosticValue w := by
  classical
  have hw : 0 ≤ w := hv.trans h
  have hscaled : ∀ {a b : K}, 0 ≤ a → a ≤ b →
      (stdRound (a * 10 ^ 6) : K) / 10 ^ 6 ≤ stdRound (b * 10 ^ 6) / 10 ^ 6 := by
    intro a b ha hab
    have := stdRound_le_stdRound (K := K) (x := a * 10 ^ 6) (y := b * 10 ^ 6) (by positivity)
      (mul_le_mul_of_nonneg_right hab (by positivity))
    gcongr
  have hround : ∀ {a : K}, 0 ≤ a → 0 ≤ stdRound a := by
    intro a ha
    have := stdRound_le_stdRound (K := K) le_rfl ha
    rwa [show stdRound (0 : K) = 0 by simpa using stdRound_intCast (K := K) le_rfl] at this
  rw [snapDiagnosticValue_eq, snapDiagnosticValue_eq]
  by_cases hsv : SnapsToInteger v
  · rw [if_pos hsv]
    by_cases hsw : SnapsToInteger w
    · rw [if_pos hsw]
      exact_mod_cast stdRound_le_stdRound hv h
    · rw [if_neg hsw]
      by_cases hle : (stdRound v : K) ≤ w
      · rw [← stdRound_scaled_intCast (hround hv)]
        exact hscaled (by exact_mod_cast hround hv) hle
      · -- then `w` lies between `v` and the integer, and snaps to it as well
        refine absurd ?_ hsw
        rw [not_le] at hle
        have hsame : stdRound w = stdRound v := by
          refine le_antisymm ?_ (stdRound_le_stdRound hv h)
          have := stdRound_le_stdRound hw hle.le
          rwa [stdRound_intCast (hround hv)] at this
        unfold SnapsToInteger at hsv ⊢
        rw [hsame, abs_of_nonpos (by linarith), abs_of_nonneg hw]
        rw [abs_of_nonpos (by linarith), abs_of_nonneg hv] at hsv
        have hmax : max 1 v ≤ max 1 w := max_le_max le_rfl h
        linarith
  · rw [if_neg hsv]
    by_cases hsw : SnapsToInteger w
    · rw [if_pos hsw]
      by_cases hle : v ≤ stdRound w
      · rw [← stdRound_scaled_intCast (K := K) (hround hw)]
        exact hscaled hv hle
      · -- then `v` lies between the integer and `w`, and snaps to it as well
        refine absurd ?_ hsv
        rw [not_le] at hle
        have hsame : stdRound v = stdRound w := by
          refine le_antisymm (stdRound_le_stdRound hv h) ?_
          have := stdRound_le_stdRound (by exact_mod_cast hround hw) hle.le
          rwa [stdRound_intCast (hround hw)] at this
        unfold SnapsToInteger at hsw ⊢
        rw [hsame, abs_of_nonneg (by linarith), abs_of_nonneg hv]
        rw [abs_of_nonneg (by linarith), abs_of_nonneg hw] at hsw
        have h1 : (1 : K) ≤ max 1 v := le_max_left _ _
        have h2 : v ≤ max 1 v := le_max_right _ _
        rcases max_choice 1 w with hmax | hmax <;> rw [hmax] at hsw <;> linarith
    · rw [if_neg hsw]
      exact hscaled hv h

/-- A value above the noise floor is shown as something else than zero. -/
theorem diagnosticRayEpsilon_lt_snap {v : K} (h : editFloor < |v|) :
    diagnosticRayEpsilon < |snapDiagnosticValue v| := by
  classical
  have hfloor : (1 : K) / 10 ^ 5 < |v| := h
  have hone : ∀ n : ℤ, n ≠ 0 → (1 : K) ≤ |(n : K)| := by
    intro n hn
    rw [← Int.cast_abs]
    exact_mod_cast Int.one_le_abs hn
  rw [snapDiagnosticValue_eq]
  unfold diagnosticRayEpsilon
  split
  · rename_i hsnaps
    unfold SnapsToInteger at hsnaps
    have hne : stdRound v ≠ 0 := by
      intro hzero
      rw [hzero, Int.cast_zero, sub_zero] at hsnaps
      rcases max_choice 1 |v| with hmax | hmax <;> rw [hmax] at hsnaps <;> linarith
    have := hone _ hne
    linarith
  · have hdist := abs_stdRound_sub_le (v * 10 ^ 6)
    have hpos : (0 : K) < 10 ^ 6 := by positivity
    have habs : |v * 10 ^ 6| = |v| * 10 ^ 6 := by rw [abs_mul, abs_of_pos hpos]
    have hne : stdRound (v * 10 ^ 6) ≠ 0 := by
      intro hzero
      rw [hzero, Int.cast_zero, zero_sub, abs_neg, habs] at hdist
      linarith
    rw [abs_div, abs_of_pos hpos, lt_div_iff₀ hpos]
    have hlt : (1 : K) / 10 ^ 8 * 10 ^ 6 < 1 := by norm_num
    exact hlt.trans_le (hone _ hne)

/-- Rounding to the precision of an edit never makes it smaller. -/
theorem abs_le_abs_snapToPrecision (v : K) : |v| ≤ |snapToPrecision v| := by
  unfold snapToPrecision
  split
  · exact le_rfl
  · dsimp only
    split
    · exact le_rfl
    · set scale : K := 10 ^ (-Int.clog 10 (1 / 10 ^ 6 * |v|)).toNat
      have hscale : 0 < scale := by positivity
      set nearest : K := ((stdRound (|v| * scale) : ℤ) : K)
      have hticks : |v| ≤ (if nearest / scale < |v| then nearest + 1 else nearest) / scale := by
        split
        · rw [le_div_iff₀ hscale]
          have := (abs_le.mp (abs_stdRound_sub_le (|v| * scale))).1
          linarith
        · rename_i hnot
          exact not_lt.mp hnot
      split
      · rw [abs_neg]
        exact hticks.trans (le_abs_self _)
      · exact hticks.trans (le_abs_self _)

end Decidb
