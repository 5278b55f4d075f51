import Decidb.Relational.ExceptLists
import Decidb.Solver.HighsSession
import Decidb.Solver.Proofs.SolverModelProofs

/-!
# HiGHS is handed the same problem

A row with a coefficient is inside the window times `2 ^ k` exactly for the `k` between the two ends
`chooseHighsRowScale` computes; multiplied with its sides it holds for the same assignments. Packing lists
the entries of a row, and of a column of the quadratic objective, in order.
-/

namespace Decidb

open Linear Relational

variable {K : Type*} [Field K] [LinearOrder K] [IsStrictOrderedRing K] [FloorSemiring K]

/-! ## The exponent -/

section Exponent

omit [FloorSemiring K] in
theorem highsSmallMatrixValue_pos : (0 : K) < highsSmallMatrixValue := by
  unfold highsSmallMatrixValue
  positivity

omit [FloorSemiring K] in
theorem highsLargeMatrixValue_pos : (0 : K) < highsLargeMatrixValue := by
  unfold highsLargeMatrixValue
  positivity

omit [FloorSemiring K] in
theorem highsInfiniteBound_pos : (0 : K) < highsInfiniteBound := by
  unfold highsInfiniteBound
  positivity

/-- The exponents that bring a number above a threshold. -/
theorem lt_mul_zpow_iff {lo t : K} (hlo : 0 < lo) (ht : 0 < t) (k : ℤ) :
    t < lo * 2 ^ k ↔ Int.log 2 (t / lo) + 1 ≤ k := by
  have h := Int.lt_zpow_iff_log_lt (b := 2) (x := k) (by norm_num) (div_pos ht hlo)
  rw [Nat.cast_ofNat, div_lt_iff₀ hlo, mul_comm] at h
  exact h.trans Int.add_one_le_iff.symm

/-- The exponents that leave a number below a threshold. -/
theorem mul_zpow_lt_iff {hi t : K} (hhi : 0 < hi) (ht : 0 < t) (k : ℤ) :
    hi * 2 ^ k < t ↔ k ≤ Int.clog 2 (t / hi) - 1 := by
  have h := Int.zpow_lt_iff_lt_clog (b := 2) (x := k) (by norm_num) (div_pos ht hhi)
  rw [Nat.cast_ofNat, lt_div_iff₀ hhi, mul_comm] at h
  exact h.trans Int.le_sub_one_iff.symm

/-- The smallest and the largest coefficient and the bound are inside. -/
structure ExtentInWindow (lo hi bound : K) (k : ℤ) : Prop where
  small : highsSmallMatrixValue < lo * 2 ^ k
  large : hi * 2 ^ k < highsLargeMatrixValue
  bound : bound * 2 ^ k < highsInfiniteBound

theorem extentInWindow_iff {lo hi bound : K} (hlo : 0 < lo) (hhi : 0 < hi) (hbound : 0 ≤ bound) (k : ℤ) :
    ExtentInWindow lo hi bound k ↔
      Int.log 2 (highsSmallMatrixValue / lo) + 1 ≤ k ∧ k ≤ Int.clog 2 (highsLargeMatrixValue / hi) - 1 ∧
        (0 < bound → k ≤ Int.clog 2 (highsInfiniteBound / bound) - 1) := by
  have hb : bound * 2 ^ k < highsInfiniteBound ↔
      (0 < bound → k ≤ Int.clog 2 (highsInfiniteBound / bound) - 1) := by
    rcases hbound.eq_or_lt with rfl | hpos
    · rw [zero_mul]
      exact iff_of_true highsInfiniteBound_pos fun h => absurd h (lt_irrefl 0)
    · rw [mul_zpow_lt_iff hpos highsInfiniteBound_pos]
      exact ⟨fun h _ => h, fun h => h hpos⟩
  constructor
  · rintro ⟨hs, hl, hbd⟩
    exact ⟨(lt_mul_zpow_iff hlo highsSmallMatrixValue_pos k).mp hs,
      (mul_zpow_lt_iff hhi highsLargeMatrixValue_pos k).mp hl, hb.mp hbd⟩
  · rintro ⟨hs, hl, hbd⟩
    exact ⟨(lt_mul_zpow_iff hlo highsSmallMatrixValue_pos k).mpr hs,
      (mul_zpow_lt_iff hhi highsLargeMatrixValue_pos k).mpr hl, hb.mpr hbd⟩

/-- **A power of two is found exactly if there is one**, and the one found does it. -/
theorem chooseHighsRowScale_spec {lo hi bound : K} (hlo : 0 < lo) (hhi : 0 < hi) (hbound : 0 ≤ bound) :
    ((chooseHighsRowScale lo hi bound).1 = .ok ↔ ∃ k, ExtentInWindow lo hi bound k) ∧
      ((chooseHighsRowScale lo hi bound).1 = .ok →
        ExtentInWindow lo hi bound (chooseHighsRowScale lo hi bound).2) := by
  unfold chooseHighsRowScale
  by_cases hin : highsSmallMatrixValue < lo ∧ hi < highsLargeMatrixValue ∧ bound < highsInfiniteBound
  · rw [if_pos hin]
    have hzero : ExtentInWindow lo hi bound 0 := by
      constructor
      · rw [zpow_zero, mul_one]
        exact hin.1
      · rw [zpow_zero, mul_one]
        exact hin.2.1
      · rw [zpow_zero, mul_one]
        exact hin.2.2
    exact ⟨iff_of_true rfl ⟨0, hzero⟩, fun _ => hzero⟩
  · rw [if_neg hin]
    dsimp only
    simp only [extentInWindow_iff hlo hhi hbound]
    generalize Int.log 2 (highsSmallMatrixValue / lo) + 1 = kMin
    generalize Int.clog 2 (highsLargeMatrixValue / hi) - 1 = kMax
    generalize Int.clog 2 (highsInfiniteBound / bound) - 1 = kBound
    generalize lroundHalfLog2 (highsSmallMatrixValue * highsLargeMatrixValue / (lo * hi)) = k
    by_cases hspread : kMax < kMin
    · rw [if_pos hspread]
      refine ⟨iff_of_false (by simp) ?_, fun h => absurd h (by simp)⟩
      rintro ⟨j, h₁, h₂, -⟩
      omega
    · rw [if_neg hspread]
      by_cases hlarge : 0 < bound ∧ kBound < kMin
      · rw [if_pos hlarge]
        refine ⟨iff_of_false (by simp) ?_, fun h => absurd h (by simp)⟩
        rintro ⟨j, h₁, -, h₃⟩
        have := h₃ hlarge.1
        omega
      · rw [if_neg hlarge]
        have hdone : kMin ≤ min (max k kMin) (if 0 < bound then min kMax kBound else kMax) ∧
            min (max k kMin) (if 0 < bound then min kMax kBound else kMax) ≤ kMax ∧
            (0 < bound → min (max k kMin) (if 0 < bound then min kMax kBound else kMax) ≤ kBound) := by
          by_cases hpos : 0 < bound
          · have hle : ¬ kBound < kMin := fun h => hlarge ⟨hpos, h⟩
            simp only [if_pos hpos]
            omega
          · simp only [if_neg hpos]
            refine ⟨by omega, by omega, fun h => absurd h hpos⟩
        exact ⟨iff_of_true rfl ⟨_, hdone⟩, fun _ => hdone⟩

end Exponent

/-! ## The entries of a row -/

omit [Field K] [LinearOrder K] [IsStrictOrderedRing K] [FloorSemiring K] in
theorem filter_zipIdx_flatMap {constraints : List (SolverRow K)} {r : Nat} {row : SolverRow K}
    (hrow : constraints[r]? = some row) (k : Nat) :
    ((constraints.zipIdx k).flatMap fun p => p.1.form.map fun t => (⟨p.2, t.1, t.2⟩ : CooEntry K)).filter
      (fun entry => entry.row = k + r) = row.form.map fun t => ⟨k + r, t.1, t.2⟩ := by
  have hother : ∀ (l : List (SolverRow K)) (j i : Nat), i < j →
      ((l.zipIdx j).flatMap fun p => p.1.form.map fun t => (⟨p.2, t.1, t.2⟩ : CooEntry K)).filter
        (fun entry => entry.row = i) = [] := by
    intro l j i hlt
    rw [List.filter_eq_nil_iff]
    intro entry hentry
    obtain ⟨p, hp, hentry⟩ := List.mem_flatMap.mp hentry
    obtain ⟨t, -, rfl⟩ := List.mem_map.mp hentry
    have hle := List.le_snd_of_mem_zipIdx hp
    simp only [decide_eq_true_eq]
    omega
  induction constraints generalizing r k with
  | nil => cases hrow
  | cons first constraints ih =>
    rw [List.zipIdx_cons, List.flatMap_cons, List.filter_append]
    cases r with
    | zero =>
      cases hrow
      rw [hother _ _ _ (by omega), List.append_nil]
      refine List.filter_eq_self.mpr ?_
      intro entry hentry
      obtain ⟨t, -, rfl⟩ := List.mem_map.mp hentry
      simp
    | succ r =>
      have hfirst : (first.form.map fun t => (⟨k, t.1, t.2⟩ : CooEntry K)).filter
          (fun entry => entry.row = k + (r + 1)) = [] := by
        rw [List.filter_eq_nil_iff]
        intro entry hentry
        obtain ⟨t, -, rfl⟩ := List.mem_map.mp hentry
        simp
      have hrest := ih hrow (k + 1)
      rw [Nat.add_assoc, Nat.add_comm 1 r] at hrest
      rw [hfirst, List.nil_append, hrest]

omit [Field K] [LinearOrder K] [IsStrictOrderedRing K] [FloorSemiring K] in
/-- The entries of a row are its terms, in order. -/
theorem filter_cooEntries {constraints : List (SolverRow K)} {r : Nat} {row : SolverRow K}
    (hrow : constraints[r]? = some row) :
    (cooEntries constraints).filter (fun entry => entry.row = r) = row.form.map fun t => ⟨r, t.1, t.2⟩ := by
  have h := filter_zipIdx_flatMap hrow 0
  rw [Nat.zero_add] at h
  exact h

omit [Field K] [LinearOrder K] [IsStrictOrderedRing K] [FloorSemiring K] in
theorem row_lt_of_mem_cooEntries {constraints : List (SolverRow K)} {entry : CooEntry K}
    (h : entry ∈ cooEntries constraints) : entry.row < constraints.length := by
  obtain ⟨p, hp, hentry⟩ := List.mem_flatMap.mp h
  obtain ⟨t, -, rfl⟩ := List.mem_map.mp hentry
  exact List.snd_lt_of_mem_zipIdx hp

/-- What `lo[r]` and `hi[r]` are. -/
structure IsExtent (own : List (CooEntry K)) (extent : Option K × K) : Prop where
  blank : (∀ entry ∈ own, entry.val = 0) → extent = (none, 0)
  spread : (∃ entry ∈ own, entry.val ≠ 0) → ∃ lo, extent.1 = some lo ∧
    (∃ entry ∈ own, entry.val ≠ 0 ∧ |entry.val| = lo) ∧
    (∃ entry ∈ own, entry.val ≠ 0 ∧ |entry.val| = extent.2) ∧
    ∀ entry ∈ own, entry.val ≠ 0 → lo ≤ |entry.val| ∧ |entry.val| ≤ extent.2

omit [FloorSemiring K] in
theorem IsExtent.concat {own : List (CooEntry K)} {extent : Option K × K} (h : IsExtent own extent)
    (entry : CooEntry K) :
    IsExtent (own ++ [entry]) (if entry.val = 0 then extent
      else (some ((extent.1.map (min · |entry.val|)).getD |entry.val|), max extent.2 |entry.val|)) := by
  have hlast : entry ∈ own ++ [entry] := List.mem_append_right _ (List.mem_singleton_self entry)
  have hmem : ∀ {e : CooEntry K}, e ∈ own → e ∈ own ++ [entry] := fun he => List.mem_append_left _ he
  by_cases hzero : entry.val = 0
  · rw [if_pos hzero]
    constructor
    · exact fun hall => h.blank fun e he => hall e (hmem he)
    · rintro ⟨e, he, hne⟩
      have hown : ∃ e ∈ own, e.val ≠ 0 := by
        rcases List.mem_append.mp he with he | he
        · exact ⟨e, he, hne⟩
        · obtain rfl := List.mem_singleton.mp he
          exact absurd hzero hne
      obtain ⟨lo, hlo, ⟨a, ha, ha'⟩, ⟨b, hb, hb'⟩, hall⟩ := h.spread hown
      refine ⟨lo, hlo, ⟨a, hmem ha, ha'⟩, ⟨b, hmem hb, hb'⟩, ?_⟩
      intro e he hne
      rcases List.mem_append.mp he with he | he
      · exact hall e he hne
      · obtain rfl := List.mem_singleton.mp he
        exact absurd hzero hne
  · rw [if_neg hzero]
    constructor
    · exact fun hall => absurd (hall entry hlast) hzero
    · intro _
      by_cases hown : ∃ e ∈ own, e.val ≠ 0
      · obtain ⟨lo, hlo, ⟨a, ha, hane, haeq⟩, ⟨b, hb, hbne, hbeq⟩, hall⟩ := h.spread hown
        rw [hlo, Option.map_some, Option.getD_some]
        refine ⟨min lo |entry.val|, rfl, ?_, ?_, ?_⟩
        · rcases min_choice lo |entry.val| with hmin | hmin
          · exact ⟨a, hmem ha, hane, by rw [haeq, hmin]⟩
          · exact ⟨entry, hlast, hzero, hmin.symm⟩
        · rcases max_choice extent.2 |entry.val| with hmax | hmax
          · exact ⟨b, hmem hb, hbne, by rw [hbeq]; exact hmax.symm⟩
          · exact ⟨entry, hlast, hzero, hmax.symm⟩
        · intro e he hne
          rcases List.mem_append.mp he with he | he
          · obtain ⟨hle, hge⟩ := hall e he hne
            exact ⟨(min_le_left _ _).trans hle, hge.trans (le_max_left _ _)⟩
          · obtain rfl := List.mem_singleton.mp he
            exact ⟨min_le_right _ _, le_max_right _ _⟩
      · have hblank : extent = (none, 0) := h.blank fun e he => by
          by_contra hne
          exact hown ⟨e, he, hne⟩
        subst hblank
        have hmax : max (0 : K) |entry.val| = |entry.val| := max_eq_right (abs_nonneg _)
        refine ⟨|entry.val|, rfl, ⟨entry, hlast, hzero, rfl⟩, ⟨entry, hlast, hzero, hmax.symm⟩, ?_⟩
        intro e he hne
        rcases List.mem_append.mp he with he | he
        · exact absurd ⟨e, he, hne⟩ hown
        · obtain rfl := List.mem_singleton.mp he
          exact ⟨le_refl _, hmax.ge⟩

omit [FloorSemiring K] in
theorem isExtent_rowExtent (entries : List (CooEntry K)) (r : Nat) :
    IsExtent (entries.filter fun entry => entry.row = r) (rowExtent entries r) := by
  induction entries using List.reverseRecOn with
  | nil => exact ⟨fun _ => rfl, fun h => by simp at h⟩
  | append_singleton entries entry ih =>
    unfold rowExtent at ih ⊢
    rw [List.foldl_append, List.foldl_cons, List.foldl_nil, List.filter_append]
    by_cases hr : entry.row = r
    · rw [List.filter_cons_of_pos (by simpa using hr), List.filter_nil]
      have hstep : ∀ extent, extendRow r extent entry = if entry.val = 0 then extent
          else (some ((extent.1.map (min · |entry.val|)).getD |entry.val|), max extent.2 |entry.val|) := by
        intro extent
        unfold extendRow
        simp [hr]
      rw [hstep]
      exact ih.concat entry
    · rw [List.filter_cons_of_neg (by simpa using hr), List.filter_nil, List.append_nil, extendRow,
        if_pos (.inr hr)]
      exact ih

variable {constraints : List (SolverRow K)} {r : Nat} {row : SolverRow K}

omit [FloorSemiring K] in
/-- The extent of a row is that of its terms. -/
theorem rowExtent_row (hrow : constraints[r]? = some row) :
    (¬ row.HasCoefficient → (rowExtent (cooEntries constraints) r).2 = 0) ∧
      (row.HasCoefficient → ∃ lo, (rowExtent (cooEntries constraints) r).1 = some lo ∧
        (∃ t ∈ row.form, t.2 ≠ 0 ∧ |t.2| = lo) ∧
        (∃ t ∈ row.form, t.2 ≠ 0 ∧ |t.2| = (rowExtent (cooEntries constraints) r).2) ∧
        ∀ t ∈ row.form, t.2 ≠ 0 → lo ≤ |t.2| ∧ |t.2| ≤ (rowExtent (cooEntries constraints) r).2) := by
  have h := isExtent_rowExtent (cooEntries constraints) r
  rw [filter_cooEntries hrow] at h
  constructor
  · intro hblank
    rw [h.blank ?_]
    intro entry hentry
    obtain ⟨t, ht, rfl⟩ := List.mem_map.mp hentry
    by_contra hne
    exact hblank ⟨t, ht, hne⟩
  · rintro ⟨t, ht, hne⟩
    obtain ⟨lo, hlo, ⟨a, ha, hane, haeq⟩, ⟨b, hb, hbne, hbeq⟩, hall⟩ :=
      h.spread ⟨_, List.mem_map.mpr ⟨t, ht, rfl⟩, hne⟩
    obtain ⟨ta, hta, rfl⟩ := List.mem_map.mp ha
    obtain ⟨tb, htb, rfl⟩ := List.mem_map.mp hb
    exact ⟨lo, hlo, ⟨ta, hta, hane, haeq⟩, ⟨tb, htb, hbne, hbeq⟩,
      fun t ht hne => hall _ (List.mem_map.mpr ⟨t, ht, rfl⟩) hne⟩

omit [FloorSemiring K] in
theorem abs_ldexp (v : K) (k : ℤ) : |ldexp v k| = |v| * 2 ^ k := by
  unfold ldexp
  rw [abs_mul, abs_of_pos (show (0 : K) < 2 ^ k from zpow_pos (by norm_num) k)]

omit [FloorSemiring K] in
theorem rowBound_nonneg (row : SolverRow K) : 0 ≤ rowBound row := by
  unfold rowBound
  cases row.rhs.finiteValue with
  | none => exact le_refl 0
  | some b => exact abs_nonneg b

omit [FloorSemiring K] in
theorem inWindow_iff {lo hi : K} (hlo : ∃ t ∈ row.form, t.2 ≠ 0 ∧ |t.2| = lo)
    (hhi : ∃ t ∈ row.form, t.2 ≠ 0 ∧ |t.2| = hi)
    (hall : ∀ t ∈ row.form, t.2 ≠ 0 → lo ≤ |t.2| ∧ |t.2| ≤ hi) (k : ℤ) :
    row.InWindow k ↔ ExtentInWindow lo hi (rowBound row) k := by
  have hpow : (0 : K) < 2 ^ k := zpow_pos (by norm_num) k
  have hbound : (∀ b, row.rhs.finiteValue = some b → |ldexp b k| < highsInfiniteBound) ↔
      rowBound row * 2 ^ k < highsInfiniteBound := by
    unfold rowBound
    cases row.rhs.finiteValue with
    | none =>
      rw [Option.map_none, Option.getD_none, zero_mul]
      exact iff_of_true (fun b hb => by cases hb) highsInfiniteBound_pos
    | some b =>
      rw [Option.map_some, Option.getD_some, ← abs_ldexp]
      exact ⟨fun h => h b rfl, fun h c hc => by cases hc; exact h⟩
  constructor
  · intro h
    obtain ⟨a, ha, hane, rfl⟩ := hlo
    obtain ⟨b, hb, hbne, rfl⟩ := hhi
    exact ⟨abs_ldexp a.2 k ▸ (h.coefficients a ha hane).1, abs_ldexp b.2 k ▸ (h.coefficients b hb hbne).2,
      hbound.mp h.bound⟩
  · intro h
    refine ⟨?_, hbound.mpr h.bound⟩
    intro t ht hne
    obtain ⟨hle, hge⟩ := hall t ht hne
    rw [abs_ldexp]
    exact ⟨h.small.trans_le (mul_le_mul_of_nonneg_right hle hpow.le),
      (mul_le_mul_of_nonneg_right hge hpow.le).trans_lt h.large⟩

/-- What is chosen for a row with a coefficient. -/
theorem scaleOfRow_spec (hrow : constraints[r]? = some row) (hcoef : row.HasCoefficient) :
    ((scaleOfRow (cooEntries constraints) row r).1 = .ok ↔ ∃ k, row.InWindow k) ∧
      ((scaleOfRow (cooEntries constraints) row r).1 = .ok →
        row.InWindow (scaleOfRow (cooEntries constraints) row r).2) := by
  obtain ⟨lo, hlo, hlo', hhi', hall⟩ := (rowExtent_row hrow).2 hcoef
  have hlopos : 0 < lo := by
    obtain ⟨t, -, hne, rfl⟩ := hlo'
    exact abs_pos.mpr hne
  have hhipos : 0 < (rowExtent (cooEntries constraints) r).2 := by
    obtain ⟨t, -, hne, heq⟩ := hhi'
    rw [← heq]
    exact abs_pos.mpr hne
  have h := chooseHighsRowScale_spec hlopos hhipos (rowBound_nonneg row)
  simp only [inWindow_iff hlo' hhi' hall]
  unfold scaleOfRow
  rw [hlo, Option.getD_some]
  exact h

/-! ## The rows -/

/-- The exponent a row is handed over with: none but zero without a coefficient, and one inside the window
with one. -/
theorem exponentOfRow_ok (hrow : constraints[r]? = some row) {k : ℤ}
    (h : exponentOfRow (cooEntries constraints) (row, r) = .ok k) :
    (¬ row.HasCoefficient → k = 0) ∧ (row.HasCoefficient → row.InWindow k) := by
  unfold exponentOfRow at h
  constructor
  · intro hblank
    rw [if_pos ((rowExtent_row hrow).1 hblank)] at h
    cases h
    rfl
  · intro hcoef
    obtain ⟨lo, -, -, ⟨t, -, hne, heq⟩, -⟩ := (rowExtent_row hrow).2 hcoef
    have hhi : (rowExtent (cooEntries constraints) r).2 ≠ 0 := by
      rw [← heq]
      exact abs_ne_zero.mpr hne
    rw [if_neg hhi] at h
    have hspec := (scaleOfRow_spec hrow hcoef).2
    dsimp only at h
    cases hscale : scaleOfRow (cooEntries constraints) row r with
    | mk why j =>
      rw [hscale] at h hspec
      cases why with
      | ok =>
        cases h
        exact hspec rfl
      | spreadTooWide => cases h
      | boundTooLarge => cases h

omit [LinearOrder K] [IsStrictOrderedRing K] [FloorSemiring K] in
theorem scaleEntry_eq (exponent : List ℤ) (entry : CooEntry K) :
    scaleEntry exponent entry = { entry with val := ldexp entry.val (exponent.getD entry.row 0) } := by
  unfold scaleEntry
  split
  · rename_i hzero
    rw [hzero, ldexp, zpow_zero, mul_one]
  · rfl

/-- The range of a row after scaling: the side of the sense moves. -/
def scaledRange (sense : Sense) (rhs : SolverRhs K) (k : ℤ) : RowRange K :=
  match rhs.finiteValue with
  | none => rowRange sense rhs
  | some b => rowRange sense (SolverRhs.fin (ldexp b k))

omit [Field K] [LinearOrder K] [IsStrictOrderedRing K] [FloorSemiring K] in
theorem SolverRhs.eq_fin {rhs : SolverRhs K} {b : K} (h : rhs.finiteValue = some b) : rhs = SolverRhs.fin b := by
  rcases rhs with _ | _ | k
  · cases h
  · cases h
  · cases h
    rfl

omit [LinearOrder K] [IsStrictOrderedRing K] [FloorSemiring K] in
theorem scaleRange_eq (exponent : List ℤ) (row : SolverRow K) (r : Nat) :
    scaleRange exponent (row, r) = scaledRange row.sense row.rhs (exponent.getD r 0) := by
  unfold scaleRange scaledRange
  cases hfin : row.rhs.finiteValue with
  | none => rfl
  | some b =>
    dsimp only
    split
    · rename_i hzero
      rw [hzero, ldexp, zpow_zero, mul_one, ← SolverRhs.eq_fin hfin]
    · cases row.sense <;> rfl

omit [IsStrictOrderedRing K] in
/-- What a row is handed over as: its terms times a power of two, and its range with them. -/
theorem scaleRowsIntoHighsWindow_ok {scaled : List (CooEntry K) × List (RowRange K)}
    (h : scaleRowsIntoHighsWindow constraints (cooEntries constraints) = .ok scaled) :
    scaled.2.length = constraints.length ∧ (∀ entry ∈ scaled.1, entry.row < constraints.length) ∧
      ∀ (r : Nat) (row : SolverRow K), constraints[r]? = some row → ∃ k, exponentOfRow (cooEntries constraints) (row, r) = .ok k ∧
        scaled.2[r]? = some (scaledRange row.sense row.rhs k) ∧
        scaled.1.filter (fun entry => entry.row = r) =
          row.form.map fun t => ⟨r, t.1, ldexp t.2 k⟩ := by
  unfold scaleRowsIntoHighsWindow at h
  cases hexp : constraints.zipIdx.mapM (exponentOfRow (cooEntries constraints)) with
  | error refusal =>
    rw [hexp] at h
    cases h
  | ok exponent =>
    rw [hexp] at h
    dsimp only at h
    have hlen : exponent.length = constraints.length := by
      rw [length_of_mapM hexp, List.length_zipIdx]
    -- With no exponent to apply the two branches hand over the same.
    have hscaled : scaled = ((cooEntries constraints).map (scaleEntry exponent),
        constraints.zipIdx.map (scaleRange exponent)) := by
      split at h
      · rename_i hall
        have hzero : ∀ i, exponent.getD i 0 = 0 := by
          intro i
          rw [List.getD_eq_getElem?_getD]
          cases hi : exponent[i]? with
          | none => rfl
          | some k => exact beq_iff_eq.mp (List.all_eq_true.mp hall k (List.mem_of_getElem? hi))
        cases h
        refine Prod.ext ?_ ?_
        · have hid : scaleEntry (K := K) exponent = id := by
            funext entry
            rw [scaleEntry, if_pos (hzero _)]
            rfl
          rw [hid, List.map_id]
        · have hrange : ∀ p : SolverRow K × Nat, scaleRange exponent p = rowRange p.1.sense p.1.rhs := by
            intro p
            rw [scaleRange_eq exponent p.1 p.2, hzero, scaledRange]
            cases hfin : p.1.rhs.finiteValue with
            | none => rfl
            | some b =>
              dsimp only
              rw [ldexp, zpow_zero, mul_one, ← SolverRhs.eq_fin hfin]
          rw [List.map_congr_left fun p _ => hrange p]
          change _ = constraints.zipIdx.map ((fun row : SolverRow K => rowRange row.sense row.rhs) ∘ Prod.fst)
          rw [← List.map_map, List.zipIdx_map_fst]
      · cases h
        rfl
    subst hscaled
    refine ⟨by rw [List.length_map, List.length_zipIdx], ?_, ?_⟩
    · intro entry hentry
      obtain ⟨entry', hentry', rfl⟩ := List.mem_map.mp hentry
      rw [scaleEntry_eq]
      change entry'.row < _
      exact row_lt_of_mem_cooEntries hentry'
    intro r row hrow
    have hpair : constraints.zipIdx[r]? = some (row, r) := by
      rw [List.getElem?_zipIdx, hrow, Option.map_some, Nat.zero_add]
    obtain ⟨k, hk, hok⟩ := mapM_getElem? hexp hpair
    have hget : exponent.getD r 0 = k := by
      rw [List.getD_eq_getElem?_getD, hk]
      rfl
    refine ⟨k, hok, ?_, ?_⟩
    · dsimp only
      rw [List.getElem?_map, hpair, Option.map_some, scaleRange_eq, hget]
    · dsimp only
      have hfilter : ((cooEntries constraints).map (scaleEntry exponent)).filter (fun entry => entry.row = r) =
          ((cooEntries constraints).filter fun entry => entry.row = r).map (scaleEntry exponent) := by
        rw [List.filter_map]
        congr 1
        refine List.filter_congr fun entry _ => ?_
        simp only [Function.comp_apply, scaleEntry_eq]
      rw [hfilter, filter_cooEntries hrow, List.map_map]
      refine List.map_congr_left fun t _ => ?_
      rw [Function.comp_apply, scaleEntry_eq]
      dsimp only
      rw [hget]

omit [LinearOrder K] [IsStrictOrderedRing K] [FloorSemiring K] in
/-- The packed entries of a row. -/
theorem slice_packRows {entries : List (CooEntry K)} {n r : Nat} (hlt : ∀ entry ∈ entries, entry.row < n)
    (hr : r < n) : slice (packRows n entries).1 (packRows n entries).2 r =
      (entries.filter fun entry => entry.row = r).map fun entry => (entry.col, entry.val) := by
  unfold packRows
  rw [slice_countingSort _ _ _ hr, map_entriesOf_list]
  intro i g hi hg
  rw [List.getElem?_eq_getElem hi, Option.map_some, Option.some_inj] at hg
  exact hg ▸ hlt _ (List.getElem_mem hi)

omit [LinearOrder K] [IsStrictOrderedRing K] [FloorSemiring K] in
theorem eval_map_ldexp (form : Form Nat K) (k : ℤ) (x : Nat → K) :
    Form.eval (form.map fun t => (t.1, ldexp t.2 k)) x = ldexp (form.eval x) k := by
  induction form with
  | nil => simp [ldexp]
  | cons t form ih =>
    rw [List.map_cons, Form.eval_cons, ih, Form.eval_cons]
    unfold ldexp
    ring

omit [LinearOrder K] [IsStrictOrderedRing K] [FloorSemiring K] in
theorem eval_of_blank (hblank : ¬ row.HasCoefficient) (x : Nat → K) : row.form.eval x = 0 := by
  have hzero : ∀ t ∈ row.form, t.2 = 0 := by
    intro t ht
    by_contra hne
    exact hblank ⟨t, ht, hne⟩
  unfold Form.eval
  refine List.sum_eq_zero fun v hv => ?_
  obtain ⟨t, ht, rfl⟩ := List.mem_map.mp hv
  rw [hzero t ht, zero_mul]

omit [IsStrictOrderedRing K] [FloorSemiring K] in
theorem isOpenSide_fin (b : K) : IsOpenSide (SolverRhs.fin b) ↔ highsInfiniteBound ≤ |b| :=
  ⟨fun h => h b rfl, fun h k hk => by cases hk; exact h⟩

omit [FloorSemiring K] in
theorem isOpenSide_noBound :
    IsOpenSide (SolverRhs.fin (highsNoBound : K)) ∧ IsOpenSide (SolverRhs.fin (-highsNoBound : K)) := by
  have h : (highsInfiniteBound : K) ≤ |highsNoBound| := by
    have hpos : (0 : K) < 10 ^ 30 := by positivity
    unfold highsInfiniteBound highsNoBound
    rw [abs_of_pos hpos]
    exact pow_le_pow_right₀ (by norm_num) (by norm_num)
  rw [isOpenSide_fin, isOpenSide_fin, abs_neg]
  exact ⟨h, h⟩

omit [FloorSemiring K] in
/-- A range with a bound HiGHS holds is met as the row is. -/
theorem admits_rowRange {b : K} (hb : |b| < highsInfiniteBound) (sense : Sense) (v : K) :
    (rowRange sense (SolverRhs.fin b)).Admits v ↔ MeetsRhs sense v (SolverRhs.fin b) := by
  have hclosed : ¬ IsOpenSide (SolverRhs.fin b) := by
    rw [isOpenSide_fin]
    exact not_le.mpr hb
  unfold RowRange.Admits
  cases sense with
  | ge =>
    dsimp only [rowRange]
    constructor
    · rintro ⟨hlower, -⟩
      exact hlower.resolve_left hclosed
    · exact fun h => ⟨.inr h, .inl isOpenSide_noBound.1⟩
  | le =>
    dsimp only [rowRange]
    constructor
    · rintro ⟨-, hupper⟩
      exact hupper.resolve_left hclosed
    · exact fun h => ⟨.inl isOpenSide_noBound.2, .inr h⟩
  | eq =>
    dsimp only [rowRange]
    constructor
    · rintro ⟨hlower, hupper⟩
      exact le_antisymm (hupper.resolve_left hclosed) (hlower.resolve_left hclosed)
    · exact fun h => ⟨.inr (le_of_eq (Eq.symm h)), .inr (le_of_eq h)⟩

omit [FloorSemiring K] in
theorem admits_of_openBound {b : K} (hb : highsInfiniteBound ≤ |b|) (sense : Sense) (v : K) :
    (rowRange sense (SolverRhs.fin b)).Admits v := by
  have hopen := (isOpenSide_fin b).mpr hb
  cases sense with
  | ge => exact ⟨.inl hopen, .inl isOpenSide_noBound.1⟩
  | le => exact ⟨.inl isOpenSide_noBound.2, .inl hopen⟩
  | eq => exact ⟨.inl hopen, .inl hopen⟩

omit [FloorSemiring K] in
/-- A row multiplied through with its bound is the same row. -/
theorem meetsRhs_ldexp (sense : Sense) (v b : K) (k : ℤ) :
    MeetsRhs sense (ldexp v k) (SolverRhs.fin (ldexp b k)) ↔ MeetsRhs sense v (SolverRhs.fin b) := by
  have hpow : (0 : K) < 2 ^ k := zpow_pos (by norm_num) k
  unfold ldexp
  cases sense with
  | le => rw [meetsRhs_le_fin, meetsRhs_le_fin, mul_le_mul_iff_of_pos_right hpow]
  | ge => rw [meetsRhs_ge_fin, meetsRhs_ge_fin, mul_le_mul_iff_of_pos_right hpow]
  | eq => rw [meetsRhs_eq_fin, meetsRhs_eq_fin, mul_left_inj' hpow.ne']

omit [FloorSemiring K] in
/-- An infinite bound that can be reached holds of everything, and is read as none. -/
theorem admits_of_infinite {sense : Sense} {rhs : SolverRhs K} (hfin : rhs.finiteValue = none)
    (hreach : isUnreachableBound sense rhs = false) (v : K) :
    (rowRange sense rhs).Admits v ∧ MeetsRhs sense v rhs := by
  have hopen : IsOpenSide rhs := fun k hk => by
    rw [hfin] at hk
    cases hk
  rcases rhs with _ | _ | b
  · cases sense with
    | ge => exact ⟨⟨.inl hopen, .inl isOpenSide_noBound.1⟩, bot_le⟩
    | le => cases hreach
    | eq => cases hreach
  · cases sense with
    | le => exact ⟨⟨.inl isOpenSide_noBound.2, .inl hopen⟩, le_top⟩
    | ge => cases hreach
    | eq => cases hreach
  · cases hfin

/-- **A row is handed over as the same row**, unless it has no coefficient and a bound HiGHS does not hold. -/
theorem admits_scaledRange (hrow : constraints[r]? = some row)
    (hreach : isUnreachableBound row.sense row.rhs = false) (hkept : ¬ row.Dropped) {k : ℤ}
    (hk : exponentOfRow (cooEntries constraints) (row, r) = .ok k) (x : Nat → K) :
    (scaledRange row.sense row.rhs k).Admits (ldexp (row.form.eval x) k) ↔ row.Holds x := by
  obtain ⟨hblank, hcoef⟩ := exponentOfRow_ok hrow hk
  unfold SolverRow.Holds scaledRange
  cases hfin : row.rhs.finiteValue with
  | none =>
    exact iff_of_true (admits_of_infinite hfin hreach _).1 (admits_of_infinite hfin hreach _).2
  | some b =>
    dsimp only
    by_cases hc : row.HasCoefficient
    · rw [admits_rowRange ((hcoef hc).bound b hfin), meetsRhs_ldexp, ← SolverRhs.eq_fin hfin]
    · have hv := eval_of_blank hc x
      have hid : ∀ t : K, ldexp t k = t := by
        intro t
        rw [hblank hc, ldexp, zpow_zero, mul_one]
      rw [hid, hid]
      by_cases hb : highsInfiniteBound ≤ |b|
      · refine iff_of_true (admits_of_openBound hb _ _) ?_
        by_contra hnot
        exact hkept ⟨hc, ⟨b, hfin, hb⟩, hv ▸ hnot⟩
      · rw [admits_rowRange (not_le.mp hb), ← SolverRhs.eq_fin hfin]

/-! ## The objective -/

omit [LinearOrder K] [IsStrictOrderedRing K] [FloorSemiring K] in
/-- Column by column, the doubled diagonal under the half gives the plain products. -/
theorem quadraticValue_packHessian [CharZero K] {n : Nat} {q : Form (Nat × Nat) K} (hlt : ∀ t ∈ q, t.1.2 < n)
    (x : Nat → K) :
    ((List.range n).map fun j => ((slice (packHessian n q).1 (packHessian n q).2 j).map fun t =>
      if t.1 = j then t.2 * (x j * x j) / 2 else t.2 * (x t.1 * x j)).sum).sum =
        Form.eval q fun p => x p.1 * x p.2 := by
  have hslice : ∀ j, j < n → slice (packHessian n q).1 (packHessian n q).2 j =
      (q.filter fun t => t.1.2 = j).map fun t => (t.1.1, if t.1.1 = t.1.2 then 2 * t.2 else t.2) := by
    intro j hj
    unfold packHessian
    rw [slice_countingSort _ _ _ hj, map_entriesOf_list]
    intro i g hi hg
    rw [List.getElem?_eq_getElem hi, Option.map_some, Option.some_inj] at hg
    exact hg ▸ hlt _ (List.getElem_mem hi)
  have hcolumn : ∀ j ∈ List.range n, ((slice (packHessian n q).1 (packHessian n q).2 j).map fun t =>
      if t.1 = j then t.2 * (x j * x j) / 2 else t.2 * (x t.1 * x j)).sum =
        ((q.filter fun t => t.1.2 = j).map fun t => t.2 * (x t.1.1 * x t.1.2)).sum := by
    intro j hj
    rw [hslice j (List.mem_range.mp hj), List.map_map]
    congr 1
    refine List.map_congr_left fun t ht => ?_
    have hcol : t.1.2 = j := by simpa using (List.mem_filter.mp ht).2
    rw [Function.comp_apply, hcol]
    by_cases hdiag : t.1.1 = j
    · rw [if_pos hdiag, if_pos hdiag, hdiag]
      ring
    · rw [if_neg hdiag, if_neg hdiag]
  rw [List.map_congr_left hcolumn, sum_map_filter_range q (fun t => t.1.2) _ hlt]
  rfl

omit [LinearOrder K] [IsStrictOrderedRing K] [FloorSemiring K] in
theorem objectiveValue_highsProblem [CharZero K] {model : SolverModel K} (hq : model.IsLowerTriangular)
    (entries : List (CooEntry K)) (rows : List (RowRange K)) (x : Nat → K) :
    (highsProblem model entries rows).objectiveValue x = model.objectiveValue x := by
  have hlinear : ((model.columns.map (·.objCoeff)).zipIdx.map fun p => (p.2, p.1)) = model.objective := by
    rw [List.zipIdx_map, List.map_map]
    rfl
  have hquad : (highsProblem model entries rows).quadraticValue x =
      if model.hasQuadraticObj then model.quadraticObjective.eval fun p => x p.1 * x p.2 else 0 := by
    unfold HighsProblem.quadraticValue highsProblem
    dsimp only
    cases model.hasQuadraticObj with
    | false => rfl
    | true =>
      cases hempty : model.quadraticObjective.isEmpty with
      | true =>
        rw [List.isEmpty_iff.mp hempty]
        rfl
      | false =>
        rw [List.length_map]
        exact quadraticValue_packHessian (fun t ht => (hq t ht).1.trans_lt (hq t ht).2) x
  change 0 + Form.eval ((model.columns.map (·.objCoeff)).zipIdx.map fun p => (p.2, p.1)) x +
    (highsProblem model entries rows).quadraticValue x = _
  rw [hlinear, hquad, zero_add]
  rfl

/-- A coefficient past the window with a bound past the one HiGHS holds, and a cross term. -/
def heavyRowModel : SolverModel ℚ where
  columns := [⟨0, 1, false, false, 1⟩, ⟨0, 1, false, false, 0⟩]
  constraints := [⟨[(0, 4 * 10 ^ 15), (1, 1)], .ge, SolverRhs.fin (10 ^ 25), {}⟩]
  quadraticObjective := [((0, 0), 3), ((1, 0), 2)]
  hasQuadraticObj := true

/-- `0 >= 1e25`, the row of a clause all of whose coefficients cancelled. -/
def blankRowModel : SolverModel ℚ where
  columns := [⟨0, 1, false, false, 1⟩]
  constraints := [⟨[], .ge, SolverRhs.fin (10 ^ 25), {}⟩]

end Decidb
