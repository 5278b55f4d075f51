import Decidb.Execution.AvgScaling
import Decidb.Execution.Proofs.QualifiedReducerProofs

/-!
# An AVG is the average over the rows it reduces

Wherever the denominator is counted it is the number of rows the sum ranges over. So an AVG is exact as
far as the qualifier keeps its tuples, and a hoisted one where it reduces the whole group.
-/

namespace Decidb

open Relational

/-! ## Bodies -/

theorem AvgBody.value_linear (terms : List BodyTerm) (i : Nat) :
    AvgBody.linear.value terms i = (terms.map fun t => t.coefficient i * t.factor i).sum := rfl

/-- Scaling every coefficient scales the value. -/
theorem sum_scaledCoefficient {den : Nat} (hden : den ≠ 0) (terms : List BodyTerm) (i : Nat) :
    (terms.map fun t => scaledCoefficient den (t.coefficient i) * t.factor i).sum =
      (terms.map fun t => t.coefficient i * t.factor i).sum / den := by
  induction terms with
  | nil => simp
  | cons t terms ih =>
    rw [List.map_cons, List.sum_cons, ih, List.map_cons, List.sum_cons, scaledCoefficient,
      if_neg hden]
    ring

/-- Scaling the coefficients of an inner expression by a root scales its square. -/
theorem sum_scaledInner_sq {den : Nat} (hden : den ≠ 0) (terms : List BodyTerm) (i : Nat) :
    (terms.map fun t => scaledInner den (t.coefficient i) * (t.factor i : ℝ)).sum ^ 2 =
      ((((terms.map fun t => t.coefficient i * t.factor i).sum ^ 2 / den : ℚ)) : ℝ) := by
  have hsum : (terms.map fun t => scaledInner den (t.coefficient i) * (t.factor i : ℝ)).sum =
      (((terms.map fun t => t.coefficient i * t.factor i).sum : ℚ) : ℝ) * (1 / Real.sqrt den) := by
    induction terms with
    | nil => simp
    | cons t terms ih =>
      rw [List.map_cons, List.sum_cons, ih, List.map_cons, List.sum_cons, scaledInner, if_neg hden,
        Rat.cast_add, Rat.cast_mul]
      ring
  have hroot : (1 / Real.sqrt den) ^ 2 = 1 / (den : ℝ) := by
    rw [div_pow, one_pow, Real.sq_sqrt (Nat.cast_nonneg den)]
  rw [hsum, mul_pow, hroot, Rat.cast_div, Rat.cast_pow, Rat.cast_natCast]
  ring

/-- The values on the kept rows of a list, over a count. -/
theorem sum_masked_div (rows : List Nat) (mask : Nat → Bool) (v : Nat → ℚ) (den : ℚ) :
    (rows.map fun r => if mask r then v r / den else 0).sum =
      ((rows.filter mask).map v).sum / den := by
  induction rows with
  | nil => simp
  | cons r rows ih =>
    rw [List.map_cons, List.sum_cons, ih, List.filter_cons]
    by_cases h : mask r = true
    · rw [if_pos h, if_pos h, List.map_cons, List.sum_cons]
      ring
    · rw [if_neg h, if_neg h, zero_add]

namespace AvgReducer

variable {q : AvgReducer} {row r : Nat}

/-! ## The rows of the sum -/

theorem maskedRows_qualified (h : q.qualified = true) : q.maskedRows row = q.reducedRows row := by
  unfold maskedRows QualifiedReducer.reducedRows mask
  rw [if_pos h]

theorem maskedRows_unqualified (h : q.qualified = false) (hrow : row < q.numRows)
    (hsome : (q.groupOf row).isSome) : q.maskedRows row = q.survivors row := by
  unfold maskedRows mask
  rw [if_neg (by simp [h]), QualifiedReducer.survivors_eq hrow hsome]

theorem filter_groupRows : (q.groupRows row).filter q.mask = q.maskedRows row := by
  unfold groupRows maskedRows
  rw [List.filter_filter]
  refine List.filter_congr fun r _ => ?_
  rw [Bool.and_comm]

/-- The WHEN that gates a denominator keeps every row of a group. -/
theorem admits_whenMask (hr : r < q.numRows) (hsome : (q.groupOf r).isSome) :
    admits q.whenMask r = true := by
  unfold whenMask
  split
  · exact ((QualifiedReducer.groupOf_isSome_iff hr).mp hsome).2
  · rfl

/-- **The denominator of a row is the number of rows summed in its group.** -/
theorem denominator_eq (hsite : q.site = .constraint ∨ q.site = .objective)
    (hsome : (q.groupOf r).isSome) : q.denominator r = (q.maskedRows r).length := by
  have hgrouped : ∀ w, q.maskGroupIds = q.groups.rowGroupIds → q.groupOf = q.groups.groupOf →
      (q.groups.rowGroupIds = none → w = none) →
      avgDenominator q.maskGroupIds q.numRows q.mask w r = (q.maskedRows r).length := by
    intro w hids hgroup hw
    unfold maskedRows avgDenominator
    rw [hgroup] at hsome ⊢
    rw [hids]
    unfold RowGroups.groupOf at hsome ⊢
    cases hcase : q.groups.rowGroupIds with
    | none => simp [hw hcase, admits]
    | some ids =>
      simp only [hcase] at hsome ⊢
      obtain ⟨g, hg⟩ := Option.isSome_iff_exists.mp hsome
      simp only [hg]
  unfold denominator
  rcases hsite with hsite | hsite
  · refine hgrouped _ ?_ ?_ fun _ => ?_
    · unfold QualifiedReducer.maskGroupIds
      rw [hsite]
    · funext i
      unfold QualifiedReducer.groupOf
      rw [hsite]
    · unfold whenMask
      rw [if_neg (by rw [hsite]; simp)]
  · cases hper : q.perColumns with
    | some columns =>
      refine hgrouped _ ?_ ?_ fun hnone => ?_
      · unfold QualifiedReducer.maskGroupIds
        simp [hsite, hper]
      · funext i
        unfold QualifiedReducer.groupOf
        simp [hsite, hper]
      · unfold QualifiedReducer.groups assignRowGroups at hnone
        rw [hper] at hnone
        cases hnone
    | none =>
      have hids : q.maskGroupIds = none := by
        unfold QualifiedReducer.maskGroupIds
        simp [hsite, hper]
      have hgroup : ∀ i, q.groupOf i = if admits q.whenCondition i then some 0 else none := by
        intro i
        unfold QualifiedReducer.groupOf
        simp [hsite, hper]
      have hwhen : admits q.whenCondition r = true := by
        by_contra h
        rw [hgroup, if_neg h] at hsome
        cases hsome
      unfold avgDenominator maskedRows whenMask
      rw [hids, if_pos hsite]
      simp only
      congr 1
      refine List.filter_congr fun i _ => ?_
      congr 1
      rw [hgroup, hgroup, if_pos hwhen]
      by_cases h : admits q.whenCondition i = true <;> simp [h]

/-! ## What is emitted -/

/-- A row of the sum stands for its value over the count, any other for nothing. -/
theorem scaledRow_eq (hsite : q.site = .constraint ∨ q.site = .objective) (hr : r < q.numRows)
    (hsome : (q.groupOf r).isSome) (terms : List BodyTerm) :
    q.scaledRow terms r = (((if q.mask r then
      q.body.value terms (q.index r) /
        (q.maskedRows r).length else 0 : ℚ)) : ℝ) := by
  unfold scaledRow maskedCoefficient
  rw [denominator_eq hsite hsome, admits_whenMask hr hsome, Bool.and_true]
  by_cases hmask : q.mask r = true
  · have hden : (q.maskedRows r).length ≠ 0 := by
      have hmem : r ∈ q.maskedRows r := by
        unfold maskedRows
        exact List.mem_filter.mpr ⟨List.mem_range.mpr hr, by simp [hmask]⟩
      exact List.length_pos_iff.mpr (List.ne_nil_of_mem hmem) |>.ne'
    simp only [hmask, if_true]
    unfold AvgBody.value
    cases q.body with
    | squared =>
      simp only
      rw [sum_scaledInner_sq hden]
    | linear | product =>
      simp only
      rw [sum_scaledCoefficient hden]
  · simp only [hmask, Bool.false_eq_true, if_false]
    have hzero : ∀ f : BodyTerm → ℚ, (terms.map fun t =>
        scaledCoefficient (q.maskedRows r).length 0 * f t).sum = 0 := by
      intro f
      refine List.sum_eq_zero fun x hx => ?_
      obtain ⟨t, -, rfl⟩ := List.mem_map.mp hx
      simp [scaledCoefficient]
    have hinner : (terms.map fun t => scaledInner (q.maskedRows r).length 0 *
        (t.factor (q.index r) : ℝ)).sum = 0 := by
      refine List.sum_eq_zero fun x hx => ?_
      obtain ⟨t, -, rfl⟩ := List.mem_map.mp hx
      simp [scaledInner]
    cases q.body with
    | squared => simp only [hinner]; simp
    | linear | product => simp only [hzero]

/-- **What is emitted for a group is the average over the rows summed there.** -/
theorem emitted_eq (hsome : (q.groupOf row).isSome) (terms : List BodyTerm) :
    q.emitted terms row = ((((q.maskedRows row).map fun r => q.body.value terms (q.index r)).sum /
      (q.maskedRows row).length : ℚ) : ℝ) := by
  have hscaled : q.site = .constraint ∨ q.site = .objective →
      ((q.groupRows row).map (q.scaledRow terms)).sum =
        ((((q.maskedRows row).map fun r => q.body.value terms (q.index r)).sum /
          (q.maskedRows row).length : ℚ) : ℝ) := by
    intro hsite
    have hrows : (q.groupRows row).map (q.scaledRow terms) =
        ((q.groupRows row).map fun r => if q.mask r then q.body.value terms (q.index r) /
          (q.maskedRows row).length else 0).map fun x : ℚ => (x : ℝ) := by
      rw [List.map_map]
      refine List.map_congr_left fun r hr => ?_
      obtain ⟨hrn, hsame⟩ := List.mem_filter.mp hr
      have hsame : q.groupOf r = q.groupOf row := of_decide_eq_true hsame
      have hcount : q.maskedRows r = q.maskedRows row := by
        unfold maskedRows
        rw [hsame]
      rw [scaledRow_eq hsite (List.mem_range.mp hrn) (hsame ▸ hsome), hcount]
      rfl
    have hcast : ∀ l : List ℚ, (l.map fun x : ℚ => (x : ℝ)).sum = ((l.sum : ℚ) : ℝ) := by
      intro l
      induction l with
      | nil => simp
      | cons x l ih => rw [List.map_cons, List.sum_cons, ih, List.sum_cons, Rat.cast_add]
    rw [hrows, hcast, sum_masked_div, filter_groupRows]
  unfold emitted
  cases hsite : q.site with
  | constraint => exact hscaled (Or.inl hsite)
  | objective => exact hscaled (Or.inr hsite)
  | bound | composed => rfl

/-! ## Averages -/

/-- Distinct members of a list without repetition have its average for every body only if they are all of
it. -/
theorem perm_of_averages {ids all : List Nat} (hids : ids.Nodup) (hall : all.Nodup)
    (hsub : ∀ i ∈ ids, i ∈ all)
    (h : ∀ k, (ids.map fun i => if i = k then (1 : ℚ) else 0).sum / ids.length =
      (all.map fun i => if i = k then (1 : ℚ) else 0).sum / all.length) : ids.Perm all := by
  refine (List.perm_ext_iff_of_nodup hids hall).mpr fun k => ⟨hsub k, fun hk => ?_⟩
  by_contra hlost
  have hzero : (ids.map fun i => if i = k then (1 : ℚ) else 0).sum = 0 := by
    refine List.sum_eq_zero fun x hx => ?_
    obtain ⟨i, hi, rfl⟩ := List.mem_map.mp hx
    refine if_neg fun hik => hlost ?_
    rwa [← hik]
  have hone : 0 < (all.map fun i => if i = k then (1 : ℚ) else 0).sum := by
    refine lt_of_lt_of_le zero_lt_one (List.single_le_sum (fun x hx => ?_) 1 ?_)
    · obtain ⟨i, -, rfl⟩ := List.mem_map.mp hx
      split <;> norm_num
    · exact List.mem_map.mpr ⟨k, hk, if_pos rfl⟩
  have hlen : (0 : ℚ) < all.length := by
    exact_mod_cast List.length_pos_iff.mpr (List.ne_nil_of_mem hk)
  have := h k
  rw [hzero, zero_div] at this
  exact absurd this (div_pos hone hlen).ne

/-- The body that is one on a single row or tuple, whatever its shape. -/
theorem value_indicator (body : AvgBody) (k : Nat) :
    body.value [⟨fun i => if i = k then 1 else 0, fun _ => 1⟩] =
      fun i => if i = k then 1 else 0 := by
  funext i
  cases body <;> by_cases h : i = k <;> simp [AvgBody.value, h]

/-- What is summed survives. -/
theorem mem_survivors_of_masked (hrow : row < q.numRows) (hsome : (q.groupOf row).isSome)
    (hr : r ∈ q.maskedRows row) : r ∈ q.survivors row := by
  cases hq : q.qualified with
  | true =>
    rw [maskedRows_qualified hq, QualifiedReducer.reducedRows_eq hrow hsome] at hr
    exact (List.mem_filter.mp hr).1
  | false => rwa [maskedRows_unqualified hq hrow hsome] at hr

theorem index_mem_contributions (hrow : row < q.numRows) (hsome : (q.groupOf row).isSome) {i : Nat}
    (hi : i ∈ (q.maskedRows row).map q.index) : i ∈ q.contributions row := by
  obtain ⟨r, hr, rfl⟩ := List.mem_map.mp hi
  exact List.mem_dedup.mpr (List.mem_map.mpr ⟨r, mem_survivors_of_masked hrow hsome hr, rfl⟩)

/-- No row or tuple is summed twice. -/
theorem nodup_index (hrow : row < q.numRows) (hsome : (q.groupOf row).isSome) :
    ((q.maskedRows row).map q.index).Nodup := by
  have hrows : (q.maskedRows row).Nodup := (List.nodup_range).filter _
  cases hq : q.qualified with
  | false =>
    refine hrows.map_on fun r _ s _ h => ?_
    unfold index at h
    rwa [if_neg (by simp [hq]), if_neg (by simp [hq])] at h
  | true =>
    refine hrows.map_on fun r hr s hs h => ?_
    have htuple : q.mapping.rowToEntity r = q.mapping.rowToEntity s := by
      unfold index at h
      rwa [if_pos hq, if_pos hq] at h
    rw [maskedRows_qualified hq, QualifiedReducer.reducedRows_eq hrow hsome] at hr hs
    obtain ⟨hr, hrm⟩ := List.mem_filter.mp hr
    obtain ⟨hs, hsm⟩ := List.mem_filter.mp hs
    obtain ⟨hrn, hrg, -⟩ := (QualifiedReducer.mem_survivors hrow hsome).mp hr
    obtain ⟨hsn, hsg, -⟩ := (QualifiedReducer.mem_survivors hrow hsome).mp hs
    refine ((QualifiedReducer.rowMask_iff hrn).mp hrm).2.unique
      ((QualifiedReducer.rowMask_iff hsn).mp hsm).2 ?_
    rw [QualifiedReducer.tupleKey_eq hrn (hrg ▸ hsome),
      QualifiedReducer.tupleKey_eq hsn (hsg ▸ hsome), htuple,
      (QualifiedReducer.groupOf_eq_iff hrn hsn (hrg ▸ hsome) (hsg ▸ hsome)).mp
        (hrg.trans hsg.symm)]

/-- The average is over what is summed exactly if nothing that contributes is missing. -/
theorem average_iff (hrow : row < q.numRows) (hsome : (q.groupOf row).isSome) :
    (∀ terms, q.emitted terms row = (q.average terms row : ℝ)) ↔
      ((q.maskedRows row).map q.index).Perm (q.contributions row) := by
  unfold average
  constructor
  · intro h
    refine perm_of_averages (nodup_index hrow hsome) (List.nodup_dedup _)
      (fun i hi => index_mem_contributions hrow hsome hi) fun k => ?_
    have hk := h [⟨fun i => if i = k then 1 else 0, fun _ => 1⟩]
    rw [emitted_eq hsome, Rat.cast_inj] at hk
    simp only [value_indicator] at hk
    simpa only [List.map_map, List.length_map, Function.comp_def] using hk
  · intro h terms
    rw [emitted_eq hsome, Rat.cast_inj]
    have hsum := (h.map (q.body.value terms)).sum_eq
    have hlen := h.length_eq
    rw [List.map_map] at hsum
    rw [List.length_map] at hlen
    rw [hlen, ← hsum]
    rfl

/-- **An AVG is the average over its rows or tuples exactly if its qualifier, if it has one, loses no
tuple.** -/
theorem averages_iff (q : AvgReducer) : q.Averages ↔ (q.qualified = true → q.FirstRowsSurvive) := by
  unfold Averages
  cases hq : q.qualified with
  | false =>
    refine iff_of_true (fun row hrow hsome => (average_iff hrow hsome).mpr ?_) (by simp)
    have hindex : q.index = id := by
      funext r
      unfold index
      rw [if_neg (by simp [hq])]
      rfl
    unfold contributions
    rw [maskedRows_unqualified hq hrow hsome, hindex, List.map_id, List.dedup_eq_self.mpr]
    exact (List.nodup_range.filter _).filter _
  | true =>
    have hindex : q.index = q.mapping.rowToEntity := by
      funext r
      unfold index
      rw [if_pos hq]
    rw [← QualifiedReducer.reduced_perm_all_iff]
    simp only [true_implies]
    refine forall_congr' fun row => forall_congr' fun hrow => forall_congr' fun hsome => ?_
    rw [average_iff hrow hsome, maskedRows_qualified hq,
      QualifiedReducer.reducedRows_eq hrow hsome, contributions, hindex]
    rfl

end AvgReducer

/-! ## `AVG(e) <> K` -/

/-- A sum over numbered members of which one counts. -/
theorem sum_zipIdx_single {β : Type} (f : β → ℚ) (l : List β) : ∀ start j : Nat,
    ((l.zipIdx start).map fun p => if p.2 = start + j then f p.1 else 0).sum =
      ((l[j]?).map f).getD 0 := by
  induction l with
  | nil => intro start j; simp
  | cons x l ih =>
    intro start j
    rw [List.zipIdx_cons, List.map_cons, List.sum_cons]
    cases j with
    | zero =>
      have htail : ((l.zipIdx (start + 1)).map fun p =>
          if p.2 = start + 0 then f p.1 else 0).sum = 0 := by
        refine List.sum_eq_zero fun y hy => ?_
        obtain ⟨p, hp, rfl⟩ := List.mem_map.mp hy
        have := List.le_snd_of_mem_zipIdx hp
        exact if_neg (by omega)
      rw [htail]
      simp
    | succ j =>
      have hshift : start + (j + 1) = start + 1 + j := by omega
      rw [if_neg (by omega), hshift, ih (start + 1) j, zero_add, List.getElem?_cons_succ]

namespace AvgExclusion

variable {e : AvgExclusion} {q : AvgReducer} {row : Nat}

/-- A reducer of the clause sees the groups of the clause. -/
theorem groupOf_eq (hq : q ∈ e.reducers) : q.groupOf = e.groups.groupOf := by
  obtain ⟨hsite, -, hn, hw, hp, hl⟩ := e.oneClause q hq
  funext r
  unfold QualifiedReducer.groupOf QualifiedReducer.groups groups
  rw [hsite, hn, hw, hp, hl]

theorem groupRows_eq (hq : q ∈ e.reducers) : q.groupRows row = e.groupRows row := by
  unfold AvgReducer.groupRows groupRows
  rw [groupOf_eq hq, (e.oneClause q hq).2.2.1]

/-- The sum is the value over the rows of the reducer. -/
theorem hoistedSum_eq (hq : q ∈ e.reducers) (terms : List BodyTerm) :
    e.hoistedSum q terms row =
      ((q.maskedRows row).map fun r => AvgBody.linear.value terms (q.index r)).sum := by
  have hwhen : ∀ r, admits q.whenMask r = true := by
    intro r
    unfold AvgReducer.whenMask
    rw [if_neg (by rw [(e.oneClause q hq).1]; simp)]
    rfl
  have hone := sum_masked_div (q.groupRows row) q.mask
    (fun r => AvgBody.linear.value terms (q.index r)) 1
  rw [div_one, AvgReducer.filter_groupRows] at hone
  rw [← hone]
  unfold hoistedSum
  rw [← groupRows_eq hq]
  refine congrArg List.sum (List.map_congr_left fun r _ => ?_)
  unfold AvgReducer.maskedCoefficient
  by_cases hmask : q.mask r = true
  · simp [hmask, hwhen, AvgBody.value]
  · simp [hmask]

/-- A reducer whose rows or tuples are as many as the rows of the group sums them all. -/
theorem perm_of_whole (hq : q ∈ e.reducers) (hrow : row < q.numRows)
    (hsome : (q.groupOf row).isSome)
    (hlen : (q.contributions row).length = (q.groupRows row).length) :
    ((q.maskedRows row).map q.index).Perm (q.contributions row) := by
  have hsub : (q.survivors row).Sublist (q.groupRows row) := by
    rw [QualifiedReducer.survivors_eq hrow hsome]
    unfold AvgReducer.groupRows
    rw [show ((List.range q.numRows).filter fun s => q.groupOf s = q.groupOf row &&
        admits q.filter s) = ((List.range q.numRows).filter fun s =>
        q.groupOf s = q.groupOf row).filter (admits q.filter) by
      rw [List.filter_filter]
      exact List.filter_congr fun s _ => Bool.and_comm _ _]
    exact List.filter_sublist
  have hdedup : (q.contributions row).length ≤ (q.survivors row).length := by
    unfold AvgReducer.contributions
    have := (List.dedup_sublist ((q.survivors row).map q.index)).length_le
    rwa [List.length_map] at this
  -- nothing of the group is left out
  have hall : q.survivors row = q.groupRows row :=
    hsub.eq_of_length_le (hlen ▸ hdedup)
  have hmem : ∀ r, r < q.numRows → q.groupOf r = q.groupOf row → r ∈ q.survivors row := by
    intro r hr hsame
    rw [hall]
    exact List.mem_filter.mpr ⟨List.mem_range.mpr hr, decide_eq_true hsame⟩
  refine (List.perm_ext_iff_of_nodup (AvgReducer.nodup_index hrow hsome)
    (List.nodup_dedup _)).mpr fun i =>
      ⟨fun hi => AvgReducer.index_mem_contributions hrow hsome hi, fun hi => ?_⟩
  cases hqual : q.qualified with
  | false =>
    rw [AvgReducer.maskedRows_unqualified hqual hrow hsome]
    exact List.mem_dedup.mp hi
  | true =>
    have hindex : q.index = q.mapping.rowToEntity := by
      funext r
      unfold AvgReducer.index
      rw [if_pos hqual]
    have hperm := (QualifiedReducer.reduced_perm_iff hrow hsome).mpr fun s hs f hf hfs => by
      obtain ⟨hsn, hsame, -⟩ := (QualifiedReducer.mem_survivors hrow hsome).mp hs
      have hfn : f < q.numRows := by
        refine lt_of_le_of_lt ?_ hsn
        by_contra hlt
        exact hf.2 s (by omega) hfs.symm
      refine hmem f hfn ?_
      have hsite := (e.oneClause q hq).1
      have hwhole : q.masksWhole = false := by
        unfold QualifiedReducer.masksWhole
        rw [hsite]
      have hin : q.inMaskGroup f = true := by
        have := hf.1
        unfold QualifiedReducer.tupleKey at this
        split at this
        · assumption
        · cases this
      have hfsome : (q.groupOf f).isSome := by
        rw [QualifiedReducer.groupOf_isSome_iff hfn]
        refine ⟨hin, ?_⟩
        unfold QualifiedReducer.inMaskGroup at hin
        rw [hwhole, Bool.false_or, Bool.and_eq_true] at hin
        exact (groupUnder_isSome_iff_admits.mp hin.1).1
      rw [QualifiedReducer.tupleKey_eq hfn hfsome,
        QualifiedReducer.tupleKey_eq hsn (hsame ▸ hsome), hwhole, Option.some.injEq,
        Prod.mk.injEq] at hfs
      rw [← hsame]
      exact (QualifiedReducer.groupOf_eq_iff hfn hsn hfsome (hsame ▸ hsome)).mpr hfs.1
    rw [AvgReducer.maskedRows_qualified hqual, QualifiedReducer.reducedRows_eq hrow hsome, hindex]
    refine hperm.mem_iff.mpr ?_
    simpa [AvgReducer.contributions, QualifiedReducer.survivingTuples, hindex] using hi

/-- **Multiplying by the size of the group is dividing by the denominator exactly if the reducer reduces
no row or the whole group.** -/
theorem hoisted_iff (hq : q ∈ e.reducers) (hrow : row < e.numRows)
    (hsome : (e.groups.groupOf row).isSome) :
    (∀ terms, e.hoistedSum q terms row / (e.groupRows row).length = q.average terms row) ↔
      q.contributions row = [] ∨ (q.contributions row).length = (e.groupRows row).length := by
  have hrow' : row < q.numRows := by rwa [(e.oneClause q hq).2.2.1]
  have hsome' : (q.groupOf row).isSome := by rwa [groupOf_eq hq]
  have hbody : q.body = .linear := (e.oneClause q hq).2.1
  have hsubset : (q.maskedRows row).length ≤ (q.contributions row).length := by
    have := (AvgReducer.nodup_index hrow' hsome').subperm fun i hi =>
      AvgReducer.index_mem_contributions hrow' hsome' hi
    simpa using this.length_le
  have hgroup : (q.contributions row).length ≤ (e.groupRows row).length := by
    have hle : (q.survivors row).length ≤ (q.groupRows row).length := by
      rw [QualifiedReducer.survivors_eq hrow' hsome']
      unfold AvgReducer.groupRows
      refine (List.Nodup.subperm (List.nodup_range.filter _) fun r hr => ?_).length_le
      obtain ⟨hrn, hc⟩ := List.mem_filter.mp hr
      exact List.mem_filter.mpr ⟨hrn, (Bool.and_eq_true_iff.mp hc).1⟩
    have hdedup := (List.dedup_sublist ((q.survivors row).map q.index)).length_le
    rw [List.length_map] at hdedup
    rw [← groupRows_eq hq]
    exact hdedup.trans hle
  have hpos : (0 : ℚ) < (e.groupRows row).length := by
    refine Nat.cast_pos.mpr (List.length_pos_iff.mpr (List.ne_nil_of_mem (a := row) ?_))
    exact List.mem_filter.mpr ⟨List.mem_range.mpr hrow, decide_eq_true rfl⟩
  constructor
  · intro h
    by_cases hnil : q.contributions row = []
    · exact Or.inl hnil
    · right
      -- a body that is one everywhere counts both sides
      have hone : AvgBody.linear.value [⟨fun _ => 1, fun _ => 1⟩] = fun _ => 1 := by
        funext i
        simp [AvgBody.value]
      have hcount := h [⟨fun _ => 1, fun _ => 1⟩]
      have hlen : ((q.contributions row).length : ℚ) ≠ 0 := by
        exact_mod_cast (List.length_pos_iff.mpr hnil).ne'
      unfold AvgReducer.average at hcount
      rw [hoistedSum_eq hq, hbody] at hcount
      simp only [hone, List.map_const', List.sum_replicate, nsmul_eq_mul, mul_one] at hcount
      rw [div_self hlen, div_eq_one_iff_eq hpos.ne'] at hcount
      have hmask : (q.maskedRows row).length = (e.groupRows row).length := by exact_mod_cast hcount
      omega
  · rintro (hnil | hwhole) terms
    · have hmask : q.maskedRows row = [] := by
        rw [hnil] at hsubset
        exact List.eq_nil_of_length_eq_zero (Nat.le_zero.mp hsubset)
      rw [hoistedSum_eq hq, hmask]
      unfold AvgReducer.average
      rw [hnil]
      simp
    · have hperm := perm_of_whole hq hrow' hsome' (by rw [hwhole, groupRows_eq hq])
      have hsum := (hperm.map (AvgBody.linear.value terms)).sum_eq
      rw [List.map_map] at hsum
      unfold AvgReducer.average
      rw [hoistedSum_eq hq, hwhole, hbody, ← hsum]
      rfl

/-- **`AVG(e) <> K` excludes the averages exactly if every reducer reduces whole groups.** -/
theorem excludes_iff (e : AvgExclusion) : e.Excludes ↔ e.ReducesWholeGroups := by
  unfold Excludes ReducesWholeGroups
  refine forall_congr' fun row => forall_congr' fun hrow => forall_congr' fun hsome => ?_
  have hpos : (0 : ℚ) < (e.groupRows row).length := by
    refine Nat.cast_pos.mpr (List.length_pos_iff.mpr (List.ne_nil_of_mem (a := row) ?_))
    exact List.mem_filter.mpr ⟨List.mem_range.mpr hrow, decide_eq_true rfl⟩
  have hvalue : (∀ (bodies : Nat → List BodyTerm) (k : ℚ),
      ((e.reducers.zipIdx.map fun p => e.hoistedSum p.1 (bodies p.2) row).sum ≠
          k * (e.groupRows row).length ↔
        (e.reducers.zipIdx.map fun p => p.1.average (bodies p.2) row).sum ≠ k)) ↔
      ∀ bodies : Nat → List BodyTerm,
        (e.reducers.zipIdx.map fun p => e.hoistedSum p.1 (bodies p.2) row).sum /
            (e.groupRows row).length =
          (e.reducers.zipIdx.map fun p => p.1.average (bodies p.2) row).sum := by
    refine forall_congr' fun bodies => ?_
    set total := (e.reducers.zipIdx.map fun p => e.hoistedSum p.1 (bodies p.2) row).sum
    set averages := (e.reducers.zipIdx.map fun p => p.1.average (bodies p.2) row).sum
    constructor
    · intro h
      by_contra hne
      exact (h (total / (e.groupRows row).length)).mpr (fun heq => hne heq.symm)
        (by rw [div_mul_cancel₀ _ hpos.ne'])
    · intro h k
      rw [← h, ne_eq, ne_eq, div_eq_iff hpos.ne']
  rw [hvalue]
  constructor
  · intro h q hq
    obtain ⟨j, hj⟩ := List.mem_iff_getElem?.mp hq
    refine (hoisted_iff hq hrow hsome).mp fun terms => ?_
    have hone := h fun i => if i = j then terms else []
    have hpick : ∀ f : AvgReducer → List BodyTerm → ℚ, (∀ p, f p [] = 0) →
        (e.reducers.zipIdx.map fun p => f p.1 (if p.2 = j then terms else [])).sum = f q terms := by
      intro f hf
      have hrewrite : (e.reducers.zipIdx.map fun p => f p.1 (if p.2 = j then terms else [])) =
          e.reducers.zipIdx.map fun p => if p.2 = 0 + j then f p.1 terms else 0 := by
        refine List.map_congr_left fun p _ => ?_
        rw [zero_add]
        split
        · rfl
        · exact hf p.1
      rw [hrewrite, sum_zipIdx_single (fun p => f p terms), hj]
      rfl
    rw [hpick (fun p t => e.hoistedSum p t row) fun p => by simp [hoistedSum],
      hpick (fun p t => p.average t row) fun p => by
        unfold AvgReducer.average AvgBody.value
        cases p.body <;> simp] at hone
    exact hone
  · intro h bodies
    have hall : ∀ p ∈ e.reducers.zipIdx, e.hoistedSum p.1 (bodies p.2) row =
        p.1.average (bodies p.2) row * (e.groupRows row).length := by
      intro p hp
      have hq : p.1 ∈ e.reducers := List.fst_mem_of_mem_zipIdx hp
      rw [← (hoisted_iff hq hrow hsome).mpr (h p.1 hq), div_mul_cancel₀ _ hpos.ne']
    rw [List.map_congr_left hall, List.sum_map_mul_right, mul_div_assoc, div_self hpos.ne', mul_one]

end AvgExclusion

/-! ## Nested objectives -/

/-- **The inner AVG of a nested objective averages every group.** -/
theorem NestedAverage.averages (q : NestedAverage) : q.Averages := by
  intro row hrow hsome terms rows
  have hreads := assignRowGroups_reads q.whenCondition (some q.perColumns) none q.numRows
  obtain ⟨g, hg⟩ := Option.isSome_iff_exists.mp hsome
  have hrows : q.groupRows row = rows := by
    unfold groupRows
    rw [hg]
    refine (hreads.leftRows_eq hrow hg).trans ?_
    exact List.filter_eq_self.mpr fun _ _ => rfl
  have hscaled : ∀ r ∈ q.groupRows row, (terms.map fun t =>
      q.scaledRowCoefficient t r * t.factor r).sum =
      AvgBody.linear.value terms r / (q.groupRows row).length := by
    intro r hr
    obtain ⟨hrn, hsame⟩ := List.mem_filter.mp hr
    have hsame : q.groups.groupOf r = q.groups.groupOf row := of_decide_eq_true hsame
    have hwhen : admits q.whenCondition r = true :=
      (groupUnder_isSome_iff_admits.mp
        ((hreads.kept r (List.mem_range.mp hrn)).mp (hsame ▸ hsome)).1).1
    have hsize : q.groupRows r = q.groupRows row := by
      unfold groupRows
      rw [hsame]
    unfold scaledRowCoefficient AvgBody.value
    rw [hsize, hwhen]
    simp only [if_true]
    rw [div_eq_mul_inv, ← List.sum_map_mul_right]
    exact congrArg List.sum (List.map_congr_left fun t _ => by ring)
  unfold emitted
  rw [List.map_congr_left hscaled, hrows]
  simp only [div_eq_mul_inv]
  exact List.sum_map_mul_right _ _ _

/-! ## The claim of the denominators -/

/-- **Every AVG is the average over its rows or tuples exactly if its qualifier loses no tuple, and an
`AVG(e) <> K` excludes it exactly if its reducers reduce whole groups.** The inner AVG of a nested
objective is always exact. -/
theorem avg_exact_iff (q : AvgReducer) (e : AvgExclusion) (n : NestedAverage) :
    (q.Averages ↔ (q.qualified = true → q.FirstRowsSurvive)) ∧
      (e.Excludes ↔ e.ReducesWholeGroups) ∧ n.Averages :=
  ⟨q.averages_iff, e.excludes_iff, n.averages⟩

/-- `AVG(x) WHEN a`, the first of two rows passing. -/
def firstRowAverage : AvgReducer where
  site := .constraint
  numRows := 2
  mapping := ⟨1, fun _ => 0⟩
  entity_lt := fun _ _ => Nat.zero_lt_one
  filter := some fun row => row = 0
  filter_active := fun _ _ _ => rfl
  composed_bare := fun h => by cases h
  body := .linear
  qualified := false

/-- `AVG(y)` over the same rows. -/
def wholeAverage : AvgReducer where
  site := .constraint
  numRows := 2
  mapping := ⟨1, fun _ => 0⟩
  entity_lt := fun _ _ => Nat.zero_lt_one
  filter_active := fun _ _ h => h
  composed_bare := fun h => by cases h
  body := .linear
  qualified := false

/-- `AVG(x) WHEN a + AVG(y) <> K`. -/
def mixedAverages : AvgExclusion where
  numRows := 2
  reducers := [firstRowAverage, wholeAverage]
  oneClause := by
    intro q hq
    rcases List.mem_pair.mp hq with rfl | rfl <;> exact ⟨rfl, rfl, rfl, rfl, rfl, rfl⟩

/-- With `x = 1` and `y = 0` the averages add up to 1, which is not excluded from the bound 1. -/
theorem not_excludes : ¬ mixedAverages.Excludes := by
  intro h
  have hone := (h 0 (by decide) (by decide)
    (fun j => if j = 0 then [⟨fun _ => 1, fun _ => 1⟩] else []) 1).mp (by decide +kernel)
  revert hone
  decide +kernel

end Decidb
