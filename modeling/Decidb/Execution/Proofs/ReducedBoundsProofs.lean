import Decidb.Execution.ReducedBounds
import Decidb.Execution.Proofs.EvaluateConstraintProofs
import Decidb.Formulation.Proofs.ModelBuilderProofs

/-!
# The reduced bound is the conjunction over the selected rows

For the orders and for `=` one bound stands for all of them. A `<>` keeps its values apart and reads them
off the rows that reach the left-hand side, so a value on the other rows is lost. An easy MIN/MAX brings
its bound down over other rows than the ones it was written for.
-/

namespace Decidb

variable {α : Type} {n r : Nat}

/-! ## Groups -/

namespace BoundedAggregate

variable {q : BoundedAggregate α}

theorem groups_reads (q : BoundedAggregate α) (n : Nat) :
    (q.groups n).Reads q.whenCondition.toList q.perColumns.toList (admits q.localRowActive) n :=
  assignRowGroups_reads _ _ _ _

/-- A group that emits a constraint is one the clause selects and some reducer has a row in. -/
theorem emits_iff (hr : r < n) :
    q.emits n r = true ↔ q.selects r = true ∧ admits q.localRowActive r = true :=
  (q.groups_reads n).kept r hr

theorem leftRows_eq (hr : r < n) (hemits : q.emits n r = true) :
    q.leftRows n r = (q.selected n r).filter (admits q.localRowActive) := by
  obtain ⟨g, hg⟩ := Option.isSome_iff_exists.mp hemits
  unfold leftRows
  rw [hg]
  exact (q.groups_reads n).leftRows_eq hr hg

theorem mem_leftRows_self (hr : r < n) : r ∈ q.leftRows n r :=
  List.mem_filter.mpr ⟨List.mem_range.mpr hr, decide_eq_true rfl⟩

theorem mem_selected_self (hr : r < n) : r ∈ q.selected n r := mem_groupMates.mpr ⟨hr, rfl⟩

/-- A row that reaches the left-hand side of a group sees the same group. -/
theorem of_mem_leftRows (hr : r < n) (hemits : q.emits n r = true) {j : Nat}
    (hj : j ∈ q.leftRows n r) :
    j < n ∧ q.emits n j = true ∧ j ∈ q.selected n r ∧ q.selected n j = q.selected n r := by
  have hj' := hj
  rw [leftRows_eq hr hemits] at hj'
  obtain ⟨hsel, hadm⟩ := List.mem_filter.mp hj'
  obtain ⟨hjn, hju⟩ := mem_groupMates.mp hsel
  refine ⟨hjn, (emits_iff hjn).mpr ⟨?_, hadm⟩, hsel, groupMates_congr hju⟩
  unfold BoundedClause.selects
  rw [hju]
  exact ((emits_iff hr).mp hemits).1

/-- The bound of a selected row, before anything is brought down. -/
theorem rowBound_eq (hr : r < n) (hemits : q.emits n r = true) {i : Nat}
    (hi : i ∈ q.selected n r) :
    q.rhs.value ((q.groups n).rhsRows n i) i = q.rhs.value (q.selected n r) i := by
  rw [(q.groups_reads n).rhsRows_eq hr hemits hi]
  rfl

end BoundedAggregate

/-! ## Bringing a bound down -/

/-- A `=` whose bound varies within a group is refused, and only then. -/
theorem reduceAggregateRhsPerGroup_eq_error {groups : RowGroups} {text : String}
    {rhsValues : Nat → Bound} :
    (∃ e, reduceAggregateRhsPerGroup .eq groups n text rhsValues = .error e) ↔
      ∃ i j g, i < n ∧ j < n ∧ groups.rhsGroupOf i = some g ∧ groups.rhsGroupOf j = some g ∧
        rhsValues i ≠ rhsValues j := by
  unfold reduceAggregateRhsPerGroup
  simp only
  set rowsOf := fun g => (List.range n).filter fun i => groups.rhsGroupOf i = some g with hrowsOf
  have hmem : ∀ {i g}, i ∈ rowsOf g ↔ i < n ∧ groups.rhsGroupOf i = some g := by
    intro i g
    simp [hrowsOf]
  cases hconf : (List.range n).findSome? fun r =>
      (groups.rhsGroupOf r).bind fun g =>
        (rowsOf g).head?.bind fun first =>
          if rhsValues r = rhsValues first then none else some (rhsValues first, rhsValues r) with
  | some p =>
    refine iff_of_true ⟨_, rfl⟩ ?_
    obtain ⟨r, hr, hsome⟩ := List.exists_of_findSome?_eq_some hconf
    obtain ⟨g, hg, hfirst⟩ := Option.bind_eq_some_iff.mp hsome
    obtain ⟨first, hhead, hne⟩ := Option.bind_eq_some_iff.mp hfirst
    obtain ⟨hfn, hfg⟩ := hmem.mp (List.mem_of_mem_head? hhead)
    split at hne
    · cases hne
    · exact ⟨r, first, g, List.mem_range.mp hr, hfn, hg, hfg, ‹_›⟩
  | none =>
    refine iff_of_false (by simp) ?_
    rintro ⟨i, j, g, hi, hj, hgi, hgj, hne⟩
    rw [List.findSome?_eq_none_iff] at hconf
    obtain ⟨first, hhead⟩ : ∃ first, (rowsOf g).head? = some first := by
      cases hl : rowsOf g with
      | nil => exact absurd (hl ▸ hmem.mpr ⟨hi, hgi⟩) List.not_mem_nil
      | cons x xs => exact ⟨x, rfl⟩
    have hfirst : ∀ k, k < n → groups.rhsGroupOf k = some g → rhsValues k = rhsValues first := by
      intro k hk hgk
      have hnone := hconf k (List.mem_range.mpr hk)
      rw [hgk, Option.bind_some, hhead, Option.bind_some] at hnone
      by_contra h
      rw [if_neg h] at hnone
      cases hnone
    exact hne ((hfirst i hi hgi).trans (hfirst j hj hgj).symm)

theorem reduceAggregateRhsPerGroup_eq_ok {groups : RowGroups} {text : String}
    {rhsValues bounds : Nat → Bound}
    (h : reduceAggregateRhsPerGroup .eq groups n text rhsValues = .ok bounds) : bounds = rhsValues := by
  unfold reduceAggregateRhsPerGroup at h
  simp only at h
  split at h
  · cases h
  · exact (Except.ok.inj h).symm

namespace BoundedAggregate

variable {q : BoundedAggregate α}

/-- The first row that reaches the left-hand side speaks for its group. -/
theorem exists_head (hr : r < n) : ∃ h, (q.leftRows n r).head? = some h ∧ h ∈ q.leftRows n r := by
  cases hl : q.leftRows n r with
  | nil => exact absurd (hl ▸ mem_leftRows_self (q := q) hr) List.not_mem_nil
  | cons h rest => exact ⟨h, rfl, List.mem_cons_self ..⟩

/-- A number on the right is that of a group on the left. -/
theorem exists_left (hsome : ∃ r, r < n ∧ q.emits n r = true) {i g : Nat} (hi : i < n)
    (hg : (q.groups n).rhsGroupOf i = some g) :
    ∃ r, r < n ∧ q.emits n r = true ∧ (q.groups n).groupOf r = some g := by
  suffices h : ∃ r, r < n ∧ (q.groups n).groupOf r = some g by
    obtain ⟨r, hr, hrg⟩ := h
    exact ⟨r, hr, by rw [emits, hrg]; rfl, hrg⟩
  obtain ⟨r₀, hr₀, hemits⟩ := hsome
  unfold emits groups at hemits
  unfold groups at hg ⊢
  cases hper : q.perColumns with
  | some columns =>
    rw [hper] at hg
    obtain ⟨key, hc, -, hk, rfl⟩ := keyId_eq_some.mp hg
    obtain ⟨r, hr, hf, hcr⟩ := mem_firstSeenKeys.mp hk
    set included : RowMask := fun r => admits q.whenCondition r && admits q.localRowActive r
    have hid : keyId (firstSeenKeys columns included n) columns included r =
        some ((firstSeenKeys columns included n).idxOf key) :=
      keyId_eq_some.mpr ⟨key, hcr, hf, hk, rfl⟩
    exact ⟨r, hr, hid⟩
  | none =>
    rw [hper] at hg hemits
    unfold assignRowGroups at hg hemits ⊢
    simp only at hg hemits ⊢
    split at hg
    · rename_i hnone
      rw [if_pos hnone]
      exact ⟨i, hi, hg⟩
    · rename_i hnone
      rw [if_neg hnone] at hemits ⊢
      simp only [RowGroups.groupOf, RowGroups.rhsGroupOf] at hg hemits ⊢
      refine ⟨r₀, hr₀, ?_⟩
      split at hemits
      · rename_i hin
        rw [if_pos hin]
        split at hg
        · exact hg
        · cases hg
      · cases hemits

theorem rhsValues_of_emits (hr : r < n) (hemits : q.emits n r = true) :
    q.rhsValues n = reduceAggregateRhsPerGroup q.cmp (q.groups n) n q.rhs.text fun r =>
      q.rhs.value ((q.groups n).rhsRows n r) r := by
  unfold rhsValues
  refine if_neg fun hno => ?_
  unfold RowGroups.noRow at hno
  have hall := List.all_eq_true.mp (Bool.and_eq_true_iff.mp hno).2 r (List.mem_range.mpr hr)
  unfold emits at hemits
  rw [Option.isNone_iff_eq_none.mp hall] at hemits
  cases hemits

/-- **A `=` is refused exactly if its bound varies.** -/
theorem refusesVarying (q : BoundedAggregate α) (n : Nat) : q.RefusesVarying n := by
  rintro heq ⟨r₀, hr₀, hemits₀⟩
  rw [rhsValues_of_emits hr₀ hemits₀, heq, reduceAggregateRhsPerGroup_eq_error]
  have hreads := q.groups_reads n
  constructor
  · rintro ⟨i, j, g, hi, hj, hgi, hgj, hne⟩
    obtain ⟨r, hr, hemits, hrg⟩ := exists_left ⟨r₀, hr₀, hemits₀⟩ hi hgi
    have hsel : ∀ {k}, k < n → (q.groups n).rhsGroupOf k = some g → k ∈ q.selected n r := by
      intro k hk hgk
      exact mem_groupMates.mpr ⟨hk, (hreads.mates r k hr hk hemits).mp (hgk.trans hrg.symm)⟩
    refine ⟨r, hr, hemits, i, hsel hi hgi, j, hsel hj hgj, ?_⟩
    rwa [rowBound_eq hr hemits (hsel hi hgi), rowBound_eq hr hemits (hsel hj hgj)] at hne
  · rintro ⟨r, hr, hemits, i, hi, j, hj, hne⟩
    obtain ⟨g, hg⟩ := Option.isSome_iff_exists.mp hemits
    have hgroup : ∀ {k}, k ∈ q.selected n r → k < n ∧ (q.groups n).rhsGroupOf k = some g := by
      intro k hk
      obtain ⟨hkn, hku⟩ := mem_groupMates.mp hk
      exact ⟨hkn, ((hreads.mates r k hr hkn hemits).mpr hku).trans hg⟩
    refine ⟨i, j, g, (hgroup hi).1, (hgroup hj).1, (hgroup hi).2, (hgroup hj).2, ?_⟩
    rwa [rowBound_eq hr hemits hi, rowBound_eq hr hemits hj]

/-! ## What a group emits -/

/-- An order: the one bound of the group stands for all. -/
theorem emitted_order (hcmp : q.cmp.isOrder = true) {bounds : Nat → Bound}
    (hok : q.rhsValues n = .ok bounds) (hr : r < n) (hemits : q.emits n r = true) (v : ℚ) :
    (∀ k ∈ emittedBounds q.cmp bounds (q.leftRows n r), q.cmp.Holds v k) ↔
      ∀ i ∈ q.selected n r, q.cmp.Holds v (q.rhs.value (q.selected n r) i) := by
  obtain ⟨bounds', hred, hbound⟩ := @reduceAggregateRhsPerGroup_spec _ _ _ _ _ (q.groups_reads n) _
    hcmp q.rhs.text q.rhs
  rw [rhsValues_of_emits hr hemits, hred] at hok
  obtain rfl := Except.ok.inj hok
  obtain ⟨h, hhead, hmem⟩ := exists_head (q := q) hr
  obtain ⟨hhn, hhe, -, hsame⟩ := of_mem_leftRows hr hemits hmem
  have hlist : emittedBounds q.cmp bounds' (q.leftRows n r) = [bounds' h] := by
    unfold emittedBounds
    rw [hhead]
    cases hc : q.cmp with
    | ne => rw [hc] at hcmp; cases hcmp
    | eq | lt | le | ge | gt => rfl
  have hb : bounds' h = groupBound q.cmp q.rhs (q.selected n r) := by
    rw [hbound h hhn hhe, ← hsame]
    rfl
  rw [hlist, List.forall_mem_singleton, hb]
  exact groupBound_spec hcmp (List.ne_nil_of_mem (mem_selected_self hr)) v

/-- A `=` that is not refused has one value. -/
theorem emitted_eq (heq : q.cmp = .eq) {bounds : Nat → Bound} (hok : q.rhsValues n = .ok bounds)
    (hr : r < n) (hemits : q.emits n r = true) (v : ℚ) :
    (∀ k ∈ emittedBounds q.cmp bounds (q.leftRows n r), q.cmp.Holds v k) ↔
      ∀ i ∈ q.selected n r, q.cmp.Holds v (q.rhs.value (q.selected n r) i) := by
  have huniform : ∀ i ∈ q.selected n r, ∀ j ∈ q.selected n r,
      q.rhs.value (q.selected n r) i = q.rhs.value (q.selected n r) j := by
    intro i hi j hj
    by_contra hne
    obtain ⟨e, he⟩ := (q.refusesVarying n heq ⟨r, hr, hemits⟩).mpr ⟨r, hr, hemits, i, hi, j, hj, hne⟩
    rw [he] at hok
    cases hok
  rw [rhsValues_of_emits hr hemits, heq] at hok
  obtain rfl := reduceAggregateRhsPerGroup_eq_ok hok
  obtain ⟨h, hhead, hmem⟩ := exists_head (q := q) hr
  obtain ⟨hhn, hhe, hhsel, -⟩ := of_mem_leftRows hr hemits hmem
  unfold emittedBounds
  rw [heq, hhead]
  simp only [Option.map_some, Option.toList_some, List.forall_mem_singleton,
    rowBound_eq hr hemits hhsel]
  exact ⟨fun hv i hi => huniform h hhsel i hi ▸ hv, fun hv => hv h hhsel⟩

/-- A `<>` excludes the values of the rows that reach the left-hand side. -/
theorem emitted_ne (hne : q.cmp = .ne) {bounds : Nat → Bound} (hok : q.rhsValues n = .ok bounds)
    (hr : r < n) (hemits : q.emits n r = true) (v : ℚ) :
    (∀ k ∈ emittedBounds q.cmp bounds (q.leftRows n r), q.cmp.Holds v k) ↔
      ∀ i ∈ q.leftRows n r, q.rhs.value (q.selected n r) i ≠ .fin v := by
  rw [rhsValues_of_emits hr hemits, hne] at hok
  obtain rfl := Except.ok.inj hok
  unfold emittedBounds
  rw [hne]
  simp only [List.mem_eraseDups, List.forall_mem_map, Comparison.holds_ne]
  refine forall_congr' fun i => forall_congr' fun hi => ?_
  rw [rowBound_eq hr hemits (of_mem_leftRows hr hemits hi).2.2.1]
  exact ne_comm

/-- **What the groups of an aggregate emit is the conjunction over the selected rows exactly if every
value a `<>` excludes reaches the left-hand side.** -/
theorem boundsConjoined_iff (q : BoundedAggregate α) (n : Nat) :
    q.BoundsConjoined n ↔ q.ExclusionsReachLeft n := by
  by_cases hne : q.cmp = .ne
  · constructor
    · intro h _ r hr hemits i hi a ha
      have hred : q.rhsValues n = .ok fun r => q.rhs.value ((q.groups n).rhsRows n r) r := by
        rw [rhsValues_of_emits hr hemits, hne]
        rfl
      by_contra hlost
      have hemitted := (emitted_ne hne hred hr hemits (q.value (q.leftRows n r) a)).mpr
        fun j hj hjk => hlost ⟨j, hj, hjk⟩
      have hall := (h _ hred r hr hemits a).mp hemitted i hi
      rw [hne] at hall
      exact hall ha.symm
    · intro h bounds hok r hr hemits a
      rw [emitted_ne hne hok hr hemits, hne]
      simp only [Comparison.holds_ne]
      constructor
      · intro hleft i hi heq
        obtain ⟨j, hj, hjk⟩ := h hne r hr hemits i hi a heq.symm
        exact hleft j hj hjk
      · intro hall i hi heq
        exact hall i (of_mem_leftRows hr hemits hi).2.2.1 heq.symm
  · refine iff_of_true (fun bounds hok r hr hemits a => ?_) fun h => absurd h hne
    by_cases heq : q.cmp = .eq
    · exact emitted_eq heq hok hr hemits _
    · have hcmp : q.cmp.isOrder = true := by
        cases hc : q.cmp with
        | eq => exact absurd hc heq
        | ne => exact absurd hc hne
        | lt | le | ge | gt => rfl
      exact emitted_order hcmp hok hr hemits _

end BoundedAggregate

/-! ## Easy MIN/MAX -/

namespace EasyMinMax

variable {q : EasyMinMax α}

/-- The groups are one: the rows its condition keeps. -/
theorem groups_reads (q : EasyMinMax α) (n : Nat) :
    (q.groups n).Reads q.preparedWhen.toList [] (admits none) n := assignRowGroups_reads _ _ _ _

theorem included_iff (hr : r < n) :
    ((q.groups n).groupOf r).isSome ↔ admits q.preparedWhen r = true := by
  rw [(q.groups_reads n).kept r hr, and_iff_left (show admits none r = true from rfl),
    groupUnder_isSome, admits_iff]
  simp

theorem groupMates_eq (hkept : admits q.preparedWhen r = true) :
    groupMates q.preparedWhen.toList [] n r = q.preparedRows n := by
  have hsome : ∀ i, (groupUnder q.preparedWhen.toList [] i).isSome ↔
      admits q.preparedWhen i = true := by
    intro i
    rw [groupUnder_isSome, admits_iff]
    simp
  unfold groupMates preparedRows
  refine List.filter_congr fun i _ => ?_
  by_cases hi : admits q.preparedWhen i = true
  · rw [hi, decide_eq_true_iff, groupUnder_eq_iff ((hsome i).mpr hi) ((hsome r).mpr hkept)]
    simp
  · rw [Bool.eq_false_iff.mpr hi, decide_eq_false_iff_not]
    intro heq
    exact hi ((hsome i).mp (heq ▸ (hsome r).mpr hkept))

/-- What the constraint asks of a row it is prepared over. -/
theorem prepared_holds {bounds : Nat → Bound} (hok : q.rhsValues n = .ok bounds) (hr : r < n)
    (v : ℚ) :
    (((q.groups n).groupOf r).isSome → q.cmp.Holds (v - q.crossed r) (bounds r)) ↔
      ∀ k ∈ q.preparedBound n r, q.cmp.Holds v k := by
  unfold preparedBound
  rw [included_iff hr]
  by_cases hkept : admits q.preparedWhen r = true
  · obtain ⟨bounds', hred, hbound⟩ := @reduceAggregateRhsPerGroup_spec _ _ _ _ _ (q.groups_reads n) _
      q.isOrder q.rhs.text q.preparedRhs
    unfold rhsValues at hok
    split at hok
    · cases hok
    rw [hred] at hok
    obtain rfl := Except.ok.inj hok
    have hb := hbound r hr ((included_iff hr).mpr hkept)
    rw [groupMates_eq hkept] at hb
    rw [if_pos hkept, hb, sub_eq_add_neg, ← Comparison.holds_sub]
    simp [hkept]
  · rw [if_neg hkept]
    exact iff_of_true (fun h => absurd h hkept) (by simp)

/-- What the clause asks of a row of the reducer. -/
theorem written_holds (hr : r < n) (v : ℚ) :
    (q.selects r = true → admits q.filter r = true → ∀ i ∈ q.selected n r,
        q.cmp.Holds v (q.rhs.value (q.selected n r) i)) ↔
      ∀ k ∈ q.writtenBound n r, q.cmp.Holds v k := by
  unfold writtenBound
  by_cases hsel : (q.selects r && admits q.filter r) = true
  · obtain ⟨h1, h2⟩ := Bool.and_eq_true_iff.mp hsel
    have hne : q.selected n r ≠ [] := List.ne_nil_of_mem (mem_groupMates.mpr ⟨hr, rfl⟩)
    rw [if_pos hsel]
    simp only [h1, h2, Option.mem_def, Option.some.injEq, forall_eq', true_implies,
      groupBound_spec q.isOrder hne]
  · rw [if_neg hsel]
    refine iff_of_true (fun h1 h2 => ?_) (by simp)
    exact absurd (Bool.and_eq_true_iff.mpr ⟨h1, h2⟩) hsel

/-- It is refused exactly if it is prepared over no row. -/
theorem rhsValues_ok_iff (hr : r < n) :
    (∃ bounds, q.rhsValues n = .ok bounds) ↔ q.preparedRows n ≠ [] := by
  have hall : ∀ {i}, i < n → q.preparedRows n = [] → ¬ admits q.preparedWhen i = true := by
    intro i hi hnil hkept
    have hmem : i ∈ q.preparedRows n := List.mem_filter.mpr ⟨List.mem_range.mpr hi, hkept⟩
    rw [hnil] at hmem
    exact List.not_mem_nil hmem
  have hno : (q.groups n).noRow n = true ↔ q.preparedRows n = [] := by
    unfold RowGroups.noRow
    simp only [Bool.and_eq_true, List.all_eq_true, List.mem_range]
    constructor
    · rintro ⟨-, hnone⟩
      refine List.filter_eq_nil_iff.mpr fun i hi hkept => ?_
      have := (included_iff (q := q) (List.mem_range.mp hi)).mpr hkept
      rw [Option.isNone_iff_eq_none.mp (hnone i (List.mem_range.mp hi))] at this
      cases this
    · intro hnil
      refine ⟨?_, fun i hi => ?_⟩
      · cases hw : q.preparedWhen with
        | none => exact absurd (by rw [hw]; rfl) (hall hr hnil)
        | some m => simp [groups, assignRowGroups, hw]
      · rw [Option.isNone_iff_eq_none, ← Option.not_isSome_iff_eq_none, included_iff hi]
        exact hall hi hnil
  unfold rhsValues
  by_cases h : (q.groups n).noRow n = true
  · rw [if_pos h]
    exact iff_of_false (by simp) (not_not_intro (hno.mp h))
  · obtain ⟨bounds, hred, -⟩ := @reduceAggregateRhsPerGroup_spec _ _ _ _ _ (q.groups_reads n) _
      q.isOrder q.rhs.text q.preparedRhs
    rw [if_neg h, hred]
    exact iff_of_true ⟨_, rfl⟩ fun hnil => h (hno.mpr hnil)

/-- **An easy MIN/MAX asks the conjunction over the selected rows exactly if it was prepared with the
tightest bound it was written with.** -/
theorem boundsConjoined_iff (q : EasyMinMax α) (n : Nat) : q.BoundsConjoined n ↔ q.SameTightest n := by
  constructor
  · intro h hne r hr a
    obtain ⟨bounds, hok⟩ := (rhsValues_ok_iff hr).mpr hne
    rw [← prepared_holds hok hr, ← written_holds hr]
    exact h bounds hok r hr a
  · intro h bounds hok r hr a
    rw [prepared_holds hok hr, written_holds hr]
    exact h ((rhsValues_ok_iff hr).mp ⟨bounds, hok⟩) r hr a

end EasyMinMax

/-! ## The clause -/

/-- **Reducing a bound that varies by row is the conjunction over the selected rows exactly if every value
a `<>` excludes reaches the left-hand side, and an easy MIN/MAX is prepared with the tightest bound it was
written with.** A `=` with two different values is refused. -/
theorem reducedBounds_conjoined_iff (α : Type) (n : Nat) :
    (∀ q : BoundedAggregate α,
      (q.BoundsConjoined n ↔ q.ExclusionsReachLeft n) ∧ q.RefusesVarying n) ∧
    ∀ q : EasyMinMax α, q.BoundsConjoined n ↔ q.SameTightest n :=
  ⟨fun q => ⟨q.boundsConjoined_iff n, q.refusesVarying n⟩, fun q => q.boundsConjoined_iff n⟩

/-- `SUM(x) WHEN f <> cap`, with `f` on the first row only and `cap` 3 there and 5 on the second. -/
def sumWhenNotCap : BoundedAggregate (Nat → ℚ) where
  cmp := .ne
  rhs := .rowVarying "cap" fun _ r => .fin (if r = 0 then 3 else 5)
  localRowActive := some fun r => r = 0
  value := fun rows a => (rows.map a).sum

/-- `MAX(x) <= cap PER g`, one group for each of two rows, with `cap` 3 on the first and 5 on the
second. -/
def maxPerCap : EasyMinMax (Nat → ℚ) where
  perColumns := some some
  cmp := .le
  rhs := .rowVarying "cap" fun _ r => .fin (if r = 0 then 3 else 5)
  isOrder := rfl
  value := fun r a => a r

/-- The 5 is not excluded, and the second row is held to the bound of the first. -/
theorem not_boundsConjoined :
    ¬ sumWhenNotCap.BoundsConjoined 2 ∧ ¬ maxPerCap.BoundsConjoined 2 := by
  have hleft : sumWhenNotCap.leftRows 2 0 = [0] := by decide
  have hselected : sumWhenNotCap.selected 2 0 = [0, 1] := by decide
  constructor
  · intro h
    have hreach := (sumWhenNotCap.boundsConjoined_iff 2).mp h rfl 0 (by omega) (by decide) 1
      (by decide) fun _ => 5
    rw [hleft, hselected] at hreach
    obtain ⟨j, hj, hjk⟩ := hreach (by decide +kernel)
    rw [List.mem_singleton.mp hj] at hjk
    revert hjk
    decide +kernel
  · intro h
    have hsame := (maxPerCap.boundsConjoined_iff 2).mp h (by decide) 1 (by omega) fun _ => 4
    have hprepared : maxPerCap.preparedBound 2 1 = some (.fin 3) := by decide +kernel
    have hwritten : maxPerCap.writtenBound 2 1 = some (.fin 5) := by decide +kernel
    rw [hprepared, hwritten] at hsame
    have hthree := hsame.mpr (by simp [maxPerCap]; norm_num) (.fin 3) rfl
    revert hthree
    decide +kernel

/-! ## The prepared clauses -/

/-- What `EvaluateConstraints` leaves an aggregate with is read off its WHEN, its PER and the WHENs of its
reducers. -/
theorem evaluateConstraint_bounds {p : DecideConstraint DecideComparison} {ec : EvaluatedConstraint}
    (value : List Nat → α → ℚ) (hagg : p.comparison.lhs.isAggregate = true)
    (hok : evaluateConstraint n p = .ok ec) :
    (BoundedAggregate.mk ⟨p.whenCondition, p.perColumns, p.comparison.cmp, p.comparison.rhs⟩
        (localRowActive p.comparison.lhs.preparedTerms) value).rhsValues n = .ok ec.rhsValues ∧
      ec.comparisonType = p.comparison.cmp := by
  unfold evaluateConstraint at hok
  simp only [hagg, if_true, Bool.true_or, Bool.true_and] at hok
  unfold BoundedAggregate.rhsValues BoundedAggregate.groups
  split at hok
  · cases hok
  rename_i hno
  rw [if_neg hno]
  split at hok
  · cases hok
  split at hok
  · cases hok
  rename_i bounds hred
  obtain rfl := Except.ok.inj hok
  exact ⟨hred, rfl⟩

/-- An easy clause is prepared under the reducer's own WHEN in place of the one it was written under. -/
theorem analyzeConstraint_underFilter (mask filter : Option RowMask) (c : DecideComparison) :
    analyzeConstraint (fun _ => false)
        (nest (mask.toList.map .inl) (underFilter filter (.comparison c))) none none =
      [⟨c, filter.or mask, none⟩] := by
  cases mask <;> cases filter <;> rfl

/-- What `EvaluateConstraints` leaves an easy MIN/MAX with is what it is prepared with. -/
theorem evaluateConstraint_easyBounds {q : EasyMinMax α} {scale : Option ScaleFactor}
    {agg : Aggregate} {ec : EvaluatedConstraint}
    (hok : evaluateConstraint n ⟨easyComparison scale agg q.cmp q.preparedRhs, q.preparedWhen, none⟩ =
      .ok ec) : q.rhsValues n = .ok ec.rhsValues := by
  unfold evaluateConstraint at hok
  simp only [easyComparison, DecideLhs.isAggregate, Bool.false_eq_true, if_false, Bool.or_true,
    if_true, Bool.true_and] at hok
  unfold EasyMinMax.rhsValues EasyMinMax.groups
  split at hok
  · cases hok
  rename_i hno
  rw [if_neg hno]
  split at hok
  · cases hok
  split at hok
  · cases hok
  rename_i bounds hred
  obtain rfl := Except.ok.inj hok
  exact hred

end Decidb
