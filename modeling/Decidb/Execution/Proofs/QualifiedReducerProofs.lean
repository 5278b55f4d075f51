import Decidb.Execution.QualifiedReducer
import Decidb.Execution.Proofs.EvaluateConstraintProofs

/-!
# A qualified reducer counts every tuple once

The mask keeps the first row of every tuple. Its own WHEN is folded in afterwards, so the tuple is counted
exactly if that row survives.
-/

namespace Decidb

open Relational

/-! ## Values -/

/-- A reducer does not see the order of its values. -/
theorem AggregateName.reduce_perm (name : AggregateName) {vs ws : List ℚ} (h : vs.Perm ws) :
    name.reduce vs = name.reduce ws := by
  have hmem : ∀ v, v ∈ vs ↔ v ∈ ws := fun v => h.mem_iff
  cases name with
  | sum => exact h.sum_eq
  | avg => simp only [reduce, h.sum_eq, h.length_eq]
  | min =>
    have hmin : vs.min? = ws.min? := by
      cases hv : vs.min? with
      | none =>
        rw [List.min?_eq_none_iff] at hv
        subst hv
        rw [h.nil_eq.symm]
        rfl
      | some k =>
        obtain ⟨hk, hle⟩ := List.min?_eq_some_iff.mp hv
        exact (List.min?_eq_some_iff.mpr
          ⟨(hmem k).mp hk, fun v hv => hle v ((hmem v).mpr hv)⟩).symm
    simp only [reduce, hmin]
  | max =>
    have hmax : vs.max? = ws.max? := by
      cases hv : vs.max? with
      | none =>
        rw [List.max?_eq_none_iff] at hv
        subst hv
        rw [h.nil_eq.symm]
        rfl
      | some k =>
        obtain ⟨hk, hle⟩ := List.max?_eq_some_iff.mp hv
        exact (List.max?_eq_some_iff.mpr
          ⟨(hmem k).mp hk, fun v hv => hle v ((hmem v).mpr hv)⟩).symm
    simp only [reduce, hmax]

/-- Two lists of tuples give every reducer of every body the same value exactly if they are the same up to
order. -/
theorem reduce_eq_iff_perm {ids ids' : List Nat} :
    (∀ (name : AggregateName) (body : Nat → ℚ),
      name.reduce (ids.map body) = name.reduce (ids'.map body)) ↔ ids.Perm ids' := by
  constructor
  · intro h
    rw [List.perm_iff_count]
    intro k
    -- the body that is one on `k` alone counts it
    have hcount : ∀ l : List Nat, (l.map fun i => if i = k then (1 : ℚ) else 0).sum = l.count k := by
      intro l
      induction l with
      | nil => rfl
      | cons i l ih =>
        rw [List.map_cons, List.sum_cons, ih, List.count_cons]
        by_cases hik : i = k
        · simp [hik, add_comm]
        · simp [hik]
    have hsum := h .sum fun i => if i = k then 1 else 0
    simp only [AggregateName.reduce, hcount] at hsum
    exact_mod_cast hsum
  · exact fun h name body => name.reduce_perm (h.map body)

/-! ## Groups -/

namespace QualifiedReducer

variable {q : QualifiedReducer} {r s : Nat}

theorem groups_reads (q : QualifiedReducer) :
    q.groups.Reads q.whenCondition.toList q.perColumns.toList (admits q.localRowActive) q.numRows :=
  assignRowGroups_reads _ _ _ _

theorem left_isSome_iff (hr : r < q.numRows) :
    (q.groups.groupOf r).isSome ↔
      (q.clauseGroup r).isSome ∧ admits q.localRowActive r = true :=
  q.groups_reads.kept r hr

/-- Two rows of groups on the left share their number exactly if they share their group. -/
theorem left_eq_iff (hr : r < q.numRows) (hs : s < q.numRows) (hrs : (q.groups.groupOf r).isSome)
    (hss : (q.groups.groupOf s).isSome) :
    q.groups.groupOf r = q.groups.groupOf s ↔ q.clauseGroup r = q.clauseGroup s := by
  have hreads := q.groups_reads
  rw [← hreads.rhs_eq r hr hrs]
  exact hreads.mates s r hs hr hss

/-- The numbers a right-hand side is reduced by. -/
theorem right_spec (hsite : q.site = .bound) :
    ((q.groups.rhsGroupOf r).isSome ↔ (q.clauseGroup r).isSome ∧ q.groupExists r = true) ∧
      ((q.groups.rhsGroupOf r).isSome → (q.groups.rhsGroupOf s).isSome →
        (q.groups.rhsGroupOf r = q.groups.rhsGroupOf s ↔ q.clauseGroup r = q.clauseGroup s)) := by
  unfold groupExists clauseGroup groups
  rw [hsite]
  cases hper : q.perColumns with
  | none =>
    have hgroup : ∀ i, groupUnder q.whenCondition.toList [] i =
        if admits q.whenCondition i then some [] else none := by
      intro i
      cases q.whenCondition with
      | none => rfl
      | some m => cases h : m i <;> simp [groupUnder, admits, h]
    have hright : ∀ i, (assignRowGroups q.whenCondition none q.localRowActive q.numRows).rhsGroupOf i =
        if admits q.whenCondition i then some 0 else none := by
      intro i
      unfold assignRowGroups
      simp only
      split
      · rename_i h
        obtain hw := Option.isNone_iff_eq_none.mp (Bool.and_eq_true_iff.mp h).1
        simp [RowGroups.rhsGroupOf, admits, hw]
      · rfl
    simp only [hright, hgroup, Option.toList_none, Option.isNone_none, Bool.true_or, and_true]
    constructor
    · split <;> simp
    · split <;> split <;> simp
  | some columns =>
    set included : RowMask := fun i => admits q.whenCondition i && admits q.localRowActive i
    have hright : ∀ i, (assignRowGroups q.whenCondition (some columns) q.localRowActive
        q.numRows).rhsGroupOf i =
        keyId (firstSeenKeys columns included q.numRows) columns (admits q.whenCondition) i :=
      fun _ => rfl
    have hsome : ∀ i, (groupUnder q.whenCondition.toList [columns] i).isSome ↔
        admits q.whenCondition i = true ∧ (columns i).isSome := by
      intro i
      rw [show [columns] = (some columns).toList from rfl, groupUnder_isSome_iff_admits]
      simp
    have heq : ∀ i j, (groupUnder q.whenCondition.toList [columns] i).isSome →
        (groupUnder q.whenCondition.toList [columns] j).isSome →
        (groupUnder q.whenCondition.toList [columns] i = groupUnder q.whenCondition.toList [columns] j ↔
          columns i = columns j) := by
      intro i j hi hj
      rw [groupUnder_eq_iff hi hj]
      simp
    simp only [hright, Option.toList_some, Option.isNone_some, Bool.false_or]
    constructor
    · rw [keyId_isSome]
      constructor
      · rintro ⟨key, hc, hw, hk⟩
        obtain ⟨i, hi, hin, hci⟩ := mem_firstSeenKeys.mp hk
        obtain ⟨hwi, hli⟩ := Bool.and_eq_true_iff.mp hin
        have hrs := (hsome r).mpr ⟨hw, by rw [hc]; rfl⟩
        have his := (hsome i).mpr ⟨hwi, by rw [hci]; rfl⟩
        refine ⟨hrs, List.any_eq_true.mpr ⟨i, List.mem_range.mpr hi, ?_⟩⟩
        exact Bool.and_eq_true_iff.mpr
          ⟨decide_eq_true ((heq i r his hrs).mpr (hci.trans hc.symm)), hli⟩
      · rintro ⟨hrs, hany⟩
        obtain ⟨i, hi, hcond⟩ := List.any_eq_true.mp hany
        obtain ⟨hsame, hli⟩ := Bool.and_eq_true_iff.mp hcond
        have hsame := of_decide_eq_true hsame
        have his := hsame ▸ hrs
        obtain ⟨key, hc⟩ := Option.isSome_iff_exists.mp ((hsome r).mp hrs).2
        refine ⟨key, hc, ((hsome r).mp hrs).1, mem_firstSeenKeys.mpr ⟨i, List.mem_range.mp hi,
          Bool.and_eq_true_iff.mpr ⟨((hsome i).mp his).1, hli⟩, ?_⟩⟩
        rw [(heq i r his hrs).mp hsame, hc]
    · intro hrs hss
      obtain ⟨key, hc, hw, hk⟩ := keyId_isSome.mp hrs
      obtain ⟨key', hc', hw', hk'⟩ := keyId_isSome.mp hss
      rw [keyId_eq_some.mpr ⟨key, hc, hw, hk, rfl⟩, keyId_eq_some.mpr ⟨key', hc', hw', hk', rfl⟩,
        heq r s ((hsome r).mpr ⟨hw, by rw [hc]; rfl⟩) ((hsome s).mpr ⟨hw', by rw [hc']; rfl⟩), hc, hc',
        Option.some.injEq, Option.some.injEq]
      exact List.idxOf_inj hk

/-- A row is reduced in a group if the mask sees it and the WHEN of the clause keeps it. -/
theorem groupOf_isSome_iff (hr : r < q.numRows) :
    (q.groupOf r).isSome ↔ q.inMaskGroup r = true ∧ admits q.whenCondition r = true := by
  have hwhen : (q.clauseGroup r).isSome → admits q.whenCondition r = true := fun h =>
    (groupUnder_isSome_iff_admits.mp h).1
  have hnot : q.masksWhole = false → ((q.clauseGroup r).isSome ∧ q.groupExists r = true ↔
      q.inMaskGroup r = true ∧ admits q.whenCondition r = true) := by
    intro hw
    unfold inMaskGroup
    rw [hw, Bool.false_or, Bool.and_eq_true]
    exact ⟨fun h => ⟨h, hwhen h.1⟩, fun h => h.1⟩
  unfold groupOf
  cases hsite : q.site with
  | constraint =>
    simp only
    rw [left_isSome_iff hr, ← hnot (by rw [masksWhole, hsite]), groupExists, hsite]
  | bound =>
    simp only
    rw [(right_spec (s := r) hsite).1, ← hnot (by rw [masksWhole, hsite])]
  | objective =>
    cases hper : q.perColumns with
    | none =>
      have hwhole : q.masksWhole = true := by simp [masksWhole, hsite, hper]
      simp only [Option.isSome_none, Bool.false_eq_true, if_false, inMaskGroup, hwhole, Bool.true_or,
        true_and]
      split <;> simp_all
    | some columns =>
      simp only [Option.isSome_some, if_true]
      rw [left_isSome_iff hr, ← hnot (by simp [masksWhole, hsite, hper]), groupExists, hsite]
  | composed =>
    have hwhole : q.masksWhole = true := by rw [masksWhole, hsite]
    simp [inMaskGroup, hwhole, (q.composed_bare hsite).1, admits]

/-- Rows that are reduced are reduced together exactly if they share their group. -/
theorem groupOf_eq_iff (hr : r < q.numRows) (hs : s < q.numRows) (hrs : (q.groupOf r).isSome)
    (hss : (q.groupOf s).isSome) : q.groupOf r = q.groupOf s ↔ q.clauseGroup r = q.clauseGroup s := by
  unfold groupOf at hrs hss ⊢
  cases hsite : q.site with
  | constraint =>
    rw [hsite] at hrs hss
    exact left_eq_iff hr hs hrs hss
  | bound =>
    rw [hsite] at hrs hss
    exact (right_spec hsite).2 hrs hss
  | objective =>
    rw [hsite] at hrs hss
    simp only at hrs hss ⊢
    cases hper : q.perColumns with
    | none =>
      simp only [hper, Option.isSome_none, Bool.false_eq_true, if_false] at hrs hss ⊢
      have hgroup : ∀ i, admits q.whenCondition i = true → q.clauseGroup i = some [] := by
        intro i hi
        unfold clauseGroup
        rw [hper]
        cases hw : q.whenCondition with
        | none => rfl
        | some m =>
          rw [hw] at hi
          simp only [groupUnder, Option.toList_some, Option.toList_none]
          simp [show m i = true from hi]
      split at hrs
      · split at hss
        · rename_i hwr hws
          rw [if_pos hwr, if_pos hws, hgroup r hwr, hgroup s hws]
          exact iff_of_true rfl rfl
        · cases hss
      · cases hrs
    | some columns =>
      simp only [hper, Option.isSome_some, if_true] at hrs hss ⊢
      exact left_eq_iff hr hs hrs hss
  | composed =>
    obtain ⟨hw, hp⟩ := q.composed_bare hsite
    refine iff_of_true rfl ?_
    unfold clauseGroup
    rw [hw, hp]
    rfl

/-! ## The mask -/

/-- The slot of a row the mask is not built over all rows for. -/
theorem qualifierSlot_eq (hwhole : q.masksWhole = false) (r : Nat) :
    qualifierSlot q.mapping q.maskGroupIds r =
      (q.groupOf r).map fun g => g * q.mapping.numEntities + q.mapping.rowToEntity r := by
  have hleft : qualifierSlot q.mapping q.groups.rowGroupIds r =
      (q.groups.groupOf r).map fun g =>
        g * q.mapping.numEntities + q.mapping.rowToEntity r := by
    unfold qualifierSlot RowGroups.groupOf
    cases q.groups.rowGroupIds <;> simp
  have hright : qualifierSlot q.mapping q.groups.rhsRowGroupIds r =
      (q.groups.rhsGroupOf r).map fun g =>
        g * q.mapping.numEntities + q.mapping.rowToEntity r := by
    unfold qualifierSlot RowGroups.rhsGroupOf
    cases q.groups.rhsRowGroupIds <;> simp
  unfold masksWhole at hwhole
  unfold maskGroupIds groupOf
  cases hsite : q.site with
  | constraint => exact hleft
  | bound => exact hright
  | composed => rw [hsite] at hwhole; cases hwhole
  | objective =>
    rw [hsite] at hwhole
    obtain ⟨columns, hper⟩ := Option.isSome_iff_exists.mp (Option.isNone_eq_false_iff.mp hwhole)
    simp only [hper, Option.isSome_some, if_true]
    exact hleft

theorem qualifierSlot_whole (hwhole : q.masksWhole = true) (r : Nat) :
    qualifierSlot q.mapping q.maskGroupIds r = some (q.mapping.rowToEntity r) := by
  unfold masksWhole at hwhole
  unfold maskGroupIds
  cases hsite : q.site with
  | constraint => rw [hsite] at hwhole; cases hwhole
  | bound => rw [hsite] at hwhole; cases hwhole
  | composed => rfl
  | objective =>
    rw [hsite] at hwhole
    rw [Option.isNone_iff_eq_none.mp hwhole]
    rfl

/-- The mask sees the rows it should. -/
theorem slot_isSome_iff (hr : r < q.numRows) :
    (qualifierSlot q.mapping q.maskGroupIds r).isSome ↔ (q.tupleKey r).isSome := by
  unfold tupleKey
  cases hwhole : q.masksWhole with
  | true => simp [qualifierSlot_whole hwhole, inMaskGroup, hwhole]
  | false =>
    rw [qualifierSlot_eq hwhole, Option.isSome_map, groupOf_isSome_iff hr]
    have hin : q.inMaskGroup r = true → admits q.whenCondition r = true := by
      unfold inMaskGroup
      rw [hwhole, Bool.false_or, Bool.and_eq_true]
      exact fun h => (groupUnder_isSome_iff_admits.mp h.1).1
    split
    · rename_i h
      exact iff_of_true ⟨h, hin h⟩ rfl
    · rename_i h
      exact iff_of_false (fun hc => h hc.1) (by simp)

/-- The mask tells rows apart by their group and their tuple. -/
theorem slot_eq_iff (hr : r < q.numRows) (hs : s < q.numRows)
    (hrs : (qualifierSlot q.mapping q.maskGroupIds r).isSome)
    (hss : (qualifierSlot q.mapping q.maskGroupIds s).isSome) :
    qualifierSlot q.mapping q.maskGroupIds r = qualifierSlot q.mapping q.maskGroupIds s ↔
      q.tupleKey r = q.tupleKey s := by
  have hkey : ∀ i, i < q.numRows → (qualifierSlot q.mapping q.maskGroupIds i).isSome →
      q.tupleKey i = some (if q.masksWhole then none else q.clauseGroup i,
        q.mapping.rowToEntity i) := by
    intro i hi his
    rw [slot_isSome_iff hi] at his
    unfold tupleKey at his ⊢
    split at his
    · rename_i h
      rw [if_pos h]
    · cases his
  rw [hkey r hr hrs, hkey s hs hss, Option.some.injEq, Prod.mk.injEq]
  cases hwhole : q.masksWhole with
  | true => simp [qualifierSlot_whole hwhole]
  | false =>
    rw [qualifierSlot_eq hwhole, Option.isSome_map] at hrs hss
    obtain ⟨g, hg⟩ := Option.isSome_iff_exists.mp hrs
    obtain ⟨g', hg'⟩ := Option.isSome_iff_exists.mp hss
    have hgroup := groupOf_eq_iff hr hs hrs hss
    rw [hg, hg', Option.some.injEq] at hgroup
    rw [qualifierSlot_eq hwhole, qualifierSlot_eq hwhole, hg, hg']
    simp only [Option.map_some, Option.some.injEq, Bool.false_eq_true, if_false, ← hgroup]
    have hlt := q.entity_lt r hr
    have hlt' := q.entity_lt s hs
    constructor
    · intro h
      have hg : g = g' := by
        have hdiv := congrArg (· / q.mapping.numEntities) h
        simp only [Nat.mul_comm _ q.mapping.numEntities] at hdiv
        rwa [Nat.mul_add_div (Nat.zero_lt_of_lt hlt), Nat.mul_add_div (Nat.zero_lt_of_lt hlt),
          Nat.div_eq_of_lt hlt, Nat.div_eq_of_lt hlt', Nat.add_zero, Nat.add_zero] at hdiv
      subst hg
      exact ⟨rfl, Nat.add_left_cancel h⟩
    · rintro ⟨rfl, h⟩
      rw [h]

theorem isFirst_slot_iff (hr : r < q.numRows) :
    IsFirst (qualifierSlot q.mapping q.maskGroupIds) r ↔ IsFirst q.tupleKey r :=
  isFirst_congr hr (fun _ hi => slot_isSome_iff hi) fun _ _ hi hj => slot_eq_iff hi hj

/-- The rows of the reducer: those its own WHEN keeps that are the first of their slot. -/
theorem rowMask_iff (hr : r < q.numRows) :
    q.rowMask r = true ↔ admits q.filter r = true ∧ IsFirst q.tupleKey r := by
  have hkeep : buildQualifierKeepMask q.mapping q.maskGroupIds q.numRows r = true ↔
      IsFirst q.tupleKey r := by
    unfold buildQualifierKeepMask
    rw [List.contains_iff_mem, mem_firstRows, and_iff_right hr, isFirst_slot_iff hr]
  unfold rowMask applyQualifierToFilter
  cases hf : q.filter with
  | none => simpa [admits] using hkeep
  | some m => rw [Bool.and_eq_true, hkeep]; rfl

/-! ## Rows -/

theorem tupleKey_eq (hr : r < q.numRows) (hrs : (q.groupOf r).isSome) :
    q.tupleKey r =
      some (if q.masksWhole then none else q.clauseGroup r, q.mapping.rowToEntity r) := by
  unfold tupleKey
  rw [if_pos ((groupOf_isSome_iff hr).mp hrs).1]

theorem survives_iff (hr : r < q.numRows) :
    q.survives r = true ↔ (q.groupOf r).isSome ∧ admits q.filter r = true := by
  unfold survives
  rw [groupOf_isSome_iff hr, Bool.and_eq_true, Bool.and_eq_true]

/-- The rows a reducer should range over are those it reduces before the mask is folded in. -/
theorem mem_survivors (hr : r < q.numRows) (hrs : (q.groupOf r).isSome) :
    s ∈ q.survivors r ↔ s < q.numRows ∧ q.groupOf s = q.groupOf r ∧ admits q.filter s = true := by
  unfold survivors
  rw [List.mem_filter, mem_groupMates, and_assoc]
  refine and_congr_right fun hs => and_congr_left fun hfilter => ?_
  constructor
  · intro hsame
    have hsel : q.clauseGroup s = q.clauseGroup r := hsame
    suffices hss : (q.groupOf s).isSome from (groupOf_eq_iff hs hr hss hrs).mpr hsel
    rw [groupOf_isSome_iff hs]
    obtain ⟨hin, hwhen⟩ := (groupOf_isSome_iff hr).mp hrs
    unfold inMaskGroup at hin ⊢
    cases hwhole : q.masksWhole with
    | true =>
      refine ⟨by simp, ?_⟩
      -- without PER the group of a row says whether the WHEN keeps it
      have hper : q.perColumns = none := by
        unfold masksWhole at hwhole
        cases hsite : q.site with
        | constraint => rw [hsite] at hwhole; cases hwhole
        | bound => rw [hsite] at hwhole; cases hwhole
        | objective => rw [hsite] at hwhole; exact Option.isNone_iff_eq_none.mp hwhole
        | composed => exact (q.composed_bare hsite).2
      have hgr : (q.clauseGroup r).isSome := by
        unfold clauseGroup
        rw [groupUnder_isSome_iff_admits, hper]
        exact ⟨hwhen, by simp⟩
      exact (groupUnder_isSome_iff_admits.mp (hsel ▸ hgr : (q.clauseGroup s).isSome)).1
    | false =>
      rw [hwhole, Bool.false_or, Bool.and_eq_true] at hin
      have hgs : (q.clauseGroup s).isSome := hsel ▸ hin.1
      refine ⟨?_, (groupUnder_isSome_iff_admits.mp hgs).1⟩
      rw [Bool.false_or, Bool.and_eq_true]
      refine ⟨hgs, ?_⟩
      have hexists := hin.2
      unfold groupExists at hexists ⊢
      cases hsite : q.site with
      | bound =>
        rw [hsite] at hexists
        simp only at hexists ⊢
        rwa [hsel]
      | constraint => exact q.filter_active (by rw [hsite]; simp) s hfilter
      | objective => exact q.filter_active (by rw [hsite]; simp) s hfilter
      | composed => exact q.filter_active (by rw [hsite]; simp) s hfilter
  · intro hsame
    exact (groupOf_eq_iff hs hr (hsame ▸ hrs) hrs).mp hsame

theorem survivors_eq (hr : r < q.numRows) (hrs : (q.groupOf r).isSome) :
    q.survivors r = (List.range q.numRows).filter fun s =>
      q.groupOf s = q.groupOf r && admits q.filter s := by
  have hmem : ∀ s, s ∈ q.survivors r ↔ s < q.numRows ∧ q.groupOf s = q.groupOf r ∧
    admits q.filter s = true := fun s => mem_survivors hr hrs
  unfold survivors groupMates at hmem ⊢
  rw [List.filter_filter]
  refine List.filter_congr fun s hs => ?_
  have := hmem s
  simp only [List.mem_filter, hs, true_and, List.mem_range.mp hs] at this
  rw [Bool.eq_iff_iff, Bool.and_eq_true, Bool.and_eq_true, and_comm, this]
  simp

theorem reducedRows_eq (hr : r < q.numRows) (hrs : (q.groupOf r).isSome) :
    q.reducedRows r = (q.survivors r).filter q.rowMask := by
  unfold reducedRows
  rw [survivors_eq hr hrs, List.filter_filter]
  refine List.filter_congr fun s hs => ?_
  rw [Bool.eq_iff_iff]
  simp only [Bool.and_eq_true, rowMask_iff (List.mem_range.mp hs)]
  tauto

/-! ## Counting -/

theorem countsTuplesOnce_iff_perm :
    q.CountsTuplesOnce ↔ ∀ r, r < q.numRows → (q.groupOf r).isSome →
      (((q.survivors r).filter q.rowMask).map q.mapping.rowToEntity).Perm (q.survivingTuples r) := by
  unfold CountsTuplesOnce
  refine forall_congr' fun r => forall_congr' fun hr => forall_congr' fun hrs => ?_
  rw [← reduce_eq_iff_perm, reducedRows_eq hr hrs]
  simp only [List.map_map, Function.comp_def]

/-- In a group no tuple is lost exactly if the first row of each survives. -/
theorem reduced_perm_iff (hr : r < q.numRows) (hrs : (q.groupOf r).isSome) :
    (((q.survivors r).filter q.rowMask).map q.mapping.rowToEntity).Perm (q.survivingTuples r) ↔
      ∀ s ∈ q.survivors r, ∀ f, IsFirst q.tupleKey f → q.tupleKey f = q.tupleKey s →
        f ∈ q.survivors r := by
  have hmem : ∀ {s}, s ∈ q.survivors r → s < q.numRows ∧ (q.groupOf s).isSome ∧
      q.clauseGroup s = q.clauseGroup r ∧ admits q.filter s = true := by
    intro s hs
    obtain ⟨hsn, hsame, hf⟩ := (mem_survivors hr hrs).mp hs
    exact ⟨hsn, hsame ▸ hrs, (groupOf_eq_iff hsn hr (hsame ▸ hrs) hrs).mp hsame, hf⟩
  have hsome : ∀ s ∈ q.survivors r, q.tupleKey s =
      some (if q.masksWhole then none else q.clauseGroup s, q.mapping.rowToEntity s) := by
    intro s hs
    obtain ⟨hsn, hss, -, -⟩ := hmem hs
    exact tupleKey_eq hsn hss
  refine first_perm_dedup_iff ((List.nodup_range).filter _ |>.filter _) ?_ ?_ ?_
  · intro s hs
    obtain ⟨hsn, -, -, hf⟩ := hmem hs
    rw [rowMask_iff hsn, and_iff_right hf]
  · intro s hs
    rw [hsome s hs]
    rfl
  · intro s hs t ht
    rw [hsome s hs, hsome t ht, (hmem hs).2.2.1, (hmem ht).2.2.1, Option.some.injEq, Prod.mk.injEq]
    exact and_iff_right rfl

/-- No tuple is lost in any group exactly if first rows survive. -/
theorem reduced_perm_all_iff (q : QualifiedReducer) :
    (∀ r, r < q.numRows → (q.groupOf r).isSome →
      (((q.survivors r).filter q.rowMask).map q.mapping.rowToEntity).Perm (q.survivingTuples r)) ↔
      q.FirstRowsSurvive := by
  constructor
  · intro h r hr hsr f hf hfr
    obtain ⟨hrs, hfilter⟩ := (survives_iff hr).mp hsr
    have hself : r ∈ q.survivors r := (mem_survivors hr hrs).mpr ⟨hr, rfl, hfilter⟩
    obtain ⟨hfn, hsame, hff⟩ := (mem_survivors hr hrs).mp
      ((reduced_perm_iff hr hrs).mp (h r hr hrs) r hself f hf hfr)
    exact (survives_iff hfn).mpr ⟨hsame ▸ hrs, hff⟩
  · intro h r hr hrs
    refine (reduced_perm_iff hr hrs).mpr fun s hs f hf hfs => ?_
    obtain ⟨hsn, hsame, hsf⟩ := (mem_survivors hr hrs).mp hs
    have hss : (q.groupOf s).isSome := hsame ▸ hrs
    have hfn : f < q.numRows := by
      refine lt_of_le_of_lt ?_ hsn
      by_contra hlt
      exact hf.2 s (by omega) hfs.symm
    have hfsurv := h s hsn ((survives_iff hsn).mpr ⟨hss, hsf⟩) f hf hfs
    obtain ⟨hfg, hff⟩ := (survives_iff hfn).mp hfsurv
    refine (mem_survivors hr hrs).mpr ⟨hfn, ?_, hff⟩
    rw [← hsame, groupOf_eq_iff hfn hsn hfg hss]
    rw [tupleKey_eq hfn hfg, tupleKey_eq hsn hss, Option.some.injEq, Prod.mk.injEq] at hfs
    cases hwhole : q.masksWhole with
    | false =>
      rw [hwhole] at hfs
      exact hfs.1
    | true =>
      refine (groupOf_eq_iff hfn hsn hfg hss).mp ?_
      unfold masksWhole at hwhole
      unfold groupOf at hfg hss ⊢
      cases hsite : q.site with
      | constraint => rw [hsite] at hwhole; cases hwhole
      | bound => rw [hsite] at hwhole; cases hwhole
      | composed => rfl
      | objective =>
        rw [hsite] at hwhole hfg hss
        simp only [Option.isNone_iff_eq_none.mp hwhole, Option.isSome_none, Bool.false_eq_true,
          if_false] at hfg hss ⊢
        split at hfg
        · split at hss
          · rename_i h1 h2
            rw [if_pos h1, if_pos h2]
          · cases hss
        · cases hfg

/-- **A qualified reducer counts every tuple once exactly if first rows survive.** -/
theorem countsTuplesOnce_iff (q : QualifiedReducer) : q.CountsTuplesOnce ↔ q.FirstRowsSurvive :=
  countsTuplesOnce_iff_perm.trans q.reduced_perm_all_iff

/-! ## Orders -/

theorem groupUnder_comp (mask : Option RowMask) (columns : Option RowKey) (σ : Equiv.Perm Nat)
    (r : Nat) :
    groupUnder (mask.map (· ∘ σ)).toList (columns.map (· ∘ σ)).toList r =
      groupUnder mask.toList columns.toList (σ r) := by
  cases mask <;> cases columns <;> rfl

theorem clauseGroup_deliver (q : QualifiedReducer) {σ : Equiv.Perm Nat}
    (hσ : ∀ row, σ row < q.numRows ↔ row < q.numRows) (r : Nat) :
    (q.deliver σ hσ).clauseGroup r = q.clauseGroup (σ r) :=
  groupUnder_comp q.whenCondition q.perColumns σ r

theorem admits_comp (mask : Option RowMask) (σ : Equiv.Perm Nat) (r : Nat) :
    admits (mask.map (· ∘ σ)) r = admits mask (σ r) := by
  cases mask <;> rfl

theorem masksWhole_deliver (q : QualifiedReducer) {σ : Equiv.Perm Nat}
    (hσ : ∀ row, σ row < q.numRows ↔ row < q.numRows) :
    (q.deliver σ hσ).masksWhole = q.masksWhole := by
  unfold masksWhole
  rw [show (q.deliver σ hσ).site = q.site from rfl,
    show (q.deliver σ hσ).perColumns = q.perColumns.map (· ∘ σ) from rfl, Option.isNone_map]

theorem inMaskGroup_deliver (q : QualifiedReducer) {σ : Equiv.Perm Nat}
    (hσ : ∀ row, σ row < q.numRows ↔ row < q.numRows) (r : Nat) :
    (q.deliver σ hσ).inMaskGroup r = q.inMaskGroup (σ r) := by
  have hlocal : ∀ i, admits (q.deliver σ hσ).localRowActive i = admits q.localRowActive (σ i) :=
    fun i => admits_comp q.localRowActive σ i
  unfold inMaskGroup
  rw [masksWhole_deliver, clauseGroup_deliver]
  congr 2
  unfold groupExists
  rw [show (q.deliver σ hσ).site = q.site from rfl]
  cases hsite : q.site with
  | constraint => exact hlocal r
  | objective => exact hlocal r
  | composed => exact hlocal r
  | bound =>
    simp only [hlocal, clauseGroup_deliver]
    congr 1
    · show (q.perColumns.map (· ∘ σ)).isNone = q.perColumns.isNone
      exact Option.isNone_map
    · rw [Bool.eq_iff_iff, List.any_eq_true, List.any_eq_true]
      constructor
      · rintro ⟨i, hi, h⟩
        exact ⟨σ i, List.mem_range.mpr ((hσ i).mpr (List.mem_range.mp hi)), h⟩
      · rintro ⟨i, hi, h⟩
        have hback : σ (σ.symm i) = i := σ.apply_symm_apply i
        refine ⟨σ.symm i, List.mem_range.mpr ((hσ _).mp ?_), ?_⟩
        · rw [hback]
          exact List.mem_range.mp hi
        · rwa [hback]

theorem tupleKey_deliver (q : QualifiedReducer) {σ : Equiv.Perm Nat}
    (hσ : ∀ row, σ row < q.numRows ↔ row < q.numRows) :
    (q.deliver σ hσ).tupleKey = q.tupleKey ∘ σ := by
  funext r
  unfold tupleKey
  rw [Function.comp_apply, inMaskGroup_deliver, masksWhole_deliver, clauseGroup_deliver]
  rfl

theorem survives_deliver (q : QualifiedReducer) {σ : Equiv.Perm Nat}
    (hσ : ∀ row, σ row < q.numRows ↔ row < q.numRows) :
    (q.deliver σ hσ).survives = q.survives ∘ σ := by
  funext r
  unfold survives
  rw [Function.comp_apply, inMaskGroup_deliver]
  congr 1
  · congr 1
    exact admits_comp q.whenCondition σ r
  · exact admits_comp q.filter σ r

end QualifiedReducer

/-! ## The claim of the qualifier -/

/-- **A qualified reducer counts every tuple once exactly if the first row of the tuple survives with any
of its rows; it does so in whatever order the join delivers the rows exactly if the rows of a tuple survive
together.** -/
theorem qualifiedReducer_once_iff (q : QualifiedReducer) :
    (q.CountsTuplesOnce ↔ q.FirstRowsSurvive) ∧
      ((∀ (σ : Equiv.Perm Nat) (hσ : ∀ row, σ row < q.numRows ↔ row < q.numRows),
        (q.deliver σ hσ).CountsTuplesOnce) ↔ q.TuplesSurviveWhole) := by
  refine ⟨q.countsTuplesOnce_iff, ?_⟩
  have hsel : ∀ r, q.survives r = true → (q.tupleKey r).isSome := by
    intro r hr
    unfold QualifiedReducer.survives at hr
    unfold QualifiedReducer.tupleKey
    rw [if_pos (Bool.and_eq_true_iff.mp (Bool.and_eq_true_iff.mp hr).1).1]
    rfl
  unfold QualifiedReducer.TuplesSurviveWhole
  rw [← firstSelected_perm_iff hsel]
  refine forall_congr' fun σ => forall_congr' fun hσ => ?_
  rw [QualifiedReducer.countsTuplesOnce_iff]
  unfold QualifiedReducer.FirstRowsSurvive
  rw [QualifiedReducer.tupleKey_deliver, QualifiedReducer.survives_deliver]
  rfl

/-- `MAXIMIZE SUM(D: x) WHEN f` over two rows of one tuple, the second of which passes. -/
def qualifiedObjective : QualifiedReducer where
  site := .objective
  numRows := 2
  mapping := ⟨1, fun _ => 0⟩
  entity_lt := fun _ _ => Nat.zero_lt_one
  filter := some fun row => row = 1
  localRowActive := some fun row => row = 1
  filter_active := fun _ _ h => h
  composed_bare := fun h => by cases h

/-- The tuple is lost: the first of its rows is kept, and fails. -/
theorem not_countsTuplesOnce : ¬ qualifiedObjective.CountsTuplesOnce := by
  intro h
  have hsum := h 1 (by decide) (by decide) .sum fun _ => 1
  have hreduced : qualifiedObjective.reducedRows 1 = [] := by decide
  have htuples : qualifiedObjective.survivingTuples 1 = [0] := by decide
  rw [hreduced, htuples] at hsum
  revert hsum
  decide +kernel

end Decidb
