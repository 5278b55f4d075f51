import Decidb.Execution.EvaluateConstraint
import Decidb.Formulation.Proofs.MinMaxConstraintProofs
import Decidb.Optimizer.Proofs.RewriteMinMaxProofs

/-!
# Evaluated constraints read as the clauses they come from

The groups of an evaluated constraint are those of its WHEN and PER, each with one tightest bound.
From there the lowering of a lone MIN or MAX is compared with the clause.
-/

namespace Decidb

variable {indexer : VarIndexer} {a : Nat → ℚ}

/-! ## Groups -/

theorem mem_firstSeenKeys {columns : RowKey} {filter : RowMask} {n key : Nat} :
    key ∈ firstSeenKeys columns filter n ↔
      ∃ r, r < n ∧ filter r = true ∧ columns r = some key := by
  unfold firstSeenKeys
  induction n with
  | zero => simp
  | succ n ih =>
    rw [List.range_succ, List.foldl_append, List.foldl_cons, List.foldl_nil]
    set keys := (List.range n).foldl _ [] with hkeys
    have hstep : (∃ r, r < n + 1 ∧ filter r = true ∧ columns r = some key) ↔
        (∃ r, r < n ∧ filter r = true ∧ columns r = some key) ∨
          (filter n = true ∧ columns n = some key) := by
      constructor
      · rintro ⟨r, hr, hf, hc⟩
        rcases Nat.lt_succ_iff_lt_or_eq.mp hr with h | rfl
        · exact Or.inl ⟨r, h, hf, hc⟩
        · exact Or.inr ⟨hf, hc⟩
      · rintro (⟨r, hr, hf, hc⟩ | ⟨hf, hc⟩)
        · exact ⟨r, Nat.lt_succ_of_lt hr, hf, hc⟩
        · exact ⟨n, Nat.lt_succ_self n, hf, hc⟩
    rw [hstep, ← ih]
    cases hc : columns n with
    | none => simp
    | some k =>
      by_cases hf : filter n = true
      · by_cases hmem : k ∈ keys
        · simp only [hf, List.contains_iff_mem.mpr hmem, Bool.not_true, Bool.and_false,
            Bool.false_eq_true, if_false, true_and, Option.some.injEq]
          exact ⟨Or.inl, fun h => h.elim id fun h => h ▸ hmem⟩
        · have hcon : keys.contains k = false := by simpa using hmem
          simp only [hf, hcon, Bool.not_false, Bool.and_true, if_true, List.mem_append,
            List.mem_singleton, true_and, Option.some.injEq]
          exact or_congr_right eq_comm
      · simp [hf]

theorem keyId_eq_some {keys : List Nat} {columns : RowKey} {filter : RowMask} {r g : Nat} :
    keyId keys columns filter r = some g ↔
      ∃ key, columns r = some key ∧ filter r = true ∧ key ∈ keys ∧ keys.idxOf key = g := by
  unfold keyId
  cases hc : columns r with
  | none => simp
  | some key => simp [and_assoc]

theorem keyId_isSome {keys : List Nat} {columns : RowKey} {filter : RowMask} {r : Nat} :
    (keyId keys columns filter r).isSome ↔
      ∃ key, columns r = some key ∧ filter r = true ∧ key ∈ keys := by
  rw [Option.isSome_iff_exists]
  simp only [keyId_eq_some]
  exact ⟨fun ⟨_, key, hc, hf, hk, _⟩ => ⟨key, hc, hf, hk⟩,
    fun ⟨key, hc, hf, hk⟩ => ⟨_, key, hc, hf, hk, rfl⟩⟩

/-- Groups that are those of some conditions and columns, over the rows a mask keeps on the left and
over all of them on the right. -/
structure RowGroups.Reads (groups : RowGroups) (whens : List RowMask) (pers : List RowKey)
    (kept : Nat → Bool) (numRows : Nat) : Prop where
  kept : ∀ r, r < numRows →
    ((groups.groupOf r).isSome ↔ (groupUnder whens pers r).isSome ∧ kept r = true)
  rhs_eq : ∀ r, r < numRows → (groups.groupOf r).isSome → groups.rhsGroupOf r = groups.groupOf r
  mates : ∀ r i, r < numRows → i < numRows → (groups.groupOf r).isSome →
    (groups.rhsGroupOf i = groups.groupOf r ↔ groupUnder whens pers i = groupUnder whens pers r)
  inRange : ∀ r g, r < numRows → groups.groupOf r = some g →
    g < (if groups.rowGroupIds.isSome then max groups.numGroups 1 else 1)

theorem admits_iff {mask : Option RowMask} {r : Nat} :
    admits mask r = true ↔ ∀ m ∈ mask.toList, m r = true := by
  cases mask with
  | none => simp [admits]
  | some m => simp [admits]

theorem groupUnder_isSome_iff_admits {mask : Option RowMask} {columns : Option RowKey} {r : Nat} :
    (groupUnder mask.toList columns.toList r).isSome ↔
      admits mask r = true ∧ ∀ k ∈ columns.toList, (k r).isSome := by
  rw [groupUnder_isSome, admits_iff]

/-- **The groups of a constraint are those of its WHEN and PER.** -/
theorem assignRowGroups_reads (mask : Option RowMask) (columns : Option RowKey)
    (filter : Option RowMask) (numRows : Nat) :
    (assignRowGroups mask columns filter numRows).Reads mask.toList columns.toList (admits filter)
      numRows := by
  cases columns with
  | some columns =>
    have hsame : ∀ r i key, columns r = some key → admits mask r = true →
        (groupUnder mask.toList [columns] i = groupUnder mask.toList [columns] r ↔
          columns i = some key ∧ admits mask i = true) := by
      intro r i key hc hr
      have hsr : (groupUnder mask.toList [columns] r).isSome :=
        (@groupUnder_isSome_iff_admits _ (some columns) _).mpr ⟨hr, by simp [hc]⟩
      constructor
      · intro h
        have hsi : (groupUnder mask.toList [columns] i).isSome := h ▸ hsr
        have hmi := ((@groupUnder_isSome_iff_admits _ (some columns) _).mp hsi).1
        exact ⟨((groupUnder_eq_iff hsi hsr).mp h columns (by simp)).trans hc, hmi⟩
      · rintro ⟨hci, hmi⟩
        have hsi : (groupUnder mask.toList [columns] i).isSome :=
          (@groupUnder_isSome_iff_admits _ (some columns) _).mpr ⟨hmi, by simp [hci]⟩
        refine (groupUnder_eq_iff hsi hsr).mpr fun k hk => ?_
        rw [List.mem_singleton.mp hk, hci, hc]
    set included : RowMask := fun r => admits mask r && admits filter r with hincluded
    set groups := assignRowGroups mask (some columns) filter numRows
    have hleft : ∀ r, groups.groupOf r =
        keyId (firstSeenKeys columns included numRows) columns included r := fun _ => rfl
    have hright : ∀ r, groups.rhsGroupOf r =
        keyId (firstSeenKeys columns included numRows) columns (admits mask) r := fun _ => rfl
    have hkept : ∀ r, r < numRows → ((groups.groupOf r).isSome ↔
        ∃ key, columns r = some key ∧ admits mask r = true ∧ admits filter r = true) := by
      intro r hr
      rw [hleft, keyId_isSome]
      constructor
      · rintro ⟨key, hc, hf, -⟩
        exact ⟨key, hc, Bool.and_eq_true_iff.mp hf⟩
      · rintro ⟨key, hc, hf⟩
        have hf' : included r = true := Bool.and_eq_true_iff.mpr hf
        exact ⟨key, hc, hf', mem_firstSeenKeys.mpr ⟨r, hr, hf', hc⟩⟩
    refine ⟨fun r hr => ?_, fun r hr hsome => ?_, fun r i hr hi hsome => ?_, fun r g hr hg => ?_⟩
    · refine (hkept r hr).trans ?_
      rw [groupUnder_isSome_iff_admits]
      simp only [Option.toList_some, List.mem_singleton, forall_eq, Option.isSome_iff_exists]
      exact ⟨fun ⟨key, hc, hm, hf⟩ => ⟨⟨hm, key, hc⟩, hf⟩, fun ⟨⟨hm, key, hc⟩, hf⟩ =>
        ⟨key, hc, hm, hf⟩⟩
    · rw [hleft] at hsome
      obtain ⟨key, hc, hf, hk⟩ := keyId_isSome.mp hsome
      have hm : admits mask r = true := (Bool.and_eq_true_iff.mp hf).1
      rw [hleft, hright, keyId_eq_some.mpr ⟨key, hc, hf, hk, rfl⟩,
        keyId_eq_some.mpr ⟨key, hc, hm, hk, rfl⟩]
    · rw [hleft] at hsome
      obtain ⟨key, hc, hf, hk⟩ := keyId_isSome.mp hsome
      have hm : admits mask r = true := (Bool.and_eq_true_iff.mp hf).1
      rw [hleft, hright, keyId_eq_some.mpr ⟨key, hc, hf, hk, rfl⟩, keyId_eq_some]
      refine Iff.trans ?_ (hsame r i key hc hm).symm
      constructor
      · rintro ⟨key', hci, hmi, hk', hidx⟩
        rw [(List.idxOf_inj hk').mp hidx] at hci
        exact ⟨hci, hmi⟩
      · rintro ⟨hci, hmi⟩
        exact ⟨key, hci, hmi, hk, rfl⟩
    · rw [hleft] at hg
      obtain ⟨key, -, -, hk, rfl⟩ := keyId_eq_some.mp hg
      exact lt_max_of_lt_left (List.idxOf_lt_length_of_mem hk)
  | none =>
    have hgroup : ∀ r, groupUnder mask.toList [] r = if admits mask r then some [] else none := by
      intro r
      cases mask with
      | none => rfl
      | some m => cases h : m r <;> simp [groupUnder, admits, h]
    by_cases hnone : (mask.isNone && filter.isNone) = true
    · obtain ⟨hm, hf⟩ := Bool.and_eq_true_iff.mp hnone
      obtain rfl := Option.isNone_iff_eq_none.mp hm
      obtain rfl := Option.isNone_iff_eq_none.mp hf
      refine ⟨fun r _ => ?_, fun _ _ _ => rfl, fun _ _ _ _ _ => ?_, fun r g _ hg => ?_⟩
      · simp [assignRowGroups, RowGroups.groupOf, groupUnder, admits]
      · simp [assignRowGroups, RowGroups.groupOf, RowGroups.rhsGroupOf, groupUnder]
      · simp only [assignRowGroups, RowGroups.groupOf, Option.isNone_none, Bool.and_self, if_true,
          Option.some.injEq] at hg
        simp [assignRowGroups, ← hg]
    · have hassign : assignRowGroups mask none filter numRows =
          { rowGroupIds := some fun r => if admits mask r && admits filter r then some 0 else none
            numGroups := 1
            rhsRowGroupIds := some fun r => if admits mask r then some 0 else none } := by
        simp only [assignRowGroups, hnone, if_false, Bool.false_eq_true]
      rw [hassign]
      refine ⟨fun r _ => ?_, fun r _ hsome => ?_, fun r i _ _ hsome => ?_, fun r g _ hg => ?_⟩
      · simp only [RowGroups.groupOf, Option.toList_none, hgroup]
        by_cases h : admits mask r = true <;> simp [h]
      · simp only [RowGroups.groupOf, RowGroups.rhsGroupOf] at hsome ⊢
        by_cases h : admits mask r = true <;> by_cases h' : admits filter r = true <;>
          simp_all
      · simp only [RowGroups.groupOf, RowGroups.rhsGroupOf, Option.toList_none, hgroup] at hsome ⊢
        by_cases h : admits mask r = true <;> by_cases h' : admits filter r = true <;>
          simp_all
      · simp only [RowGroups.groupOf] at hg
        split at hg
        · simp [← Option.some.inj hg]
        · cases hg

namespace RowGroups.Reads

variable {groups : RowGroups} {whens : List RowMask} {pers : List RowKey} {kept : Nat → Bool}
  {n r : Nat}

/-- The rows of a group on the left are the kept ones. -/
theorem leftRows_eq (h : groups.Reads whens pers kept n) (hr : r < n) {g : Nat}
    (hg : groups.groupOf r = some g) :
    ((List.range n).filter fun i => groups.groupOf i = some g) =
      (groupMates whens pers n r).filter kept := by
  have hsome : (groups.groupOf r).isSome := by rw [hg]; rfl
  unfold groupMates
  rw [List.filter_filter]
  refine List.filter_congr fun i hi => ?_
  have hin := List.mem_range.mp hi
  have hiff : groups.groupOf i = some g ↔
      kept i = true ∧ groupUnder whens pers i = groupUnder whens pers r := by
    constructor
    · intro hig
      have hisome : (groups.groupOf i).isSome := by rw [hig]; rfl
      exact ⟨((h.kept i hin).mp hisome).2,
        (h.mates r i hr hin hsome).mp ((h.rhs_eq i hin hisome).trans (hig.trans hg.symm))⟩
    · rintro ⟨hk, hu⟩
      have hisome := (h.kept i hin).mpr ⟨hu ▸ ((h.kept r hr).mp hsome).1, hk⟩
      rw [← h.rhs_eq i hin hisome, (h.mates r i hr hin hsome).mpr hu, hg]
  by_cases hc : groups.groupOf i = some g
  · rw [decide_eq_true hc, (hiff.mp hc).1, decide_eq_true (hiff.mp hc).2, Bool.and_self]
  · rw [decide_eq_false hc]
    by_cases hk : kept i = true
    · rw [hk, decide_eq_false fun hu => hc (hiff.mpr ⟨hk, hu⟩), Bool.and_false]
    · rw [Bool.eq_false_iff.mpr hk, Bool.false_and]

/-- The rows of a group on the right are all of them. -/
theorem rightRows_eq (h : groups.Reads whens pers kept n) (hr : r < n)
    (hsome : (groups.groupOf r).isSome) {g : Nat} (hg : groups.rhsGroupOf r = some g) :
    ((List.range n).filter fun i => groups.rhsGroupOf i = some g) = groupMates whens pers n r := by
  refine List.filter_congr fun i hi => ?_
  rw [← (h.rhs_eq r hr hsome).symm.trans hg]
  exact decide_eq_decide.mpr (h.mates r i hr (List.mem_range.mp hi) hsome)

theorem rhsRows_eq (h : groups.Reads whens pers kept n) (hr : r < n)
    (hsome : (groups.groupOf r).isSome) {i : Nat} (hi : i ∈ groupMates whens pers n r) :
    groups.rhsRows n i = groupMates whens pers n r := by
  obtain ⟨hin, hiu⟩ := mem_groupMates.mp hi
  obtain ⟨g, hg⟩ := Option.isSome_iff_exists.mp hsome
  have hrhs : groups.rhsGroupOf i = some g := by rw [(h.mates r i hr hin hsome).mpr hiu, hg]
  have hr' : groups.rhsGroupOf r = some g := by rw [h.rhs_eq r hr hsome, hg]
  unfold RowGroups.rhsRows
  rw [hrhs, Option.getD_some]
  exact h.rightRows_eq hr hsome hr'

end RowGroups.Reads

/-! ## Bounds -/

/-- **The tightest bound stands for all of them.** -/
theorem tightestBound_spec {cmp : Comparison} (hcmp : cmp.isOrder = true) {bounds : List Bound}
    (hne : bounds ≠ []) :
    ∃ k, tightestBound cmp bounds = some k ∧
      ∀ v, cmp.Holds v k ↔ ∀ b ∈ bounds, cmp.Holds v b := by
  have hmin : ∃ k, bounds.min? = some k ∧ k ∈ bounds ∧ ∀ b ∈ bounds, k ≤ b := by
    obtain ⟨k, hk⟩ := Option.isSome_iff_exists.mp (List.isSome_min?_of_ne_nil hne)
    exact ⟨k, hk, List.min?_eq_some_iff.mp hk⟩
  have hmax : ∃ k, bounds.max? = some k ∧ k ∈ bounds ∧ ∀ b ∈ bounds, b ≤ k := by
    obtain ⟨k, hk⟩ := Option.isSome_iff_exists.mp (List.isSome_max?_of_ne_nil hne)
    exact ⟨k, hk, List.max?_eq_some_iff.mp hk⟩
  cases cmp with
  | eq => cases hcmp
  | ne => cases hcmp
  | le =>
    obtain ⟨k, hk, hmem, hle⟩ := hmin
    exact ⟨k, hk, fun v => ⟨fun h b hb => le_trans h (hle b hb), fun h => h k hmem⟩⟩
  | lt =>
    obtain ⟨k, hk, hmem, hle⟩ := hmin
    exact ⟨k, hk, fun v => ⟨fun h b hb => lt_of_lt_of_le h (hle b hb), fun h => h k hmem⟩⟩
  | ge =>
    obtain ⟨k, hk, hmem, hle⟩ := hmax
    exact ⟨k, hk, fun v => ⟨fun h b hb => le_trans (hle b hb) h, fun h => h k hmem⟩⟩
  | gt =>
    obtain ⟨k, hk, hmem, hle⟩ := hmax
    exact ⟨k, hk, fun v => ⟨fun h b hb => lt_of_le_of_lt (hle b hb) h, fun h => h k hmem⟩⟩

theorem groupBound_spec {cmp : Comparison} (hcmp : cmp.isOrder = true) {rhs : RhsExpr}
    {rows : List Nat} (hne : rows ≠ []) (v : ℚ) :
    cmp.Holds v (groupBound cmp rhs rows) ↔ ∀ i ∈ rows, cmp.Holds v (rhs.value rows i) := by
  obtain ⟨k, hk, hiff⟩ := tightestBound_spec hcmp
    (show rows.map (rhs.value rows) ≠ [] by simpa using hne)
  rw [groupBound, hk, Option.getD_some, hiff]
  simp only [List.forall_mem_map]

/-- **Every kept row gets the one bound of its group.** -/
theorem reduceAggregateRhsPerGroup_spec {groups : RowGroups} {whens : List RowMask}
    {pers : List RowKey} {kept : Nat → Bool} {n : Nat} (h : groups.Reads whens pers kept n)
    {cmp : Comparison} (hcmp : cmp.isOrder = true) {text : String} {rhs : RhsExpr} :
    ∃ rhsValues, reduceAggregateRhsPerGroup cmp groups n text
        (fun r => rhs.value (groups.rhsRows n r) r) = .ok rhsValues ∧
      ∀ r, r < n → (groups.groupOf r).isSome →
        rhsValues r = groupBound cmp rhs (groupMates whens pers n r) := by
  have hvalue : ∀ r, r < n → (groups.groupOf r).isSome → ∃ g, groups.rhsGroupOf r = some g ∧
      ∀ d, (tightestBound cmp (((List.range n).filter fun i => groups.rhsGroupOf i = some g).map
        fun r => rhs.value (groups.rhsRows n r) r)).getD d =
          groupBound cmp rhs (groupMates whens pers n r) := by
    intro r hr hsome
    obtain ⟨g, hg⟩ := Option.isSome_iff_exists.mp hsome
    have hrhs : groups.rhsGroupOf r = some g := by rw [h.rhs_eq r hr hsome, hg]
    have hmem : r ∈ groupMates whens pers n r := mem_groupMates.mpr ⟨hr, rfl⟩
    have hmap : ((groupMates whens pers n r).map fun i => rhs.value (groups.rhsRows n i) i) =
        (groupMates whens pers n r).map (rhs.value (groupMates whens pers n r)) :=
      List.map_congr_left fun i hi => by rw [h.rhsRows_eq hr hsome hi]
    obtain ⟨k, hk, -⟩ := tightestBound_spec hcmp
      (show (groupMates whens pers n r).map (rhs.value (groupMates whens pers n r)) ≠ [] by
        simpa using List.ne_nil_of_mem hmem)
    refine ⟨g, hrhs, fun d => ?_⟩
    simp only [h.rightRows_eq hr hsome hrhs, hmap]
    rw [groupBound, hk, Option.getD_some, Option.getD_some]
  cases cmp with
  | eq => cases hcmp
  | ne => cases hcmp
  | lt | le | ge | gt =>
    refine ⟨_, rfl, fun r hr hsome => ?_⟩
    obtain ⟨g, hrhs, hbound⟩ := hvalue r hr hsome
    dsimp only
    rw [hrhs]
    exact hbound _

/-! ## Hard comparisons -/

/-- A value reaches a bound on the side the rows of a tagged constraint ask for: at or above it for
a MAX, at or below it for a MIN, whatever the relation. -/
def ReachesOwnSide (isMax : Bool) (cmp : Comparison) (bound : Bound) (v : ℚ) : Prop :=
  match classifyMinMaxBound bound isMax, bound with
  | .linearize, .fin k => BoundSide isMax k v
  | .noSolution, k => cmp.Holds v k
  | _, _ => True

theorem hardReads_iff {isMax : Bool} {cmp : Comparison} {bound : Bound} {values : List ℚ}
    (hne : values ≠ []) :
    HardReads isMax cmp bound values ↔ ∃ v ∈ values, ReachesOwnSide isMax cmp bound v := by
  obtain ⟨v₀, hv₀⟩ := List.exists_mem_of_ne_nil values hne
  -- whether an infinite bound is met does not depend on the value
  have hall : ∀ k, (∀ v w, cmp.Holds v k ↔ cmp.Holds w k) →
      ((∀ v ∈ values, cmp.Holds v k) ↔ ∃ v ∈ values, cmp.Holds v k) := fun k hk =>
    ⟨fun h => ⟨v₀, hv₀, h v₀ hv₀⟩, fun ⟨v, _, hv⟩ w _ => (hk v w).mp hv⟩
  unfold HardReads ReachesOwnSide
  cases bound with
  | fin k => simp [classifyMinMaxBound]
  | posInf =>
    cases isMax with
    | true =>
      simp only [classifyMinMaxBound, if_true]
      exact hall _ fun v w => by cases cmp <;> simp [Comparison.Holds]
    | false =>
      simp only [classifyMinMaxBound, Bool.false_eq_true, if_false, and_true]
      exact iff_of_true trivial ⟨v₀, hv₀⟩
  | negInf =>
    cases isMax with
    | true =>
      simp only [classifyMinMaxBound, if_true, and_true]
      exact iff_of_true trivial ⟨v₀, hv₀⟩
    | false =>
      simp only [classifyMinMaxBound, Bool.false_eq_true, if_false]
      exact hall _ fun v w => by cases cmp <;> simp [Comparison.Holds]

/-- The hard direction, by the sign of the factor. -/
theorem asksSomeRow_cases {scale : Option ScaleFactor} {agg : Aggregate} {cmp : Comparison}
    (hmm : agg.name.isMinMax = true) (hsign : scaleSignAtPlanTime scale ≠ 0)
    (hcmp : cmp.isOrder = true) (hhard : asksEveryRow scale agg cmp = false) :
    ((cmp = .ge ∨ cmp = .gt) ∧
        ((agg.name = .max ∧ 0 ≤ scaleFactorValue scale) ∨
          (agg.name = .min ∧ scaleFactorValue scale < 0))) ∨
      ((cmp = .le ∨ cmp = .lt) ∧
        ((agg.name = .min ∧ 0 ≤ scaleFactorValue scale) ∨
          (agg.name = .max ∧ scaleFactorValue scale < 0))) := by
  unfold asksEveryRow isEasyMinMax flipBySign at hhard
  rcases scaleSign_spec scale with hs | ⟨hs, hf⟩ | ⟨hs, hf⟩
  · exact absurd hs hsign
  · rw [hs] at hhard
    cases hname : agg.name with
    | sum | avg => rw [hname] at hmm; cases hmm
    | max => cases hc : cmp <;> simp_all [Comparison.isOrder]
    | min => cases hc : cmp <;> simp_all [Comparison.isOrder]
  · rw [hs] at hhard
    cases hname : agg.name with
    | sum | avg => rw [hname] at hmm; cases hmm
    | max => cases hc : cmp <;> simp_all [Comparison.flip, Comparison.isOrder]
    | min => cases hc : cmp <;> simp_all [Comparison.flip, Comparison.isOrder]

/-- **A MIN or MAX in its hard direction meets a bound iff some row does.** -/
theorem hard_reduce_iff {scale : Option ScaleFactor} {agg : Aggregate} {cmp : Comparison}
    (hmm : agg.name.isMinMax = true) (hsign : scaleSignAtPlanTime scale ≠ 0)
    (hcmp : cmp.isOrder = true) (hhard : asksEveryRow scale agg cmp = false) {vs : List ℚ}
    (hne : vs ≠ []) (k : Bound) :
    cmp.Holds (scaleFactorValue scale * agg.name.reduce vs) k ↔
      ∃ v ∈ vs, cmp.Holds (scaleFactorValue scale * v) k := by
  obtain ⟨hmem, hall⟩ := reduce_attained hmm hne
  refine ⟨fun h => ⟨_, hmem, h⟩, fun ⟨v, hv, h⟩ => ?_⟩
  have hv' := hall v hv
  rcases asksSomeRow_cases hmm hsign hcmp hhard with ⟨hc, hcase⟩ | ⟨hc, hcase⟩
  · refine Comparison.holds_of_ge hc ?_ h
    rcases hcase with ⟨hname, hf⟩ | ⟨hname, hf⟩
    · rw [if_pos hname] at hv'
      exact mul_le_mul_of_nonneg_left hv' hf
    · rw [if_neg (by simp [hname])] at hv'
      exact mul_le_mul_of_nonpos_left hv' hf.le
  · refine Comparison.holds_of_le hc ?_ h
    rcases hcase with ⟨hname, hf⟩ | ⟨hname, hf⟩
    · rw [if_neg (by simp [hname])] at hv'
      exact mul_le_mul_of_nonneg_left hv' hf
    · rw [if_pos hname] at hv'
      exact mul_le_mul_of_nonpos_left hv' hf.le

/-- In every group that has a kept row, some kept row meets `P` at the bound of the group. -/
def GroupsReach (P : Bound → ℚ → Prop) (cmp : Comparison) (rhs : RhsExpr) (agg : Aggregate)
    (value : Nat → ℚ) (numRows : Nat) (whens : List RowMask) (pers : List RowKey) : Prop :=
  ∀ r₀, r₀ < numRows → (groupUnder whens pers r₀).isSome → agg.keeps r₀ = true →
    ∃ r ∈ agg.members (groupMates whens pers numRows r₀),
      P (groupBound cmp rhs (groupMates whens pers numRows r₀)) (value r)

/-- **A lone MIN or MAX in its hard direction asks some kept row of every group for the bound.** -/
theorem lone_hard_holdsUnder_iff {c : DecideComparison} {scale : Option ScaleFactor}
    {agg : Aggregate} (hl : LoneMinMax c scale agg) {cmp : Comparison} (hcmp : cmp.isOrder = true)
    (hhard : asksEveryRow scale agg cmp = false) {whens : List RowMask} {pers : List RowKey} :
    DecideComparison.HoldsUnder { c with cmp } indexer whens pers a ↔
      GroupsReach (fun k v => cmp.Holds v k) cmp c.rhs agg (scaledBody scale agg indexer a)
        indexer.numRows whens pers := by
  have hmm : agg.name.isMinMax = true := (Bool.and_eq_true_iff.mp hl.minMax).1
  have hin : ∀ rows r₀, agg.members rows ≠ [] →
      (DecideComparison.HoldsIn { c with cmp } indexer a rows r₀ ↔
        ∃ r ∈ agg.members rows,
          cmp.Holds (scaledBody scale agg indexer a r) (groupBound cmp c.rhs rows)) := by
    intro rows r₀ hne
    have hrows : rows ≠ [] := by
      rintro rfl
      exact hne rfl
    unfold DecideComparison.HoldsIn
    simp only [hl.lhs_eq, AggregateSum.Defined, AggregateSum.valueIn, Aggregate.valueOver]
    have hone := hard_reduce_iff hmm hl.sign_ne hcmp hhard
      (show (agg.members rows).map (fun r => rowValue agg.child r fun v => a (indexer.get v r)) ≠ []
        by simpa using hne) (groupBound cmp c.rhs rows)
    rw [groupBound_spec hcmp hrows] at hone
    simp only [List.mem_map, exists_exists_and_eq_and] at hone
    exact ⟨fun h => hone.mp fun i hi => h hne i hi, fun h _ i hi => hone.mpr h i hi⟩
  constructor
  · intro h r₀ hr₀ hsome hkept
    have hne : agg.members (groupMates whens pers indexer.numRows r₀) ≠ [] :=
      List.ne_nil_of_mem (mem_members.mpr ⟨mem_groupMates.mpr ⟨hr₀, rfl⟩, hkept⟩)
    exact (hin _ r₀ hne).mp (h r₀ hr₀ hsome)
  · intro h r₀ hr₀ hsome
    by_cases hne : agg.members (groupMates whens pers indexer.numRows r₀) = []
    · unfold DecideComparison.HoldsIn
      simp only [hl.lhs_eq, AggregateSum.Defined]
      exact fun hd => absurd hne hd
    · obtain ⟨r, hr⟩ := List.exists_mem_of_ne_nil _ hne
      obtain ⟨hmate, hkept⟩ := mem_members.mp hr
      obtain ⟨hrn, hru⟩ := mem_groupMates.mp hmate
      have := h r hrn (hru ▸ hsome) hkept
      rw [groupMates_congr hru] at this
      exact (hin _ r₀ hne).mpr this

/-! ## Evaluated clauses -/

theorem groupOf_eq {ec : EvaluatedConstraint} {groups : RowGroups}
    (h : ec.rowGroupIds = groups.rowGroupIds) (r : Nat) : ec.groupOf r = groups.groupOf r := by
  cases hids : groups.rowGroupIds <;>
    simp only [EvaluatedConstraint.groupOf, RowGroups.groupOf, h, hids]

/-- A body under a factor and a mask. -/
def maskedBody (factor : ℚ) (reduction : LinearTermReduction) (filter : Option RowMask)
    (body : List LhsTerm) : List LhsTerm :=
  body.map fun t => maskedTerm { term := scaledTerm factor reduction t, filter }

/-- On a row the mask lets through it is the scaled body. -/
theorem rowValue_maskedBody (factor : ℚ) (reduction : LinearTermReduction)
    {filter : Option RowMask} {r : Nat} (hadm : admits filter r = true) (body : List LhsTerm)
    (x : Nat → ℚ) :
    rowValue (maskedBody factor reduction filter body) r x = factor * rowValue body r x := by
  unfold maskedBody
  induction body with
  | nil => simp [rowValue, rowVariablePart, decideRowFixedLhsOffset]
  | cons t terms ih =>
    rw [List.map_cons]
    unfold rowValue rowVariablePart decideRowFixedLhsOffset at ih ⊢
    cases hv : t.variableIndex with
    | none =>
      simp only [List.map_cons, List.sum_cons, List.filter_cons, maskedTerm, scaledTerm, hadm, hv,
        Option.isNone_none, if_true] at ih ⊢
      linarith
    | some v =>
      simp only [List.map_cons, List.sum_cons, List.filter_cons, maskedTerm, scaledTerm, hadm, hv,
        Option.isNone_some, Bool.false_eq_true, if_true, if_false] at ih ⊢
      linarith

/-- The terms of a tagged clause. -/
def hardTerms (scale : Option ScaleFactor) (agg : Aggregate) : List LhsTerm :=
  maskedBody (scaleFactorValue scale) .sum agg.filter agg.child

theorem localRowActive_hard {scale : Option ScaleFactor} {agg : Aggregate} (hne : agg.child ≠ []) :
    localRowActive (DecideLhs.hardMinMax scale agg).preparedTerms = agg.filter := by
  obtain ⟨t, ht⟩ := List.exists_mem_of_ne_nil _ hne
  unfold localRowActive DecideLhs.preparedTerms
  simp only [List.any_map]
  cases hf : agg.filter with
  | none => simp [Function.comp_def]
  | some m =>
    rw [if_pos (List.any_eq_true.mpr ⟨t, ht, rfl⟩), Option.some.injEq]
    funext r
    cases hm : m r with
    | true => exact List.any_eq_true.mpr ⟨t, ht, hm⟩
    | false => exact List.any_eq_false.mpr fun t' _ => by simp [admits, hm]

/-- What `EvaluateConstraints` makes of a tagged clause. -/
structure EvaluatesHard (ec : EvaluatedConstraint) (isMax : Bool) (scale : Option ScaleFactor)
    (agg : Aggregate) (cmp : Comparison) (rhs : RhsExpr) (whens : List RowMask)
    (pers : List RowKey) (n : Nat) : Prop where
  tag : ec.minmaxAggType = some (if isMax then .max else .min)
  cmp_eq : ec.comparisonType = cmp
  terms : ec.lhsTerms = hardTerms scale agg
  groups : ∃ groups : RowGroups, groups.Reads whens pers agg.keeps n ∧
    ec.rowGroupIds = groups.rowGroupIds ∧ ec.numGroups = groups.numGroups
  bound : ∀ r, r < n → (ec.groupOf r).isSome →
    ec.rhsValues r = groupBound cmp rhs (groupMates whens pers n r)

theorem evaluateConstraint_hard {scale : Option ScaleFactor} {agg : Aggregate} {cmp : Comparison}
    {rhs : RhsExpr} {mask : Option RowMask} {columns : Option RowKey} {n : Nat}
    {ec : EvaluatedConstraint} (hcmp : cmp.isOrder = true) (hne : agg.child ≠ [])
    (hok : evaluateConstraint n ⟨hardComparison scale agg cmp rhs, mask, columns⟩ = .ok ec) :
    EvaluatesHard ec (agg.name = .max) scale agg cmp rhs mask.toList columns.toList n := by
  have hreads := assignRowGroups_reads mask columns agg.filter n
  obtain ⟨rhsValues, hred, hbound⟩ := @reduceAggregateRhsPerGroup_spec _ _ _ _ _ hreads _ hcmp
    rhs.text rhs
  have hlocal := @localRowActive_hard scale _ hne
  unfold evaluateConstraint at hok
  simp only [hardComparison, DecideLhs.isAggregate, if_true, hlocal, Bool.true_or, Bool.true_and]
    at hok
  split at hok
  · cases hok
  split at hok
  · cases hok
  rw [hred] at hok
  obtain rfl := Except.ok.inj hok
  refine ⟨?_, rfl, ?_, ⟨_, hreads, rfl, rfl⟩, fun r hr hsome => hbound r hr ?_⟩
  · by_cases hname : agg.name = .max <;> simp [DecideLhs.minmaxAggType, hname]
  · simp [DecideLhs.preparedTerms, hardTerms, maskedBody, Function.comp_def]
  · rwa [groupOf_eq rfl] at hsome

/-- **A tagged clause asks some kept row of every group to reach its bound on the reducer's own
side.** -/
theorem taggedReads_iff_groupsReach {ec : EvaluatedConstraint} {isMax : Bool}
    {scale : Option ScaleFactor} {agg : Aggregate} {cmp : Comparison} {rhs : RhsExpr}
    {whens : List RowMask} {pers : List RowKey}
    (h : EvaluatesHard ec isMax scale agg cmp rhs whens pers indexer.numRows) :
    TaggedReads indexer indexer.numRows isMax ec a ↔
      GroupsReach (ReachesOwnSide isMax cmp) cmp rhs agg (scaledBody scale agg indexer a)
        indexer.numRows whens pers := by
  obtain ⟨groups, hreads, hids, -⟩ := h.groups
  have hgroup := groupOf_eq hids
  have hrow : ∀ r₀ g, r₀ < indexer.numRows → ec.groupOf r₀ = some g →
      (HardReads isMax ec.comparisonType (ec.rhsValues r₀)
          ((groupRows ec indexer.numRows g).map (ec.lhsValue indexer a)) ↔
        ∃ r ∈ agg.members (groupMates whens pers indexer.numRows r₀),
          ReachesOwnSide isMax cmp (groupBound cmp rhs (groupMates whens pers indexer.numRows r₀))
            (scaledBody scale agg indexer a r)) := by
    intro r₀ g hr₀ hg
    have hsome : (ec.groupOf r₀).isSome := by rw [hg]; rfl
    have hrows : groupRows ec indexer.numRows g =
        agg.members (groupMates whens pers indexer.numRows r₀) := by
      unfold groupRows
      simp only [hgroup]
      exact hreads.leftRows_eq hr₀ (hgroup r₀ ▸ hg)
    have hmem : r₀ ∈ groupRows ec indexer.numRows g := mem_groupRows.mpr ⟨hr₀, hg⟩
    rw [hardReads_iff (by simpa using List.ne_nil_of_mem hmem), hrows, h.cmp_eq,
      h.bound r₀ hr₀ hsome]
    simp only [List.mem_map, exists_exists_and_eq_and]
    refine exists_congr fun r => and_congr_right fun hr => ?_
    unfold EvaluatedConstraint.lhsValue scaledBody
    rw [h.terms, hardTerms, rowValue_maskedBody _ _ (mem_members.mp hr).2]
  constructor
  · intro ht r₀ hr₀ hsome hkept
    have hsome' := (hreads.kept r₀ hr₀).mpr ⟨hsome, hkept⟩
    obtain ⟨g, hg⟩ := Option.isSome_iff_exists.mp hsome'
    have hg' : ec.groupOf r₀ = some g := (hgroup r₀).trans hg
    exact (hrow r₀ g hr₀ hg').mp (ht g r₀ (mem_groupRows.mpr ⟨hr₀, hg'⟩))
  · intro ht g r₀ hmem
    obtain ⟨hr₀, hg⟩ := mem_groupRows.mp hmem
    have hk := (hreads.kept r₀ hr₀).mp (by rw [← hgroup r₀, hg]; rfl)
    exact (hrow r₀ g hr₀ hg).mpr (ht r₀ hr₀ hk.1 hk.2)

theorem EvaluatesHard.groupsInRange {ec : EvaluatedConstraint} {isMax : Bool}
    {scale : Option ScaleFactor} {agg : Aggregate} {cmp : Comparison} {rhs : RhsExpr}
    {whens : List RowMask} {pers : List RowKey} {n : Nat}
    (h : EvaluatesHard ec isMax scale agg cmp rhs whens pers n) : GroupsInRange ec n := by
  obtain ⟨groups, hreads, hids, hnum⟩ := h.groups
  intro r g hr hg
  have hlt := hreads.inRange r g hr ((groupOf_eq hids r).symm.trans hg)
  unfold EvaluatedConstraint.groupCount
  rw [hids, hnum]
  cases hcase : groups.rowGroupIds with
  | none => rw [hcase] at hlt; exact hlt
  | some ids => rw [hcase] at hlt; exact hlt

theorem EvaluatesHard.rhsUniform {ec : EvaluatedConstraint} {isMax : Bool}
    {scale : Option ScaleFactor} {agg : Aggregate} {cmp : Comparison} {rhs : RhsExpr}
    {whens : List RowMask} {pers : List RowKey} {n : Nat}
    (h : EvaluatesHard ec isMax scale agg cmp rhs whens pers n) : RhsUniform ec n := by
  obtain ⟨groups, hreads, hids, -⟩ := h.groups
  have hgroup := groupOf_eq hids
  intro r r' g hr hr' hg hg'
  have hsome : (groups.groupOf r).isSome := by rw [← hgroup, hg]; rfl
  have hsome' : (groups.groupOf r').isSome := by rw [← hgroup, hg']; rfl
  have hu := (hreads.mates r r' hr hr' hsome).mp
    ((hreads.rhs_eq r' hr' hsome').trans (by rw [← hgroup, ← hgroup, hg, hg']))
  rw [h.bound r hr (hgroup r ▸ hsome), h.bound r' hr' (hgroup r' ▸ hsome'), groupMates_congr hu]

/-- **What `EvaluateConstraints` makes of an easy clause is asked row by row.** -/
theorem evaluateConstraint_easy {scale : Option ScaleFactor} {agg : Aggregate} {cmp : Comparison}
    {rhs : RhsExpr} {mask : Option RowMask} {columns : Option RowKey} {ec : EvaluatedConstraint}
    (hcmp : cmp.isOrder = true)
    (hok : evaluateConstraint indexer.numRows ⟨easyComparison scale agg cmp rhs, mask, columns⟩ =
      .ok ec) :
    ec.minmaxAggType = none ∧
      (ec.PerRowHolds indexer indexer.numRows a ↔
        (easyComparison scale agg cmp rhs).HoldsUnder indexer mask.toList columns.toList a) := by
  have hreads := assignRowGroups_reads mask columns none indexer.numRows
  obtain ⟨rhsValues, hred, hbound⟩ := @reduceAggregateRhsPerGroup_spec _ _ _ _ _ hreads _ hcmp
    rhs.text rhs
  unfold evaluateConstraint at hok
  simp only [easyComparison, DecideLhs.isAggregate, Bool.false_eq_true, if_false, Bool.or_true,
    if_true, Bool.true_and] at hok
  split at hok
  · cases hok
  split at hok
  · cases hok
  rw [hred] at hok
  obtain rfl := Except.ok.inj hok
  refine ⟨rfl, ?_⟩
  have hvalue : ∀ r, rowValue (maskedBody (scaleFactorValue scale) .none none agg.child) r
      (fun v => a (indexer.get v r)) = scaledBody scale agg indexer a r := fun r =>
    rowValue_maskedBody _ _ rfl _ _
  unfold EvaluatedConstraint.PerRowHolds DecideComparison.HoldsUnder
  refine forall_congr' fun r => forall_congr' fun hr => ?_
  rw [groupOf_eq rfl, hreads.kept r hr, and_iff_left (show admits none r = true from rfl)]
  refine forall_congr' fun hsome => ?_
  have hmem : r ∈ groupMates mask.toList columns.toList indexer.numRows r :=
    mem_groupMates.mpr ⟨hr, rfl⟩
  have hb := hbound r hr ((hreads.kept r hr).mpr ⟨hsome, rfl⟩)
  simp only [EvaluatedConstraint.lhsValue, DecideComparison.HoldsIn, hb,
    groupBound_spec hcmp (List.ne_nil_of_mem hmem)]
  refine forall_congr' fun i => forall_congr' fun _ => ?_
  rw [← scaledBody, ← hvalue]
  simp [easyComparison, DecideLhs.preparedTerms, maskedBody, Function.comp_def]

end Decidb
