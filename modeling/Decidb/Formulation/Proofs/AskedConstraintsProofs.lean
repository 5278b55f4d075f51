import Decidb.Formulation.Proofs.BuiltModelExactProofs
import Decidb.Formulation.Proofs.NestedObjectiveProofs

/-!
# What the constraints of a query ask

An ordinary constraint asks its comparison of every row or group, a `<>` that the values differ, and a
hard MIN or MAX that the extremum of every group meets the bound. All three read the decisions only.
-/

namespace Decidb

open Linear SolverInput

variable {indexer : VarIndexer} {input : SolverInput} {ec : EvaluatedConstraint} {a b : Nat → ℚ}

/-! ## The readings -/

/-- The extremum of a list. -/
def Extremum.of? : Extremum → List ℚ → Option ℚ
  | .min, vs => vs.min?
  | .max, vs => vs.max?

/-- A hard MIN/MAX: in every group with a row the extremum meets the bound, strictness dropped. -/
def EvaluatedConstraint.ExtremumHolds (indexer : VarIndexer) (agg : Extremum) (ec : EvaluatedConstraint)
    (a : Nat → ℚ) : Prop :=
  ∀ g, ∀ r ∈ groupRows ec indexer.numRows g, ∀ v,
    agg.of? ((groupRows ec indexer.numRows g).map (ec.lhsValue indexer a)) = some v →
      ec.comparisonType.relax.Holds v (ec.rhsValues r)

/-- What a constraint asks. -/
def EvaluatedConstraint.Asks (indexer : VarIndexer) (ec : EvaluatedConstraint) (a : Nat → ℚ) : Prop :=
  if ec.neClauseIdx.isSome then NotEqualAsks indexer indexer.numRows ec a
  else
    match ec.minmaxAggType with
    | some agg => ec.ExtremumHolds indexer agg a
    | none => ec.WrittenHolds indexer a

/-- The comparisons a hard MIN or MAX is left with. -/
def Extremum.isHardFor : Extremum → Comparison → Bool
  | .max, cmp => cmp = .ge || cmp = .gt
  | .min, cmp => cmp = .le || cmp = .lt

/-! ## Hard MIN/MAX -/

/-- The rows of one group: some row meets the bound just when the extremum does. -/
theorem hardReads_iff_extremum {agg : Extremum} {cmp : Comparison} (hhard : agg.isHardFor cmp = true)
    {bound : Bound} {values : List ℚ} (hne : values ≠ []) :
    HardReads (agg = .max) cmp bound values ↔
      ∀ v, agg.of? values = some v → cmp.relax.Holds v bound := by
  obtain ⟨x, hx⟩ := List.exists_mem_of_ne_nil values hne
  cases agg with
  | max =>
    obtain ⟨m, hm⟩ := Option.isSome_iff_exists.mp (List.isSome_max?_of_ne_nil hne)
    have hcmp : cmp = .ge ∨ cmp = .gt := by simpa [Extremum.isHardFor] using hhard
    have hrelax : cmp.relax = .ge := by rcases hcmp with rfl | rfl <;> rfl
    have hall : (∀ v, Extremum.max.of? values = some v → cmp.relax.Holds v bound) ↔
        bound ≤ Bound.fin m := by
      rw [hrelax]
      exact ⟨fun h => h m hm, fun h v hv => Option.some.inj (hm.symm.trans hv) ▸ h⟩
    rw [hall]
    unfold HardReads
    cases bound with
    | negInf => exact iff_of_true trivial (Bound.negInf_lt_fin m).le
    | fin k =>
      rw [Bound.fin_le_fin, le_listMax_iff hm]
      simp [classifyMinMaxBound, BoundSide]
    | posInf =>
      refine iff_of_false (fun h => ?_) (Bound.not_posInf_le_fin m)
      rcases hcmp with rfl | rfl
      · exact Bound.not_posInf_le_fin x (h x hx)
      · exact Bound.not_posInf_lt_fin x (h x hx)
  | min =>
    obtain ⟨m, hm⟩ := Option.isSome_iff_exists.mp (List.isSome_min?_of_ne_nil hne)
    have hcmp : cmp = .le ∨ cmp = .lt := by simpa [Extremum.isHardFor] using hhard
    have hrelax : cmp.relax = .le := by rcases hcmp with rfl | rfl <;> rfl
    have hall : (∀ v, Extremum.min.of? values = some v → cmp.relax.Holds v bound) ↔
        Bound.fin m ≤ bound := by
      rw [hrelax]
      exact ⟨fun h => h m hm, fun h v hv => Option.some.inj (hm.symm.trans hv) ▸ h⟩
    rw [hall]
    unfold HardReads
    cases bound with
    | negInf =>
      refine iff_of_false (fun h => ?_) (Bound.not_fin_le_negInf m)
      rcases hcmp with rfl | rfl
      · exact Bound.not_fin_le_negInf x (h x hx)
      · exact Bound.not_fin_lt_negInf x (h x hx)
    | fin k =>
      rw [Bound.fin_le_fin, listMin_le_iff hm]
      simp [classifyMinMaxBound, BoundSide]
    | posInf => exact iff_of_true trivial (Bound.fin_lt_posInf m).le

/-- What the pass reads of a hard MIN/MAX is what it says. -/
theorem taggedReads_iff_extremum {agg : Extremum} (hhard : agg.isHardFor ec.comparisonType = true) :
    TaggedReads indexer indexer.numRows (agg = .max) ec a ↔ ec.ExtremumHolds indexer agg a := by
  unfold TaggedReads EvaluatedConstraint.ExtremumHolds
  refine forall_congr' fun g => forall₂_congr fun r hr => ?_
  have hne : (groupRows ec indexer.numRows g).map (ec.lhsValue indexer a) ≠ [] := by
    rw [ne_eq, List.map_eq_nil_iff]
    exact List.ne_nil_of_mem hr
  exact hardReads_iff_extremum hhard hne

/-- A linear constraint on every row is the comparison of its rows. -/
theorem writtenHolds_iff_perRow (hrow : ec.lhsIsAggregate = false)
    (hlinear : ec.bilinearTerms = [] ∧ ec.quadraticGroups = []) :
    ec.WrittenHolds indexer a ↔ ec.PerRowHolds indexer indexer.numRows a := by
  have hvalue : ∀ r, writtenLhsValue indexer ec [r] a = ec.lhsValue indexer a r := by
    intro r
    have hpart := @rowVariablePart_eq indexer a ec.lhsTerms r
    unfold writtenLhsValue writtenQuadraticValue EvaluatedConstraint.lhsValue rowValue
    rw [hlinear.1, hlinear.2, writtenLinearValue_eq, ← hpart]
    simp only [List.map_nil, List.sum_nil, add_zero, List.map_cons, List.sum_cons,
      decideRowFixedLhsOffset]
    rfl
  unfold EvaluatedConstraint.WrittenHolds EvaluatedConstraint.PerRowHolds constraintInstances
  rw [if_neg (by rw [hrow]; exact Bool.false_ne_true), List.forall_mem_map]
  constructor
  · intro h r hr hactive
    rw [← hvalue]
    exact h r (List.mem_filter.mpr ⟨List.mem_range.mpr hr, hactive⟩)
  · intro h r hr
    obtain ⟨hr, hactive⟩ := List.mem_filter.mp hr
    rw [hvalue]
    exact h r (List.mem_range.mp hr) hactive

/-! ## The readings read the decisions -/

theorem writtenLinearValue_congr {terms : List LhsTerm} {rows : List Nat}
    (hrows : ∀ r ∈ rows, r < indexer.numRows) (hne : rows ≠ [])
    (hab : AgreeBelow indexer.globalBlockStart a b) :
    writtenLinearValue indexer terms rows a = writtenLinearValue indexer terms rows b := by
  have hget : ∀ v r, r ∈ rows → a (indexer.get v r) = b (indexer.get v r) := fun v r hr =>
    hab _ (indexer.get_lt v (hrows r hr))
  have hhead : rows.headD 0 ∈ rows := by
    cases rows with
    | nil => exact absurd rfl hne
    | cons r rows => exact List.mem_cons_self
  unfold writtenLinearValue
  refine congrArg List.sum (List.map_congr_left fun t _ => ?_)
  cases t.variableIndex with
  | none => rfl
  | some v =>
    dsimp only
    rw [hget v _ hhead]
    split
    · rfl
    · exact congrArg List.sum (List.map_congr_left fun r hr => by rw [hget v r hr])

theorem writtenQuadraticValue_congr {products : List BilinearTerm} {groups : List QuadraticGroup}
    {rows : List Nat} (hrows : ∀ r ∈ rows, r < indexer.numRows)
    (hab : AgreeBelow indexer.globalBlockStart a b) :
    writtenQuadraticValue indexer products groups rows a =
      writtenQuadraticValue indexer products groups rows b := by
  have hrow : ∀ r ∈ rows, rowAssignment indexer a r = rowAssignment indexer b r := fun r hr =>
    funext fun v => hab _ (indexer.get_lt v (hrows r hr))
  unfold writtenQuadraticValue
  congr 1
  · refine congrArg List.sum (List.map_congr_left fun bt _ => ?_)
    refine congrArg List.sum (List.map_congr_left fun r hr => ?_)
    rw [hab _ (indexer.get_lt _ (hrows r hr)), hab _ (indexer.get_lt _ (hrows r hr))]
  · refine congrArg List.sum (List.map_congr_left fun qg _ => ?_)
    exact congrArg List.sum (List.map_congr_left fun r hr => by rw [hrow r hr])

theorem writtenHolds_readsBelow (hpos : 0 < indexer.numRows) :
    ReadsBelow indexer.globalBlockStart (ec.WrittenHolds indexer) := by
  intro a b hab h rows hrows
  have hlt := lt_of_mem_constraintInstances hrows
  unfold writtenLhsValue
  rw [← writtenLinearValue_congr hlt (constraintInstances_ne_nil hpos hrows) hab,
    ← writtenQuadraticValue_congr hlt hab]
  exact h rows hrows

theorem extremumHolds_readsBelow (agg : Extremum) :
    ReadsBelow indexer.globalBlockStart (ec.ExtremumHolds indexer agg) := by
  intro a b hab h g r hr v hv
  have hmap : (groupRows ec indexer.numRows g).map (ec.lhsValue indexer a) =
      (groupRows ec indexer.numRows g).map (ec.lhsValue indexer b) :=
    List.map_congr_left fun r hr => lhsValue_congr (mem_groupRows.mp hr).1 le_rfl hab
  refine h g r hr v ?_
  rw [hmap]
  exact hv

theorem asks_readsBelow (hpos : 0 < indexer.numRows) :
    ReadsBelow indexer.globalBlockStart (ec.Asks indexer) := by
  unfold EvaluatedConstraint.Asks
  split
  · exact notEqualAsks_readsBelow rfl
  · split
    · exact extremumHolds_readsBelow _
    · exact writtenHolds_readsBelow hpos

end Decidb
