import Decidb.Formulation.AggregateRow
import Decidb.Formulation.Proofs.ModelBuilderProofs

/-!
# One reading of an aggregate

Whatever loop fills it and whatever accumulates it, the row of an aggregate gives every column the sum
of the coefficients the terms have there, except that the quadratic and the `<>` loops enter a
query-wide decision beside a reducer once for every row.
-/

namespace Decidb

open Linear

/-! ## Accumulators keep the coefficients -/

theorem coefficient_mergeEntries (entries : List (Nat × ℚ)) (c : Nat) :
    (mergeEntries entries).coefficient c = Form.coefficient entries c := by
  have hfold : ∀ form : Form Nat ℚ,
      (entries.foldl (fun form e => Form.addColumn form e.1 e.2) form).coefficient c =
        form.coefficient c + Form.coefficient entries c := by
    induction entries with
    | nil => intro form; simp
    | cons e entries ih =>
      intro form
      rw [List.foldl_cons, ih, Form.coefficient_addColumn, Form.coefficient_cons, add_assoc]
  unfold mergeEntries
  rw [Form.coefficient_filter_of_zero _ _ _ (by simp), hfold, Form.coefficient_nil, zero_add]

namespace SparseCoeffAccumulator

/-- A drained cell gives its value to its index, once. -/
theorem coefficient_flushDense (touched : List Nat) : ∀ (dense : Nat → ℚ) (c : Nat),
    Form.coefficient (flushDense touched dense) c = if c ∈ touched then dense c else 0 := by
  induction touched with
  | nil => intro dense c; simp [flushDense]
  | cons idx touched ih =>
    intro dense c
    have hrest := ih (fun i => if i = idx then 0 else dense i) c
    unfold flushDense
    simp only
    by_cases hzero : dense idx ≠ 0
    · rw [if_pos hzero, Form.coefficient_cons, hrest]
      by_cases hc : c = idx
      · simp [hc]
      · simp [hc, Ne.symm hc]
    · rw [if_neg hzero, hrest]
      have hzero : dense idx = 0 := not_not.mp hzero
      by_cases hc : c = idx
      · simp [hc, hzero]
      · simp [hc]

theorem coefficient_mergeRuns (pairs : List (Nat × ℚ)) : ∀ (run : Nat × ℚ) (c : Nat),
    Form.coefficient (mergeRuns run pairs) c = Form.coefficient (run :: pairs) c := by
  induction pairs with
  | nil =>
    intro run c
    by_cases hzero : run.2 = 0 <;> simp [mergeRuns, Form.coefficient_cons, hzero]
  | cons p pairs ih =>
    intro run c
    unfold mergeRuns
    by_cases hp : p.1 = run.1
    · rw [if_pos hp, ih]
      simp only [Form.coefficient_cons, hp]
      by_cases hc : run.1 = c
      · simp only [hc, if_true]
        ring
      · simp [hc]
    · rw [if_neg hp]
      by_cases hzero : run.2 = 0
      · simp [hzero, ih, Form.coefficient_cons]
      · simp [hzero, ih, Form.coefficient_cons]

/-- What the cells of an accumulator hold for an index. -/
def held (acc : SparseCoeffAccumulator) (c : Nat) : ℚ :=
  if acc.useDense then acc.dense c else Form.coefficient acc.pairs c

/-- Every cell that is not zero is touched. -/
def Tracked (acc : SparseCoeffAccumulator) : Prop := ∀ c, c ∉ acc.touched → acc.dense c = 0

theorem add_tracked {acc : SparseCoeffAccumulator} (h : acc.Tracked) (idx : Nat) (coeff : ℚ) :
    (acc.add idx coeff).Tracked := by
  intro c hc
  unfold add at hc ⊢
  by_cases hd : acc.useDense = true
  · simp only [hd, if_true] at hc ⊢
    by_cases hzero : acc.dense idx = 0
    · simp only [hzero, if_true, List.mem_append, List.mem_singleton, not_or] at hc
      rw [if_neg hc.2]
      exact h c hc.1
    · simp only [hzero, if_false] at hc
      have hne : c ≠ idx := fun heq => hzero (h idx (heq ▸ hc))
      rw [if_neg hne]
      exact h c hc
  · simp only [hd] at hc ⊢
    exact h c hc

theorem add_held (acc : SparseCoeffAccumulator) (idx : Nat) (coeff : ℚ) (c : Nat) :
    (acc.add idx coeff).held c = acc.held c + if idx = c then coeff else 0 := by
  unfold add held
  by_cases hd : acc.useDense = true
  · by_cases hc : c = idx
    · simp [hd, hc]
    · simp [hd, hc, Ne.symm hc]
  · simp [hd, Form.coefficient_cons]

/-- **A flush gives back what the accumulator holds.** -/
theorem coefficient_flush {acc : SparseCoeffAccumulator} (h : acc.Tracked) (c : Nat) :
    Form.coefficient acc.flush c = acc.held c := by
  unfold flush held
  by_cases hd : acc.useDense = true
  · rw [if_pos hd, if_pos hd, coefficient_flushDense]
    by_cases hc : c ∈ acc.touched
    · rw [if_pos hc]
    · rw [if_neg hc, h c hc]
  · rw [if_neg hd, if_neg hd]
    have hperm : Form.coefficient (acc.pairs.mergeSort fun p q => p.1 ≤ q.1) c =
        Form.coefficient acc.pairs c := Form.coefficient_perm (List.mergeSort_perm _ _) c
    rw [← hperm]
    split
    · rename_i hnil
      rw [hnil]
    · rename_i p pairs hcons
      rw [hcons, coefficient_mergeRuns]

theorem coefficient_accumulated (useDense : Bool) (entries : List (Nat × ℚ)) (c : Nat) :
    Form.coefficient ((entries.foldl (fun acc e => SparseCoeffAccumulator.add acc e.1 e.2)
      ({ useDense } : SparseCoeffAccumulator)).flush) c = Form.coefficient entries c := by
  have hfold : ∀ acc : SparseCoeffAccumulator, acc.Tracked →
      (entries.foldl (fun acc e => acc.add e.1 e.2) acc).Tracked ∧
        (entries.foldl (fun acc e => acc.add e.1 e.2) acc).held c =
          acc.held c + Form.coefficient entries c := by
    induction entries with
    | nil => intro acc h; exact ⟨h, by simp⟩
    | cons e entries ih =>
      intro acc h
      obtain ⟨ht, hh⟩ := ih (acc.add e.1 e.2) (add_tracked h e.1 e.2)
      refine ⟨ht, ?_⟩
      rw [List.foldl_cons, hh, add_held, Form.coefficient_cons, add_assoc]
  obtain ⟨ht, hh⟩ := hfold { useDense } fun _ _ => rfl
  rw [coefficient_flush ht, hh]
  cases useDense <;> simp [held]

end SparseCoeffAccumulator

/-! ## The reading -/

/-- The coefficient a column owes to the terms over the rows of a group: once for a query-wide decision
beside a reducer, and otherwise the sum over the rows that fall on the column. -/
def readCoefficient (indexer : VarIndexer) (terms : List LhsTerm) (rows : List Nat) (c : Nat) : ℚ :=
  (terms.map fun t => match t.variableIndex with
    | none => 0
    | some v =>
      if entersOnce indexer t v then
        if indexer.get v (rows.headD 0) = c then t.rowCoefficients (rows.headD 0) else 0
      else ((rows.filter fun r => indexer.get v r = c).map t.rowCoefficients).sum).sum

/-- What a column gets too much when a query-wide decision beside a reducer is entered for every row
of the group. -/
def outsideExcess (indexer : VarIndexer) (terms : List LhsTerm) (rows : List Nat) (c : Nat) : ℚ :=
  (terms.map fun t => match t.variableIndex with
    | none => 0
    | some v =>
      if entersOnce indexer t v ∧ indexer.get v (rows.headD 0) = c then
        (rows.map t.rowCoefficients).sum - t.rowCoefficients (rows.headD 0)
      else 0).sum

theorem coefficient_aggregateEntries (indexer : VarIndexer) (terms : List LhsTerm) (rows : List Nat)
    (c : Nat) : Form.coefficient (terms.flatMap (aggregateEntries indexer rows)) c =
      readCoefficient indexer terms rows c := by
  rw [Form.coefficient_flatMap]
  refine congrArg List.sum (List.map_congr_left fun t _ => ?_)
  unfold aggregateEntries
  cases t.variableIndex with
  | none => simp
  | some v =>
    by_cases honce : entersOnce indexer t v = true
    · simp [honce, Form.coefficient_cons]
    · simp [honce, Form.coefficient_map]

/-- A row-scoped variable is entered for every row. -/
theorem not_entersOnce_of_fast {indexer : VarIndexer} {terms : List LhsTerm}
    (h : canUseRowScopedFastPath indexer terms = true) {t : LhsTerm} (ht : t ∈ terms) {v : Nat}
    (hv : t.variableIndex = some v) : entersOnce indexer t v = false := by
  unfold canUseRowScopedFastPath at h
  simp only [Bool.and_eq_true, List.all_eq_true, List.mem_filterMap, forall_exists_index,
    and_imp] at h
  have hrow := h.1 v t ht hv
  unfold entersOnce
  cases hs : indexer.varScope v with
  | row offset => rfl
  | entity base rowToEntity => rfl
  | scalar column => rw [hs] at hrow; cases hrow

theorem sum_filter_ne_zero (l : List Nat) (p : Nat → Bool) (f : Nat → ℚ) :
    (((l.filter fun r => f r ≠ 0).filter p).map f).sum = ((l.filter p).map f).sum := by
  induction l with
  | nil => rfl
  | cons r l ih =>
    by_cases hzero : f r = 0 <;> cases hp : p r <;> simp_all

/-- The fast path writes the same coefficients the accumulating one does. -/
theorem coefficient_fastPathEntries {indexer : VarIndexer} {terms : List LhsTerm}
    (h : canUseRowScopedFastPath indexer terms = true) (rows : List Nat) (c : Nat) :
    Form.coefficient (fastPathEntries indexer terms rows) c =
      readCoefficient indexer terms rows c := by
  unfold fastPathEntries
  rw [Form.coefficient_flatMap]
  refine congrArg List.sum (List.map_congr_left fun t ht => ?_)
  cases hv : t.variableIndex with
  | none => simp
  | some v =>
    simp only [not_entersOnce_of_fast h ht hv, Bool.false_eq_true, if_false]
    rw [Form.coefficient_map, sum_filter_ne_zero]

theorem coefficient_ungroupedAggregateRow (indexer : VarIndexer) (terms : List LhsTerm) (c : Nat) :
    Form.coefficient (ungroupedAggregateRow indexer terms) c =
      readCoefficient indexer terms (List.range indexer.numRows) c := by
  unfold ungroupedAggregateRow
  simp only
  split
  · rename_i hfast
    exact coefficient_fastPathEntries hfast _ c
  · rw [coefficient_mergeEntries, coefficient_aggregateEntries]

theorem coefficient_groupedAggregateRow (indexer : VarIndexer) (dense : Bool) (terms : List LhsTerm)
    (rows : List Nat) (c : Nat) :
    Form.coefficient (groupedAggregateRow indexer dense terms rows) c =
      readCoefficient indexer terms rows c := by
  unfold groupedAggregateRow
  split
  · rename_i hfast
    exact coefficient_fastPathEntries hfast rows c
  · rw [SparseCoeffAccumulator.coefficient_accumulated, coefficient_aggregateEntries]

/-- The quadratic loop enters every term for every row. -/
theorem coefficient_quadraticLinearEntries (indexer : VarIndexer) (terms : List LhsTerm)
    (rows : List Nat) (c : Nat) :
    Form.coefficient (quadraticLinearEntries indexer terms rows) c =
      readCoefficient indexer terms rows c + outsideExcess indexer terms rows c := by
  unfold quadraticLinearEntries readCoefficient outsideExcess
  generalize rows.headD 0 = r₀
  rw [Form.coefficient_flatMap, ← List.sum_map_add]
  refine congrArg List.sum (List.map_congr_left fun t _ => ?_)
  cases t.variableIndex with
  | none => simp
  | some v =>
    simp only [Form.coefficient_map]
    by_cases honce : entersOnce indexer t v = true
    · have hget : ∀ r, indexer.get v r = indexer.get v r₀ := by
        unfold entersOnce at honce
        cases hs : indexer.varScope v with
        | row offset => rw [hs] at honce; cases honce
        | entity base rowToEntity => rw [hs] at honce; cases honce
        | scalar column =>
          intro r
          simp [VarIndexer.get, hs, DecideVarScope.column]
      have hfilter : (rows.filter fun r => indexer.get v r = c) =
          if indexer.get v r₀ = c then rows else [] := by
        by_cases hc : indexer.get v r₀ = c
        · rw [if_pos hc]
          exact List.filter_eq_self.mpr fun r _ => by simp [hget r, hc]
        · rw [if_neg hc]
          exact List.filter_eq_nil_iff.mpr fun r _ => by simp [hget r, hc]
      rw [hfilter]
      by_cases hc : indexer.get v r₀ = c
      · simp [honce, hc]
      · simp [honce, hc]
    · simp [honce]

/-- An integral coefficient is zero or above the cut. -/
theorem cut_le_of_integral {q : ℚ} (hint : q.den = 1) : coefficientCut ≤ |q| ↔ q ≠ 0 := by
  constructor
  · rintro h rfl
    norm_num [coefficientCut] at h
  · intro hne
    obtain ⟨n, rfl⟩ : ∃ n : ℤ, q = n := ⟨q.num, ((Rat.den_eq_one_iff q).mp hint).symm⟩
    have hn : n ≠ 0 := fun h => hne (by simp [h])
    have hone : (1 : ℚ) ≤ |(n : ℚ)| := by
      rw [← Int.cast_abs]
      exact_mod_cast Int.one_le_abs hn
    exact le_trans (by norm_num [coefficientCut]) hone

/-- What the `<>` gate lets through has integral coefficients. -/
theorem integral_of_neGate {types : List VarType} {numRows : Nat} {ec : EvaluatedConstraint}
    (h : neLhsIsIntegerValued types numRows ec = .integer) {t : LhsTerm} (ht : t ∈ ec.lhsTerms)
    {v r : Nat} (hv : t.variableIndex = some v) (hr : r < numRows) : (t.rowCoefficients r).den = 1 := by
  unfold neLhsIsIntegerValued at h
  have hnone : (ec.lhsTerms.map (·.integrality types numRows)).find? (· ≠ .integer) = none := by
    cases hfind : (ec.lhsTerms.map (·.integrality types numRows)).find? (· ≠ .integer) with
    | none => rfl
    | some i =>
      rw [hfind] at h
      have hi := List.find?_some hfind
      simp only [Option.getD_some] at h
      simp [h] at hi
  have hint := List.find?_eq_none.mp hnone _ (List.mem_map_of_mem ht)
  have hint : t.integrality types numRows = .integer := by simpa using hint
  unfold LhsTerm.integrality variableIntegrality at hint
  rw [hv] at hint
  simp only at hint
  split at hint
  · cases hint
  · split at hint
    · rename_i hall
      have := List.all_eq_true.mp hall r (List.mem_range.mpr hr)
      simpa using this
    · cases hint

/-- The `<>` loop enters what the quadratic one does. -/
theorem coefficient_notEqualAggregateRow {types : List VarType} {indexer : VarIndexer}
    {ec : EvaluatedConstraint} (h : neLhsIsIntegerValued types indexer.numRows ec = .integer)
    (dense : Bool) {rows : List Nat} (hrows : ∀ r ∈ rows, r < indexer.numRows) (c : Nat) :
    Form.coefficient (notEqualAggregateRow indexer dense ec.lhsTerms rows) c =
      readCoefficient indexer ec.lhsTerms rows c + outsideExcess indexer ec.lhsTerms rows c := by
  unfold notEqualAggregateRow
  rw [SparseCoeffAccumulator.coefficient_accumulated, ← coefficient_quadraticLinearEntries]
  unfold notEqualEntries quadraticLinearEntries
  rw [Form.coefficient_flatMap, Form.coefficient_flatMap]
  refine congrArg List.sum (List.map_congr_left fun t ht => ?_)
  cases hv : t.variableIndex with
  | none => rfl
  | some v =>
    have hcut : (rows.filter fun r => coefficientCut ≤ |t.rowCoefficients r|) =
        rows.filter fun r => t.rowCoefficients r ≠ 0 :=
      List.filter_congr fun r hr => by
        simp only [cut_le_of_integral (integral_of_neGate h ht hv (hrows r hr))]
    simp only [hcut, Form.coefficient_map]
    rw [sum_filter_ne_zero]

/-! ## Every path -/

theorem lt_of_mem_aggregateGroups {ec : EvaluatedConstraint} {numRows : Nat} {rows : List Nat}
    (h : rows ∈ aggregateGroups ec numRows) : ∀ r ∈ rows, r < numRows := by
  intro r hr
  unfold aggregateGroups at h
  cases hg : ec.rowGroupIds with
  | none =>
    rw [hg] at h
    rw [List.mem_singleton.mp h] at hr
    exact List.mem_range.mp hr
  | some ids =>
    rw [hg] at h
    obtain ⟨g, -, rfl⟩ := List.mem_map.mp (List.mem_filter.mp h).1
    exact List.mem_range.mp (List.mem_filter.mp hr).1

/-- The coefficient of every column is the reading of the aggregate, whichever path emits it; on the
quadratic path beside what the squares put there themselves. -/
structure OneReading (types : List VarType) (indexer : VarIndexer) (ec : EvaluatedConstraint) :
    Prop where
  ungrouped : ec.rowGroupIds = none → ∀ c,
    Form.coefficient (ungroupedAggregateRow indexer ec.lhsTerms) c =
      readCoefficient indexer ec.lhsTerms (List.range indexer.numRows) c
  grouped : ∀ rows ∈ aggregateGroups ec indexer.numRows, ∀ dense c,
    Form.coefficient (groupedAggregateRow indexer dense ec.lhsTerms rows) c =
      readCoefficient indexer ec.lhsTerms rows c
  quadratic : ∀ rows ∈ aggregateGroups ec indexer.numRows, ∀ c,
    Form.coefficient (quadraticLinearPart indexer ec rows) c =
      readCoefficient indexer ec.lhsTerms rows c +
        Form.coefficient (quadraticCrossEntries indexer ec.quadraticGroups rows) c
  notEqual : neLhsIsIntegerValued types indexer.numRows ec = .integer →
    ∀ rows ∈ aggregateGroups ec indexer.numRows, ∀ dense c,
      Form.coefficient (notEqualAggregateRow indexer dense ec.lhsTerms rows) c =
        readCoefficient indexer ec.lhsTerms rows c

/-- **Every path reads an aggregate alike exactly when entering the query-wide decisions beside its
reducers for every row of a group gives each column no more than entering them once.** -/
theorem oneReading_iff (types : List VarType) (indexer : VarIndexer) (ec : EvaluatedConstraint) :
    OneReading types indexer ec ↔ ∀ rows ∈ aggregateGroups ec indexer.numRows, ∀ c,
      outsideExcess indexer ec.lhsTerms rows c = 0 := by
  have hquad : ∀ rows c, Form.coefficient (quadraticLinearPart indexer ec rows) c =
      readCoefficient indexer ec.lhsTerms rows c + outsideExcess indexer ec.lhsTerms rows c +
        Form.coefficient (quadraticCrossEntries indexer ec.quadraticGroups rows) c := by
    intro rows c
    unfold quadraticLinearPart
    rw [coefficient_mergeEntries, Form.coefficient_append, coefficient_quadraticLinearEntries]
  constructor
  · intro h rows hrows c
    have heq := h.quadratic rows hrows c
    rw [hquad] at heq
    linarith
  · intro h
    refine ⟨fun _ c => coefficient_ungroupedAggregateRow indexer ec.lhsTerms c,
      fun rows _ dense c => coefficient_groupedAggregateRow indexer dense ec.lhsTerms rows c,
      fun rows hrows c => ?_, fun hgate rows hrows dense c => ?_⟩
    · rw [hquad, h rows hrows c, add_zero]
    · rw [coefficient_notEqualAggregateRow hgate dense (lt_of_mem_aggregateGroups hrows),
        h rows hrows c, add_zero]

/-- The row the linear model has for an aggregate is the one its loops fill. -/
theorem coefficient_aggregateConstraint {indexer : VarIndexer} {integrality : LhsIntegrality}
    {ec : EvaluatedConstraint} {rows : List Nat} {m : ModelConstraint}
    (h : aggregateConstraint indexer integrality ec rows = .ok m) (dense : Bool) (c : Nat) :
    m.form.coefficient c = Form.coefficient (groupedAggregateRow indexer dense ec.lhsTerms rows) c := by
  unfold aggregateConstraint at h
  cases hoff : sumFixedAggregateLhsOffset ec.lhsTerms rows with
  | error e => rw [hoff] at h; cases h
  | ok offset =>
    rw [hoff] at h
    rw [applyComparisonSense_form h, coefficient_mergeEntries, coefficient_aggregateEntries,
      coefficient_groupedAggregateRow]

/-! ## A query-wide decision beside a reducer -/

/-- Two rows, a row variable `x` and a query-wide variable `s`. -/
def rowsBesideScalar : VarIndexer where
  numRows := 2
  numRowVars := 1
  globalBlockStart := 3
  varScope := fun v => if v = 0 then .row 0 else .scalar 2
  column_lt := by
    intro v row h
    by_cases hv : v = 0
    · simp only [hv, if_true, DecideVarScope.column]
      omega
    · simp [hv, DecideVarScope.column]

/-- `SUM(x) + s <= 8`. -/
def sumPlusScalar : EvaluatedConstraint where
  lhsTerms := [{ variableIndex := some 0, rowCoefficients := fun _ => 1, reduction := .sum },
    { variableIndex := some 1, rowCoefficients := fun _ => 1 }]
  rhsValues := fun _ => .fin 8
  comparisonType := .le
  lhsIsAggregate := true

/-- **`SUM(x) + s <= 8` over two rows is read in two ways**: the linear paths give `s` the coefficient
1, the quadratic one 2. -/
theorem sumPlusScalar_not_oneReading :
    ¬ OneReading [.integer, .integer] rowsBesideScalar sumPlusScalar := by
  intro h
  have hcoef := h.quadratic [0, 1] (List.mem_singleton.mpr rfl) 2
  revert hcoef
  decide +kernel

end Decidb
