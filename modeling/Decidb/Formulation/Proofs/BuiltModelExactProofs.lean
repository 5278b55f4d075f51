import Decidb.Diagnostics.Proofs.ColumnProvenanceProofs
import Decidb.Formulation.Proofs.BuiltModelProofs
import Decidb.Formulation.Proofs.NotEqualExactProofs

/-!
# The built model accepts what its input says

The columns of the model are the boxes of the decisions and of the global block, its rows say of every
row and of every group what the constraint they come from says there, and its objective is the one it was
given.
-/

namespace Decidb

open Linear SolverInput

variable {indexer : VarIndexer} {layout : ColumnLayout} {input : SolverInput}
  {ec : EvaluatedConstraint} {a : Nat → ℚ}

/-! ## Columns -/

theorem mem_variableInstances {q : Nat × Nat} : q ∈ variableInstances layout ↔
    q.1 < layout.numVars ∧ q.2 < layout.numInstances q.1 := by
  unfold variableInstances
  simp only [List.mem_flatMap, List.mem_map, List.mem_range]
  constructor
  · rintro ⟨v, hv, i, hi, rfl⟩
    exact ⟨hv, hi⟩
  · rintro ⟨hv, hi⟩
    exact ⟨q.1, hv, q.2, hi, rfl⟩

/-- Every instance has the column of its variable. -/
theorem buildColumns_instance {v inst : Nat} (hinst : inst < layout.numInstances v) :
    (buildColumns layout input)[layout.instanceColumn v inst]? =
      some (builtVariableColumn input v) := by
  have hlt := ColumnLayout.instanceColumn_lt hinst
  set start := (variableInstances layout).foldl
    (fun columns q => columns.set (layout.instanceColumn q.1 q.2) (builtVariableColumn input q.1))
    (List.replicate (layout.globalBlockStart + input.globalColumns.length) ⟨0, 0, false, false⟩)
    with hstart
  have hlen : start.length = layout.globalBlockStart + input.globalColumns.length := by
    rw [hstart, length_foldl_set, List.length_replicate]
  have hglobals := getElem?_foldl_set (x := (⟨0, 0, false, false⟩ : BuiltColumn))
    (fun q : ColumnBox × Nat => layout.globalBlockStart + q.2) (fun q => builtGlobalColumn q.1)
    input.globalColumns.zipIdx (c := layout.instanceColumn v inst) (fun q _ hq => by omega)
    (show layout.instanceColumn v inst < start.length by omega)
  rw [if_neg (by rintro ⟨q, -, hq⟩; omega)] at hglobals
  have hinstances := getElem?_foldl_set (x := builtVariableColumn input v)
    (fun q : Nat × Nat => layout.instanceColumn q.1 q.2) (fun q => builtVariableColumn input q.1)
    (variableInstances layout) (c := layout.instanceColumn v inst)
    (fun q hq heq => by
      have howner := ColumnLayout.ownerOf_instanceColumn (mem_variableInstances.mp hq).2
      rw [heq, ColumnLayout.ownerOf_instanceColumn hinst] at howner
      rw [Option.some.inj howner])
    (show layout.instanceColumn v inst < (List.replicate (layout.globalBlockStart +
      input.globalColumns.length) (⟨0, 0, false, false⟩ : BuiltColumn)).length by
        rw [List.length_replicate]; omega)
  rw [if_pos ⟨(v, inst), mem_variableInstances.mpr
    ⟨ColumnLayout.lt_numVars_of_instance hinst, hinst⟩, rfl⟩] at hinstances
  exact hglobals.trans hinstances

/-- Every global has its own column. -/
theorem buildColumns_global {g : Nat} {box : ColumnBox} (hbox : input.globalColumns[g]? = some box) :
    (buildColumns layout input)[layout.globalBlockStart + g]? = some (builtGlobalColumn box) := by
  have hg := (List.getElem?_eq_some_iff.mp hbox).1
  set start := (variableInstances layout).foldl
    (fun columns q => columns.set (layout.instanceColumn q.1 q.2) (builtVariableColumn input q.1))
    (List.replicate (layout.globalBlockStart + input.globalColumns.length) ⟨0, 0, false, false⟩)
    with hstart
  have hlen : start.length = layout.globalBlockStart + input.globalColumns.length := by
    rw [hstart, length_foldl_set, List.length_replicate]
  have hglobals := getElem?_foldl_set (x := builtGlobalColumn box)
    (fun q : ColumnBox × Nat => layout.globalBlockStart + q.2) (fun q => builtGlobalColumn q.1)
    input.globalColumns.zipIdx (c := layout.globalBlockStart + g) (fun q hq heq => by
      obtain ⟨b, i⟩ := q
      have hi : i = g := by omega
      have hb := List.mem_zipIdx_iff_getElem?.mp hq
      dsimp only at hb ⊢
      rw [hi, hbox] at hb
      rw [Option.some.inj hb])
    (show layout.globalBlockStart + g < start.length by omega)
  rw [if_pos ⟨(box, g), List.mem_zipIdx_iff_getElem?.mpr hbox, rfl⟩] at hglobals
  exact hglobals

/-- **The columns of the model are the declared boxes.** -/
theorem columns_admit_iff : (∀ c (b : BuiltColumn), (buildColumns layout input)[c]? = some b →
      b.Admits (a c)) ↔ InBuiltBoxes input layout a := by
  constructor
  · intro h
    exact ⟨fun v inst hinst => h _ _ (buildColumns_instance hinst),
      fun g box hbox => h _ _ (buildColumns_global hbox)⟩
  · intro h c b hb
    have hc : c < layout.globalBlockStart + input.globalColumns.length := by
      have hlt := (List.getElem?_eq_some_iff.mp hb).1
      rwa [length_buildColumns] at hlt
    by_cases hcol : c < layout.globalBlockStart
    · obtain ⟨v, inst, -, hinst, rfl⟩ := ColumnLayout.ownerOf_spec hcol
      rw [buildColumns_instance hinst] at hb
      rw [← Option.some.inj hb]
      exact h.decisions v inst hinst
    · obtain ⟨g, rfl⟩ := Nat.exists_eq_add_of_le (not_lt.mp hcol)
      have hg : g < input.globalColumns.length := by omega
      rw [buildColumns_global (List.getElem?_eq_getElem hg)] at hb
      rw [← Option.some.inj hb]
      exact h.globals g _ (List.getElem?_eq_getElem hg)

/-! ## Rows without variables -/

/-- A row without variables is met or misses its bound by more than the tolerance it is decided with. -/
def ModelConstraint.ConstantClear (c : ModelConstraint) : Prop :=
  c.form = [] → ∀ k, c.rhs = .fin k → k = 0 ∨ constantRowTolerance < |k|

/-- What is kept of a row says what the row did. -/
theorem pushNormalized_holds_iff {c : ModelConstraint} (hclear : c.ConstantClear) :
    (∀ m ∈ pushNormalizedConstraint c, m.Holds a) ↔ c.Holds a := by
  refine ⟨fun h => ?_, pushNormalized_of_holds⟩
  by_cases hform : c.form = []
  · unfold pushNormalizedConstraint at h
    rw [if_neg (not_not.mpr hform)] at h
    dsimp only at h
    have hself := fun hviolated => h c (List.mem_ite_nil_right.mpr ⟨hviolated, List.mem_singleton_self c⟩)
    have htol : (0 : ℚ) < constantRowTolerance := by norm_num [constantRowTolerance]
    have hclear := hclear hform
    by_contra hnot
    apply hnot
    apply hself
    unfold ModelConstraint.Holds at hnot
    rw [hform, Form.eval_nil] at hnot
    cases hsense : c.sense with
    | le =>
      rw [hsense] at hnot
      dsimp only at hnot
      refine decide_eq_true ?_
      cases hrhs : c.rhs with
      | negInf => exact Bound.negInf_lt_fin _
      | posInf =>
        rw [hrhs] at hnot
        exact absurd (Bound.fin_le_posInf _) hnot
      | fin k =>
        rw [hrhs, Bound.fin_le_fin, not_le] at hnot
        have hk := (hclear k hrhs).resolve_left hnot.ne
        rw [abs_of_neg hnot] at hk
        exact (Bound.fin_lt_fin _ _).mpr (by linarith)
    | ge =>
      rw [hsense] at hnot
      dsimp only at hnot
      refine decide_eq_true ?_
      cases hrhs : c.rhs with
      | negInf =>
        rw [hrhs] at hnot
        exact absurd (Bound.negInf_lt_fin _).le hnot
      | posInf => exact Bound.fin_lt_posInf _
      | fin k =>
        rw [hrhs, Bound.fin_le_fin, not_le] at hnot
        have hk := (hclear k hrhs).resolve_left hnot.ne'
        rw [abs_of_pos hnot] at hk
        exact (Bound.fin_lt_fin _ _).mpr hk
    | eq =>
      rw [hsense] at hnot
      dsimp only at hnot
      refine (Bool.or_eq_true _ _).mpr ?_
      cases hrhs : c.rhs with
      | negInf => exact Or.inl (decide_eq_true (Bound.negInf_lt_fin _))
      | posInf => exact Or.inr (decide_eq_true (Bound.fin_lt_posInf _))
      | fin k =>
        have hne : k ≠ 0 := fun h0 => hnot (by rw [hrhs, h0])
        have hk := (hclear k hrhs).resolve_left hne
        rcases lt_abs.mp hk with hk | hk
        · exact Or.inr (decide_eq_true ((Bound.fin_lt_fin _ _).mpr hk))
        · exact Or.inl (decide_eq_true ((Bound.fin_lt_fin _ _).mpr (by linarith)))
  · exact holds_of_pushNormalized hform h

/-! ## What the rows of a constraint say -/

/-- A constraint as written, in every row or group it has. -/
def EvaluatedConstraint.WrittenHolds (indexer : VarIndexer) (ec : EvaluatedConstraint)
    (a : Nat → ℚ) : Prop :=
  ∀ rows ∈ constraintInstances ec indexer.numRows,
    ec.comparisonType.Holds (writtenLhsValue indexer ec rows a) (ec.rhsValues (rows.headD 0))

/-- The terms as written: their decisions and their constants. -/
theorem writtenLinearValue_eq (terms : List LhsTerm) (rows : List Nat) :
    writtenLinearValue indexer terms rows a = aggregateVariablePart indexer terms rows a +
      ((terms.filter fun t => t.variableIndex.isNone).map fun t =>
        (rows.map t.rowCoefficients).sum).sum := by
  unfold writtenLinearValue aggregateVariablePart
  induction terms with
  | nil => simp
  | cons t terms ih =>
    rw [List.map_cons, List.sum_cons, List.map_cons, List.sum_cons, ih]
    unfold aggregateEntries
    cases hv : t.variableIndex with
    | none =>
      rw [List.filter_cons_of_pos (by rw [hv]; rfl), List.map_cons, List.sum_cons, Form.eval_nil]
      ring
    | some v =>
      rw [List.filter_cons_of_neg (by rw [hv]; simp)]
      dsimp only
      split
      · rw [Form.eval_cons, Form.eval_nil]
        ring
      · rw [Form.eval_map]
        ring

theorem rowVariablePart_eq (terms : List LhsTerm) (r : Nat) :
    rowVariablePart terms r (rowAssignment indexer a r) = aggregateVariablePart indexer terms [r] a := by
  unfold rowVariablePart aggregateVariablePart
  refine congrArg List.sum (List.map_congr_left fun t _ => ?_)
  unfold aggregateEntries rowAssignment
  cases t.variableIndex with
  | none => rfl
  | some v => simp

/-- The row of an aggregate is worth the decisions of its terms, whichever loop fills it. -/
theorem eval_builtAggregateForm {rows : List Nat} (hrows : rows ∈ aggregateGroups ec indexer.numRows) :
    (builtAggregateForm indexer ec rows).eval a = aggregateVariablePart indexer ec.lhsTerms rows a := by
  rw [← eval_flatMap_aggregateEntries]
  refine Form.eval_eq_of_coefficient (fun c => ?_) a
  rw [coefficient_aggregateEntries]
  unfold builtAggregateForm
  unfold aggregateGroups at hrows
  cases hids : ec.rowGroupIds with
  | none =>
    rw [hids] at hrows
    rw [List.mem_singleton.mp hrows]
    exact coefficient_ungroupedAggregateRow indexer ec.lhsTerms c
  | some ids => exact coefficient_groupedAggregateRow indexer _ ec.lhsTerms rows c

/-- The decisions the terms read take integers where their type says so. -/
def IntegerDecisions (types : List VarType) (indexer : VarIndexer) (terms : List LhsTerm)
    (a : Nat → ℚ) : Prop :=
  ∀ t ∈ terms, ∀ v, t.variableIndex = some v → types[v]? ≠ some .real →
    ∀ r, r < indexer.numRows → (a (indexer.get v r)).den = 1

/-- What counts as integer-valued is. -/
theorem aggregateVariablePart_den {types : List VarType} {terms : List LhsTerm} {rows : List Nat}
    (hint : ∀ t ∈ terms, t.integrality types indexer.numRows = .integer)
    (hcols : IntegerDecisions types indexer terms a) (hrows : ∀ r ∈ rows, r < indexer.numRows)
    (hne : rows ≠ []) : (aggregateVariablePart indexer terms rows a).den = 1 := by
  suffices hmem : aggregateVariablePart indexer terms rows a ∈ integers ℚ by
    obtain ⟨n, hn⟩ := hmem
    rw [← hn]
    exact Rat.den_intCast n
  refine list_sum_mem fun x hx => ?_
  obtain ⟨t, ht, rfl⟩ := List.mem_map.mp hx
  unfold aggregateEntries
  cases hv : t.variableIndex with
  | none => exact zero_mem _
  | some v =>
    have hti := hint t ht
    unfold LhsTerm.integrality variableIntegrality at hti
    rw [hv] at hti
    dsimp only at hti
    have hone : ∀ r, r < indexer.numRows →
        t.rowCoefficients r * a (indexer.get v r) ∈ integers ℚ := by
      intro r hr
      split at hti
      · cases hti
      · rename_i hreal
        split at hti
        · rename_i hall
          have hcoef := List.all_eq_true.mp hall r (List.mem_range.mpr hr)
          exact mul_mem (mem_integers_of_den (of_decide_eq_true hcoef))
            (mem_integers_of_den (hcols t ht v hv hreal r hr))
        · cases hti
    dsimp only
    split
    · rw [Form.eval_cons, Form.eval_nil, add_zero]
      refine hone _ (hrows _ ?_)
      cases rows with
      | nil => exact absurd rfl hne
      | cons r rows => exact List.mem_cons_self
    · rw [Form.eval_map]
      refine list_sum_mem fun y hy => ?_
      obtain ⟨r, hr, rfl⟩ := List.mem_map.mp hy
      exact hone r (hrows r hr)

/-- A constraint that counts as integer-valued has integer-valued terms. -/
theorem integrality_of_lhs {types : List VarType} {numRows : Nat}
    (h : isEvalConstraintLhsIntegerValued types numRows ec = .integer) {t : LhsTerm}
    (ht : t ∈ ec.lhsTerms) : t.integrality types numRows = .integer :=
  integrality_of_first h (List.mem_append_left _ (List.mem_append_left _ (List.mem_map_of_mem ht)))

/-- A row whose constants moved into its bound says what is written. -/
theorem applyComparisonSense_written {form : Form Nat ℚ} {cmp : Comparison} {rhs : Bound} {offset : ℚ}
    {integrality : LhsIntegrality} {c : ModelConstraint}
    (hok : applyComparisonSense form cmp (rhs.sub offset) integrality = .ok c)
    (hint : cmp = .lt ∨ cmp = .gt → (form.eval a).den = 1) {written : ℚ}
    (hwritten : form.eval a + offset = written) : c.Holds a ↔ cmp.Holds written rhs := by
  rw [applyComparisonSense_holds hok hint, Comparison.holds_sub, hwritten]

/-- A strict comparison that is built is one of integers. -/
theorem integer_of_strict {form : Form Nat ℚ} {cmp : Comparison} {rhs : Bound}
    {integrality : LhsIntegrality} {c : ModelConstraint}
    (hok : applyComparisonSense form cmp rhs integrality = .ok c) (hcmp : cmp = .lt ∨ cmp = .gt) :
    integrality = .integer := by
  by_contra hne
  rcases hcmp with rfl | rfl
  · simp [applyComparisonSense, hne] at hok
  · simp [applyComparisonSense, hne] at hok

theorem sumFixed_eq {terms : List LhsTerm} {rows : List Nat} {offset : ℚ}
    (h : sumFixedAggregateLhsOffset terms rows = .ok offset) :
    offset = ((terms.filter fun t => t.variableIndex.isNone).map fun t =>
      (rows.map t.rowCoefficients).sum).sum := by
  unfold sumFixedAggregateLhsOffset at h
  dsimp only at h
  split at h
  · cases h
  · exact (Except.ok.inj h).symm

theorem constraintInstances_ne_nil (hpos : 0 < indexer.numRows) {rows : List Nat}
    (h : rows ∈ constraintInstances ec indexer.numRows) : rows ≠ [] := by
  unfold constraintInstances at h
  split at h
  · unfold aggregateGroups at h
    cases hids : ec.rowGroupIds with
    | none =>
      rw [hids] at h
      rw [List.mem_singleton.mp h]
      simp only [ne_eq, List.range_eq_nil]
      omega
    | some ids =>
      rw [hids] at h
      exact of_decide_eq_true (List.mem_filter.mp h).2
  · obtain ⟨r, -, rfl⟩ := List.mem_map.mp h
    exact List.cons_ne_nil _ _

/-- **The rows of a linear constraint** say what is written. -/
theorem builtConstraintRows_hold_iff {types : List VarType} {rows : List ModelConstraint}
    (hpos : 0 < indexer.numRows) (hlinear : ec.bilinearTerms = [] ∧ ec.quadraticGroups = [])
    (hcols : IntegerDecisions types indexer ec.lhsTerms a)
    (hok : builtConstraintRows types indexer ec = .ok rows) :
    (∀ c ∈ rows, c.Holds a) ↔ ec.WrittenHolds indexer a := by
  have hvalue : ∀ group, writtenLhsValue indexer ec group a =
      writtenLinearValue indexer ec.lhsTerms group a := fun group => by
    unfold writtenLhsValue writtenQuadraticValue
    rw [hlinear.1, hlinear.2]
    simp
  have hinteger : ∀ {group : List Nat}, group ∈ constraintInstances ec indexer.numRows →
      isEvalConstraintLhsIntegerValued types indexer.numRows ec = .integer →
        (aggregateVariablePart indexer ec.lhsTerms group a).den = 1 := fun hgroup hint =>
    aggregateVariablePart_den (fun t ht => integrality_of_lhs hint ht) hcols
      (lt_of_mem_constraintInstances hgroup) (constraintInstances_ne_nil hpos hgroup)
  unfold builtConstraintRows at hok
  dsimp only at hok
  rw [hlinear.1, hlinear.2, if_neg (by simp)] at hok
  unfold EvaluatedConstraint.WrittenHolds
  simp only [hvalue, writtenLinearValue_eq]
  unfold constraintInstances at hinteger ⊢
  split at hok
  · rename_i hagg
    simp only [if_pos hagg] at hinteger ⊢
    refine (Relational.forall_mem_iff_of_mapM_mem hok fun group hgroup c hc => ?_).symm
    unfold builtAggregateConstraint at hc
    split at hc
    · cases hc
    rename_i offset hoffset
    rw [← sumFixed_eq hoffset]
    have heval := @eval_builtAggregateForm indexer ec a group hgroup
    refine (applyComparisonSense_written hc (fun hcmp => ?_) ?_).symm
    · rw [heval]
      exact hinteger hgroup (integer_of_strict hc hcmp)
    · rw [heval]
  · rename_i hrow
    simp only [if_neg hrow] at hinteger ⊢
    rw [List.forall_mem_map]
    refine (Relational.forall_mem_iff_of_mapM_mem hok fun r hr c hc => ?_).symm
    unfold perRowConstraint at hc
    have heval : (mergeEntries (rowEntries indexer ec.lhsTerms r)).eval a =
        aggregateVariablePart indexer ec.lhsTerms [r] a := by
      rw [eval_mergeEntries, eval_rowEntries, ← rowVariablePart_eq]
      rfl
    refine (applyComparisonSense_written hc (fun hcmp => ?_) ?_).symm
    · rw [heval]
      exact hinteger (List.mem_map_of_mem hr) (integer_of_strict hc hcmp)
    · rw [heval]
      simp [decideRowFixedLhsOffset]

/-- **The rows of a constraint with squares or products** say what is written. -/
theorem buildQuadraticConstraints_hold_iff {types : List VarType} {quads : List QuadraticConstraint}
    (hquad : (ec.bilinearTerms.isEmpty && ec.quadraticGroups.isEmpty) = false)
    (hstrict : ¬ (ec.comparisonType = .lt ∨ ec.comparisonType = .gt))
    (honce : ∀ rows ∈ constraintInstances ec indexer.numRows, ∀ c,
      outsideExcess indexer ec.lhsTerms rows c = 0)
    (hok : buildQuadraticConstraints types indexer ec = .ok quads) :
    (∀ qc ∈ quads, qc.Holds a) ↔ ec.WrittenHolds indexer a := by
  unfold buildQuadraticConstraints at hok
  rw [if_neg (by rw [hquad]; exact Bool.false_ne_true)] at hok
  refine (Relational.forall_mem_iff_of_mapM_mem hok fun rows hrows qc hqc => ?_).symm
  have hexcess : (outsideExcessForm indexer ec.lhsTerms rows).eval a = 0 := by
    have h := Form.eval_eq_of_coefficient (g := []) (fun c => by
      rw [coefficient_outsideExcessForm, honce rows hrows c, Form.coefficient_nil]) a
    rw [h, Form.eval_nil]
  have hvalue := buildQuadraticConstraint_value hqc a
  rw [hexcess, add_zero] at hvalue
  have hwritten : writtenLhsValue indexer ec rows a = qc.value a + quadraticRhsAdjustment ec rows := by
    rw [hvalue, sub_add_cancel]
  rw [hwritten, ← Comparison.holds_sub]
  unfold buildQuadraticConstraint at hqc
  dsimp only at hqc
  cases hcmp : ec.comparisonType with
  | le | ge | eq =>
    rw [hcmp] at hqc
    obtain rfl := Except.ok.inj hqc
    exact Iff.rfl
  | lt => exact absurd (Or.inl hcmp) hstrict
  | gt => exact absurd (Or.inr hcmp) hstrict
  | ne =>
    rw [hcmp] at hqc
    cases hqc

end Decidb
