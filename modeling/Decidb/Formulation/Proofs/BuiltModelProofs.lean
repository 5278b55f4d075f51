import Decidb.Diagnostics.Proofs.ColumnProvenanceProofs
import Decidb.Formulation.BuiltModel
import Decidb.Formulation.Proofs.AggregateRowProofs
import Decidb.Formulation.Proofs.FormulationRunProofs

/-!
# Built models are well formed where every pass was clean

What the builder makes itself it merges, so its rows list every column once whatever they are made of.
The rest it takes as the passes emitted it.
-/

namespace Decidb

open Linear SolverInput

variable {ctx : FormulationContext} {s t : FormulationState} {indexer : VarIndexer}

/-! ## Merged entries -/

theorem nodup_mergeEntries (entries : List (Nat × ℚ)) : ((mergeEntries entries).map (·.1)).Nodup :=
  Form.nodup_filter (Form.nodup_foldl_addColumn entries (f := []) List.nodup_nil) _

theorem nodup_mergeQEntries (entries : Form (Nat × Nat) ℚ) :
    ((mergeQEntries entries).map (·.1)).Nodup :=
  Form.nodup_filter (Form.nodup_foldl_addColumn entries (f := []) List.nodup_nil) _

theorem mem_mergeEntries {entries : List (Nat × ℚ)} {e : Nat × ℚ} (he : e ∈ mergeEntries entries) :
    e.1 ∈ entries.map (·.1) :=
  (Form.mem_foldl_addColumn entries (List.mem_filter.mp he).1).resolve_left (by simp)

theorem mem_mergeQEntries {entries : Form (Nat × Nat) ℚ} {e : (Nat × Nat) × ℚ}
    (he : e ∈ mergeQEntries entries) : e.1 ∈ entries.map (·.1) :=
  (Form.mem_foldl_addColumn entries (List.mem_filter.mp he).1).resolve_left (by simp)

/-! ## The fast path -/

/-- What the fast path writes are columns of the terms. -/
theorem mem_fastPathEntries {terms : List LhsTerm} {rows : List Nat} {e : Nat × ℚ}
    (he : e ∈ fastPathEntries indexer terms rows) :
    ∃ v ∈ terms.filterMap (·.variableIndex), ∃ r ∈ rows, e.1 = indexer.get v r := by
  obtain ⟨t, ht, he⟩ := List.mem_flatMap.mp he
  cases hv : t.variableIndex with
  | none =>
    rw [hv] at he
    cases he
  | some v =>
    rw [hv] at he
    obtain ⟨r, hr, rfl⟩ := List.mem_map.mp he
    exact ⟨v, List.mem_filterMap.mpr ⟨t, ht, hv⟩, r, (List.mem_filter.mp hr).1, rfl⟩

/-- A row-scoped variable has a column of its own at every row. -/
theorem FormulationContext.get_inj_row (ctx : FormulationContext) {v r r' slot : Nat}
    (hv : v < ctx.layout.numVars) (hscope : ctx.indexer.varScope v = .row slot)
    (hr : r < ctx.layout.numRows) (hr' : r' < ctx.layout.numRows)
    (h : ctx.indexer.get v r = ctx.indexer.get v r') : r = r' := by
  have hrow : ctx.layout.variableScopes[v]? = some .row := by
    change ctx.layout.decideVarScope (min v (ctx.layout.numVars - 1)) = .row slot at hscope
    rw [min_eq_left (by omega)] at hscope
    unfold ColumnLayout.decideVarScope at hscope
    have hs := List.getElem?_eq_getElem (l := ctx.layout.variableScopes) hv
    rw [hs] at hscope ⊢
    cases hkind : ctx.layout.variableScopes[v] with
    | row => rfl
    | entity mapping | scalar =>
      rw [hkind] at hscope
      cases hscope
  have hinst : ∀ r, ctx.layout.rowInstance v r = r := fun r => by
    unfold ColumnLayout.rowInstance
    rw [hrow]
  have hnum : ctx.layout.numInstances v = ctx.layout.numRows := by
    unfold ColumnLayout.numInstances
    rw [hrow]
  rw [ctx.get_eq hv hr, ctx.get_eq hv hr', hinst, hinst] at h
  exact ColumnLayout.instanceColumn_inj (hnum ▸ hr) (hnum ▸ hr') h

/-- The fast path meets a column once: its variables are distinct and row-scoped. -/
theorem nodup_fastPathEntries {terms : List LhsTerm} {rows : List Nat}
    (hterms : TermsBelow ctx.layout.numVars terms) (hrows : ∀ r ∈ rows, r < ctx.layout.numRows)
    (hnodup : rows.Nodup) (hfast : canUseRowScopedFastPath ctx.indexer terms = true) :
    ((fastPathEntries ctx.indexer terms rows).map (·.1)).Nodup := by
  unfold canUseRowScopedFastPath at hfast
  rw [Bool.and_eq_true, decide_eq_true_eq, List.all_eq_true] at hfast
  obtain ⟨hscope, hvars⟩ := hfast
  induction terms with
  | nil => exact List.nodup_nil
  | cons t terms ih =>
    have htail : TermsBelow ctx.layout.numVars terms := fun u hu => hterms u (List.mem_cons_of_mem _ hu)
    cases hv : t.variableIndex with
    | none =>
      rw [List.filterMap_cons_none hv] at hscope hvars
      have hsame : fastPathEntries ctx.indexer (t :: terms) rows =
          fastPathEntries ctx.indexer terms rows := by
        unfold fastPathEntries
        rw [List.flatMap_cons, hv]
        rfl
      rw [hsame]
      exact ih htail hscope hvars
    | some v =>
      rw [List.filterMap_cons_some hv] at hscope hvars
      obtain ⟨hnot, hvars⟩ := List.nodup_cons.mp hvars
      have hlt := hterms t List.mem_cons_self v hv
      have hcons : fastPathEntries ctx.indexer (t :: terms) rows =
          ((rows.filter fun r => t.rowCoefficients r ≠ 0).map fun r =>
            (ctx.indexer.get v r, t.rowCoefficients r)) ++ fastPathEntries ctx.indexer terms rows := by
        unfold fastPathEntries
        rw [List.flatMap_cons, hv]
      rw [hcons, List.map_append, List.map_map]
      refine List.Nodup.append ?_
        (ih htail (fun w hw => hscope w (List.mem_cons_of_mem _ hw)) hvars) ?_
      · obtain ⟨slot, hslot⟩ : ∃ slot, ctx.indexer.varScope v = .row slot := by
          have := hscope v List.mem_cons_self
          cases hk : ctx.indexer.varScope v with
          | row slot => exact ⟨slot, rfl⟩
          | entity | scalar => simp [hk] at this
        refine List.Nodup.map_on (fun r hr r' hr' heq => ?_) (hnodup.filter _)
        exact ctx.get_inj_row hlt hslot (hrows r (List.mem_filter.mp hr).1)
          (hrows r' (List.mem_filter.mp hr').1) heq
      · intro c hc hc'
        obtain ⟨r, hr, rfl⟩ := List.mem_map.mp hc
        obtain ⟨e, he, heq⟩ := List.mem_map.mp hc'
        obtain ⟨w, hw, r', hr', hew⟩ := mem_fastPathEntries he
        obtain ⟨u, hu, huw⟩ := List.mem_filterMap.mp hw
        have hwlt := htail u hu w huw
        have hown := ctx.ownerOf_get hlt (hrows r (List.mem_filter.mp hr).1)
        have hown' := ctx.ownerOf_get hwlt (hrows r' hr')
        rw [← hew, heq] at hown'
        have hvw : v = w := Option.some.inj (hown.symm.trans hown')
        rw [hvw] at hnot
        exact hnot hw

/-! ## Linear rows -/

theorem nodup_of_mem_aggregateGroups {ec : EvaluatedConstraint} {numRows : Nat} {rows : List Nat}
    (h : rows ∈ aggregateGroups ec numRows) : rows.Nodup := by
  unfold aggregateGroups at h
  cases hg : ec.rowGroupIds with
  | none =>
    rw [hg] at h
    rw [List.mem_singleton.mp h]
    exact List.nodup_range
  | some ids =>
    rw [hg] at h
    obtain ⟨g, -, rfl⟩ := List.mem_map.mp (List.mem_filter.mp h).1
    exact List.nodup_range.filter _

theorem nodup_builtAggregateForm {ec : EvaluatedConstraint} {rows : List Nat}
    (hterms : TermsBelow ctx.layout.numVars ec.lhsTerms)
    (h : rows ∈ aggregateGroups ec ctx.layout.numRows) :
    ((builtAggregateForm ctx.indexer ec rows).map (·.1)).Nodup := by
  unfold builtAggregateForm
  split
  · unfold ungroupedAggregateRow
    dsimp only
    split
    · rename_i hfast
      exact nodup_fastPathEntries hterms (fun r hr => List.mem_range.mp hr) List.nodup_range hfast
    · exact nodup_mergeEntries _
  · unfold groupedAggregateRow
    split
    · rename_i hfast
      exact nodup_fastPathEntries hterms (lt_of_mem_aggregateGroups h) (nodup_of_mem_aggregateGroups h)
        hfast
    · exact (SparseCoeffAccumulator.flush_nodup _).1

/-- Every linear row lists its columns once before the rows without variables are looked at. -/
theorem nodup_builtConstraintRows {types : List VarType} {ec : EvaluatedConstraint}
    {rows : List ModelConstraint} (hterms : TermsBelow ctx.layout.numVars ec.lhsTerms)
    (h : builtConstraintRows types ctx.indexer ec = .ok rows) :
    ∀ c ∈ rows, (c.form.map (·.1)).Nodup := by
  unfold builtConstraintRows at h
  dsimp only at h
  split at h
  · obtain rfl := Except.ok.inj h
    exact fun c hc => absurd hc List.not_mem_nil
  · split at h
    · intro c hc
      obtain ⟨group, hgroup, hrow⟩ := Relational.exists_of_mem_mapM h hc
      unfold builtAggregateConstraint at hrow
      split at hrow
      · cases hrow
      · rw [applyComparisonSense_form hrow]
        exact nodup_builtAggregateForm hterms hgroup
    · intro c hc
      obtain ⟨r, -, hrow⟩ := Relational.exists_of_mem_mapM h hc
      unfold perRowConstraint at hrow
      rw [applyComparisonSense_form hrow]
      exact nodup_mergeEntries _

/-- A row that is kept is the row it was, and one without variables is violated. -/
theorem mem_pushNormalizedConstraint {c d : ModelConstraint} (hd : d ∈ pushNormalizedConstraint c) :
    d = c ∧ (d.form = [] → d.IsViolatedConstant) := by
  have heq : d = c := by
    unfold pushNormalizedConstraint at hd
    split at hd
    · exact List.mem_singleton.mp hd
    · exact List.mem_singleton.mp (List.mem_ite_nil_right.mp hd).2
  refine ⟨heq, fun hform a ha => ?_⟩
  subst heq
  unfold pushNormalizedConstraint at hd
  rw [if_neg (not_not.mpr hform)] at hd
  unfold ModelConstraint.Holds at ha
  rw [hform, Form.eval_nil] at ha
  have htol : (0 : ℚ) < constantRowTolerance := by norm_num [constantRowTolerance]
  have hviolated := (List.mem_ite_nil_right.mp hd).1
  have hlow : ∀ {b : Bound}, b < .fin (-constantRowTolerance) → ¬ Bound.fin 0 ≤ b := fun hb hle =>
    absurd ((Bound.fin_lt_fin _ _).mp (lt_of_le_of_lt hle hb)) (by linarith)
  have hhigh : ∀ {b : Bound}, .fin constantRowTolerance < b → ¬ b ≤ Bound.fin 0 := fun hb hle =>
    absurd ((Bound.fin_lt_fin _ _).mp (lt_of_lt_of_le hb hle)) (by linarith)
  cases hsense : d.sense with
  | le =>
    rw [hsense] at ha hviolated
    exact hlow (of_decide_eq_true hviolated) ha
  | ge =>
    rw [hsense] at ha hviolated
    exact hhigh (of_decide_eq_true hviolated) ha
  | eq =>
    rw [hsense] at ha hviolated
    rcases Bool.or_eq_true _ _ ▸ hviolated with h | h
    · exact hlow (of_decide_eq_true h) (le_of_eq ha)
    · exact hhigh (of_decide_eq_true h) (le_of_eq ha.symm)

/-! ## Quadratic rows -/

theorem packQKey_lower (c c' : Nat) : (packQKey c c').2 ≤ (packQKey c c').1 :=
  (min_le_left c c').trans (le_max_left c c')

/-- The pairs of an outer product are packed. -/
theorem mem_outerProduct {sign : ℚ} {terms : List (Nat × ℚ)} {e : (Nat × Nat) × ℚ}
    (he : e ∈ outerProduct sign terms) :
    ∃ c ∈ terms.map (·.1), ∃ c' ∈ terms.map (·.1), e.1 = packQKey c c' := by
  induction terms with
  | nil => cases he
  | cons t terms ih =>
    simp only [outerProduct, List.cons_append, List.mem_cons, List.mem_append] at he
    rw [List.map_cons]
    rcases he with rfl | he | he
    · exact ⟨t.1, List.mem_cons_self, t.1, List.mem_cons_self, rfl⟩
    · obtain ⟨u, hu, rfl⟩ := List.mem_map.mp he
      exact ⟨u.1, List.mem_cons_of_mem _ (List.mem_map_of_mem hu), t.1, List.mem_cons_self, rfl⟩
    · obtain ⟨c, hc, c', hc', heq⟩ := ih he
      exact ⟨c, List.mem_cons_of_mem _ hc, c', List.mem_cons_of_mem _ hc', heq⟩

theorem mem_quadraticRowTerms {qg : QuadraticGroup} {r : Nat} {e : Nat × ℚ}
    (he : e ∈ quadraticRowTerms indexer qg r) : ∃ v, e.1 = indexer.get v r := by
  obtain ⟨t, -, ht⟩ := List.mem_filterMap.mp he
  split at ht
  · cases ht
  · obtain ⟨v, -, rfl⟩ := Option.map_eq_some_iff.mp ht
    exact ⟨v, rfl⟩

/-- The pairs of a quadratic row are packed pairs of decision columns. -/
theorem mem_quadraticEntries {ec : EvaluatedConstraint} {rows : List Nat} {e : (Nat × Nat) × ℚ}
    (he : e ∈ quadraticEntries indexer ec rows) :
    ∃ r ∈ rows, ∃ v w, e.1 = packQKey (indexer.get v r) (indexer.get w r) := by
  rcases List.mem_append.mp he with he | he
  · obtain ⟨bt, -, he⟩ := List.mem_flatMap.mp he
    obtain ⟨r, hr, rfl⟩ := List.mem_map.mp he
    exact ⟨r, (List.mem_filter.mp hr).1, _, _, rfl⟩
  · obtain ⟨qg, -, he⟩ := List.mem_flatMap.mp he
    obtain ⟨r, hr, he⟩ := List.mem_flatMap.mp he
    obtain ⟨c, hc, c', hc', heq⟩ := mem_outerProduct he
    obtain ⟨u, hu, rfl⟩ := List.mem_map.mp hc
    obtain ⟨u', hu', rfl⟩ := List.mem_map.mp hc'
    obtain ⟨v, hv⟩ := mem_quadraticRowTerms hu
    obtain ⟨w, hw⟩ := mem_quadraticRowTerms hu'
    exact ⟨r, hr, v, w, by rw [heq, hv, hw]⟩

/-- The columns of the linear part are decision columns. -/
theorem mem_quadraticLinearPart {ec : EvaluatedConstraint} {rows : List Nat} {e : Nat × ℚ}
    (he : e ∈ quadraticLinearPart indexer ec rows) : ∃ r ∈ rows, ∃ v, e.1 = indexer.get v r := by
  obtain ⟨d, hd, hde⟩ := List.mem_map.mp (mem_mergeEntries he)
  rw [← hde]
  rcases List.mem_append.mp hd with hd | hd
  · obtain ⟨t, -, hd⟩ := List.mem_flatMap.mp hd
    cases hv : t.variableIndex with
    | none =>
      rw [hv] at hd
      cases hd
    | some v =>
      rw [hv] at hd
      obtain ⟨r, hr, rfl⟩ := List.mem_map.mp hd
      exact ⟨r, hr, v, rfl⟩
  · obtain ⟨qg, -, hd⟩ := List.mem_flatMap.mp hd
    obtain ⟨r, hr, hd⟩ := List.mem_flatMap.mp hd
    split at hd
    · obtain ⟨u, hu, rfl⟩ := List.mem_map.mp hd
      obtain ⟨v, hv⟩ := mem_quadraticRowTerms hu
      exact ⟨r, hr, v, hv⟩
    · cases hd

theorem lt_of_mem_constraintInstances {ec : EvaluatedConstraint} {numRows : Nat} {rows : List Nat}
    (h : rows ∈ constraintInstances ec numRows) : ∀ r ∈ rows, r < numRows := by
  unfold constraintInstances at h
  split at h
  · exact lt_of_mem_aggregateGroups h
  · obtain ⟨r, hr, rfl⟩ := List.mem_map.mp h
    intro r' hr'
    rw [List.mem_singleton.mp hr']
    exact List.mem_range.mp (List.mem_filter.mp hr).1

theorem buildQuadraticConstraint_parts {integrality : LhsIntegrality} {ec : EvaluatedConstraint}
    {rows : List Nat} {rhs : Bound} {qc : QuadraticConstraint}
    (h : buildQuadraticConstraint indexer integrality ec rows rhs = .ok qc) :
    qc.linear = quadraticLinearPart indexer ec rows ∧
      qc.quad = mergeQEntries (quadraticEntries indexer ec rows) := by
  unfold buildQuadraticConstraint at h
  dsimp only at h
  cases hcmp : ec.comparisonType with
  | le | ge | eq =>
    rw [hcmp] at h
    obtain rfl := Except.ok.inj h
    exact ⟨rfl, rfl⟩
  | lt | gt =>
    rw [hcmp] at h
    dsimp only at h
    split at h
    · cases h
    · obtain rfl := Except.ok.inj h
      exact ⟨rfl, rfl⟩
  | ne =>
    rw [hcmp] at h
    cases h

/-- Every quadratic row is well formed. -/
theorem buildQuadraticConstraints_ok {types : List VarType} {ec : EvaluatedConstraint}
    {rows : List QuadraticConstraint} {numVars : Nat} (hle : indexer.globalBlockStart ≤ numVars)
    (h : buildQuadraticConstraints types indexer ec = .ok rows) :
    ∀ c ∈ rows, EntriesOk numVars c.linear ∧ QEntriesOk numVars c.quad := by
  unfold buildQuadraticConstraints at h
  split at h
  · obtain rfl := Except.ok.inj h
    exact fun c hc => absurd hc List.not_mem_nil
  intro c hc
  obtain ⟨group, hgroup, hrow⟩ := Relational.exists_of_mem_mapM h hc
  have hlt := lt_of_mem_constraintInstances hgroup
  obtain ⟨hlinear, hquad⟩ := buildQuadraticConstraint_parts hrow
  rw [hlinear, hquad]
  have hpacked : ∀ e ∈ mergeQEntries (quadraticEntries indexer ec group), ∃ r ∈ group, ∃ v w,
      e.1 = packQKey (indexer.get v r) (indexer.get w r) := by
    intro e he
    obtain ⟨d, hd, hde⟩ := List.mem_map.mp (mem_mergeQEntries he)
    rw [← hde]
    exact mem_quadraticEntries hd
  refine ⟨⟨fun e he => ?_, nodup_mergeEntries _⟩, ⟨fun e he => ?_, fun e he => ?_,
    nodup_mergeQEntries _⟩⟩
  · obtain ⟨r, hr, v, heq⟩ := mem_quadraticLinearPart he
    rw [heq]
    exact (indexer.get_lt v (hlt r hr)).trans_le hle
  · obtain ⟨r, hr, v, w, heq⟩ := hpacked e he
    rw [heq]
    exact (max_lt (indexer.get_lt v (hlt r hr)) (indexer.get_lt w (hlt r hr))).trans_le hle
  · obtain ⟨r, hr, v, w, heq⟩ := hpacked e he
    rw [heq]
    exact packQKey_lower _ _

/-! ## Columns and checks -/

theorem length_buildColumns (layout : ColumnLayout) (input : SolverInput) :
    (buildColumns layout input).length = layout.globalBlockStart + input.globalColumns.length := by
  unfold buildColumns
  dsimp only
  rw [length_foldl_set, length_foldl_set, List.length_replicate]

theorem length_buildObjCoeffs (indexer : VarIndexer) (numVars : Nat) (obj : QuadraticObjective) :
    (buildObjCoeffs indexer numVars obj).length = numVars := by
  unfold buildObjCoeffs
  refine List.foldlRecOn _ _ (motive := fun coeffs : List ℚ => coeffs.length = numVars)
    List.length_replicate fun coeffs h e _ => ?_
  rw [List.length_modify]
  exact h

/-- What the last checks let through. -/
theorem sanityRefusal_none {model : BuiltModel} {tolerate : Bool}
    (h : sanityRefusal model tolerate = none) :
    (∀ c ∈ model.constraints, ∀ e ∈ c.form, e.1 < model.numVars) ∧
      ∀ e ∈ model.quadraticObjective, e.1.1 < model.numVars ∧ e.1.2 ≤ e.1.1 := by
  unfold sanityRefusal at h
  dsimp only at h
  split at h
  · cases h
  split at h
  · cases h
  rename_i hrows
  constructor
  · intro c hc e he
    obtain ⟨i, hi⟩ := List.getElem?_of_mem hc
    have hnone := List.findSome?_eq_none_iff.mp hrows (c, i) (List.mk_mem_zipIdx_iff_getElem?.mpr hi)
    rw [Option.map_eq_none_iff, List.find?_eq_none] at hnone
    simpa using hnone e he
  · intro e he
    obtain ⟨i, hi⟩ := List.getElem?_of_mem he
    have hnone := List.findSome?_eq_none_iff.mp h (e, i) (List.mk_mem_zipIdx_iff_getElem?.mpr hi)
    dsimp only at hnone
    split at hnone
    · cases hnone
    split at hnone
    · cases hnone
    rename_i hrange hlower
    rw [not_or, not_le, not_le] at hrange
    exact ⟨hrange.1, not_lt.mp hlower⟩

/-! ## The model -/

/-- The parts of a model that passed its checks. -/
theorem buildModel_parts {layout : ColumnLayout} {input : SolverInput} {obj : QuadraticObjective}
    {sense : DecideSense} {tolerate : Bool} {model : BuiltModel}
    (h : buildModel layout indexer input obj sense tolerate = .ok model) :
    ∃ rows quadratics,
      input.constraints.mapM (builtConstraintRows input.variableTypes indexer) = .ok rows ∧
      input.constraints.mapM (buildQuadraticConstraints input.variableTypes indexer) = .ok quadratics ∧
      model = assembleModel layout indexer input obj sense rows.flatten quadratics.flatten ∧
      sanityRefusal model tolerate = none := by
  unfold buildModel at h
  cases hrows : input.constraints.mapM (builtConstraintRows input.variableTypes indexer) with
  | error e =>
    rw [hrows] at h
    cases h
  | ok rows =>
    rw [hrows] at h
    cases hquad : input.constraints.mapM (buildQuadraticConstraints input.variableTypes indexer) with
    | error e =>
      rw [hquad] at h
      cases h
    | ok quadratics =>
      rw [hquad] at h
      dsimp only at h
      split at h
      · cases h
      · rename_i hsanity
        obtain rfl := Except.ok.inj h
        exact ⟨rows, quadratics, rfl, rfl, rfl, hsanity⟩

/-- **What the builder makes itself is well formed**, and so is the model when the global block it takes
over lists its columns once. -/
theorem wellFormed_of_listed {obj : QuadraticObjective} {sense : DecideSense} {tolerate : Bool}
    {model : BuiltModel} (ht : t.Sound ctx) (hlisted : t.input.Listed)
    (h : buildModel ctx.layout ctx.indexer t.input obj sense tolerate = .ok model) :
    model.WellFormed := by
  obtain ⟨rows, quadratics, hrows, hquad, rfl, hsanity⟩ := buildModel_parts h
  obtain ⟨hlt, hobjective⟩ := sanityRefusal_none hsanity
  have hcolumns : (buildColumns ctx.layout t.input).length = t.input.width ctx.indexer :=
    length_buildColumns ctx.layout t.input
  have hkept : ∀ c ∈ rows.flatten.flatMap pushNormalizedConstraint,
      (c.form.map (·.1)).Nodup ∧ (c.form = [] → c.IsViolatedConstant) := by
    intro c hc
    obtain ⟨d, hd, hcd⟩ := List.mem_flatMap.mp hc
    obtain ⟨rfl, hviolated⟩ := mem_pushNormalizedConstraint hcd
    obtain ⟨built, hbuilt, hc⟩ := List.mem_flatten.mp hd
    obtain ⟨ec, hec, hok⟩ := Relational.exists_of_mem_mapM hrows hbuilt
    exact ⟨nodup_builtConstraintRows (ht.readsBelow ec hec) hok _ hc, hviolated⟩
  constructor
  · exact (List.length_map _).trans hcolumns
  · exact (List.length_map _).trans hcolumns
  · exact (List.length_map _).trans hcolumns
  · exact (List.length_map _).trans hcolumns
  · exact length_buildObjCoeffs _ _ _
  · exact ⟨fun e he => (hobjective e he).1, fun e he => (hobjective e he).2, nodup_mergeQEntries _⟩
  · intro c hc
    refine ⟨hlt c hc, ?_⟩
    rcases List.mem_append.mp hc with hc | hc
    · exact (hkept c hc).1
    · obtain ⟨raw, hraw, rfl⟩ := List.mem_map.mp hc
      exact (hlisted.rows raw hraw).nodup
  · intro c hc
    obtain ⟨built, hbuilt, hc⟩ := List.mem_flatten.mp hc
    obtain ⟨ec, hec, hok⟩ := Relational.exists_of_mem_mapM hquad hbuilt
    exact buildQuadraticConstraints_ok (Nat.le_add_right _ _) hok c hc
  · intro ic hic
    obtain ⟨hbin, hrow⟩ := ht.wellScoped.indicators ic hic
    refine ⟨fun e he => ?_, hlisted.indicators ic hic⟩
    rcases List.mem_cons.mp he with rfl | he
    · exact hbin
    · exact hrow e he
  · intro gc hgc
    obtain ⟨hres, hargs⟩ := ht.wellScoped.generals gc hgc
    refine ⟨fun e he => ?_, ?_⟩
    · obtain ⟨c, hc, rfl⟩ := List.mem_map.mp he
      rcases List.mem_cons.mp hc with rfl | hc
      · exact hres
      · exact hargs c hc
    · rw [List.map_map]
      exact (List.map_id' (gc.resultColumn :: gc.argumentColumns)).symm ▸ hlisted.generals gc hgc
  · intro c hc hform
    rcases List.mem_append.mp hc with hc | hc
    · refine ⟨(hkept c hc).2 hform, List.any_eq_true.mpr ⟨c, hc, ?_⟩⟩
      rw [hform]
      rfl
    · obtain ⟨raw, hraw, rfl⟩ := List.mem_map.mp hc
      exact absurd hform (hlisted.rows raw hraw).ne_nil

/-- A well-formed model that the builder did not find infeasible took over a global block that lists its
columns once. -/
theorem listed_of_wellFormed {obj : QuadraticObjective} {sense : DecideSense} {tolerate : Bool}
    {model : BuiltModel}
    (h : buildModel ctx.layout ctx.indexer t.input obj sense tolerate = .ok model)
    (hflag : model.buildProvenInfeasible = false) (hwell : model.WellFormed) : t.input.Listed := by
  obtain ⟨rows, quadratics, -, -, rfl, -⟩ := buildModel_parts h
  refine ⟨fun raw hraw => ?_, fun gc hgc => ?_, fun ic hic => (hwell.indicator ic hic).nodup⟩
  · have hmem : appendRawConstraint raw ∈
        (assembleModel ctx.layout ctx.indexer t.input obj sense rows.flatten quadratics.flatten).constraints :=
      List.mem_append_right _ (List.mem_map_of_mem hraw)
    refine ⟨(hwell.linear _ hmem).nodup, fun hnil => ?_⟩
    have := (hwell.constant _ hmem hnil).2
    rw [hflag] at this
    cases this
  · have := (hwell.general gc hgc).nodup
    rw [List.map_map] at this
    exact (List.map_id' (gc.resultColumn :: gc.argumentColumns)) ▸ this

/-- **Built models are well formed where every pass of the run was clean**, and, unless the builder
found the model infeasible, only there. -/
theorem builtModel_wellFormed_iff (ctx : FormulationContext) (evaluated : EvaluatedClauses)
    {s : FormulationState} (hs : s.Assembled ctx) {sense : DecideSense} {tolerate : Bool}
    {model : BuiltModel} (h : formulateAndBuild ctx evaluated s sense tolerate = .ok model) :
    (CleanRun ctx s (formulationPasses evaluated) → model.WellFormed) ∧
      (model.buildProvenInfeasible = false → model.WellFormed →
        CleanRun ctx s (formulationPasses evaluated)) := by
  unfold formulateAndBuild at h
  cases hrun : formulateModel ctx evaluated s with
  | error e =>
    rw [hrun] at h
    cases h
  | ok t =>
    rw [hrun] at h
    obtain ⟨ht, hlisted⟩ := formulateModel_spec hs hrun
    exact ⟨fun hclean => wellFormed_of_listed ht (hlisted.mpr hclean) h,
      fun hflag hwell => hlisted.mp (listed_of_wellFormed h hflag hwell)⟩

/-! ## Three queries -/

/-- One decision over two rows, extrema stated natively where they have to be. -/
def oneVariable (scope : VariableScope)
    (hscope : ∀ mapping, scope = .entity mapping → ∀ row, row < 2 →
      mapping.rowToEntity row < mapping.numEntities) : FormulationContext where
  layout :=
    { numRows := 2
      variableScopes := [scope]
      entity_lt := fun mapping h => hscope mapping (List.mem_singleton.mp h).symm }
  numVars_pos := Nat.one_pos
  varNames := ["x"]
  nativeMinMax := { available := true }

def oneRowScoped : FormulationContext := oneVariable .row (by simp)

/-- Both rows are made of the same entity. -/
def oneShared : FormulationContext := oneVariable (.entity ⟨1, fun _ => 0⟩) (by rintro mapping ⟨⟩; simp)

/-- A non-negative INTEGER decision with some constraints. -/
def integerState (constraints : List EvaluatedConstraint) : FormulationState where
  input :=
    { numRows := 2
      variableTypes := [.integer]
      lowerBounds := [0]
      upperBounds := [openBound]
      rigidLowerBounds := [0]
      rigidUpperBounds := [openBound]
      constraints }

theorem integerState_assembled {ctx : FormulationContext} (hrows : ctx.layout.numRows = 2)
    {constraints : List EvaluatedConstraint}
    (hterms : ∀ ec ∈ constraints, TermsBelow ctx.layout.numVars ec.lhsTerms) :
    (integerState constraints).Assembled ctx :=
  ⟨hrows.symm, rfl, rfl, rfl, rfl, hterms, fun _ h => absurd h List.not_mem_nil⟩

/-- A model the two steps come to, told by what can be read off it. -/
theorem exists_formulateAndBuild {ctx : FormulationContext} {evaluated : EvaluatedClauses}
    {s : FormulationState} {sense : DecideSense} {tolerate : Bool} {test : BuiltModel → Bool}
    (h : ((formulateAndBuild ctx evaluated s sense tolerate).toOption.any test) = true) :
    ∃ model, formulateAndBuild ctx evaluated s sense tolerate = .ok model ∧ test model = true := by
  cases hrun : formulateAndBuild ctx evaluated s sense tolerate with
  | error e =>
    rw [hrun] at h
    cases h
  | ok model =>
    rw [hrun] at h
    exact ⟨model, rfl, h⟩

/-- `MAX(x) + SUM(x) >= 5`. -/
def maxPlusSum : EvaluatedClauses where
  composedConstraints :=
    [{ terms :=
        [⟨.max, 1, 1, false, [{ variableIndex := some 0, rowCoefficients := fun _ => 1 }],
            fun _ => true, 0⟩,
          ⟨.sum, 1, 1, false, [{ variableIndex := some 0, rowCoefficients := fun _ => 1 }],
            fun _ => true, 0⟩]
       rhs := 5
       outerCmp := .ge }]

theorem maxPlusSum_clean : CleanRun oneRowScoped (integerState []) (formulationPasses maxPlusSum) := by
  -- no constraint and no ABS link: the passes before the composed clause hand the state on
  refine ⟨trivial, fun s₁ h₁ => ?_⟩
  obtain rfl := Except.ok.inj h₁
  refine ⟨trivial, fun s₂ h₂ => ?_⟩
  obtain rfl := Except.ok.inj h₂
  refine ⟨trivial, fun s₃ h₃ => ?_⟩
  obtain rfl := Except.ok.inj h₃
  refine ⟨fun h => absurd h (by decide), fun s₄ h₄ => ?_⟩
  obtain rfl := Except.ok.inj h₄
  refine ⟨fun ec hec => absurd hec List.not_mem_nil, fun s₅ h₅ => ?_⟩
  obtain rfl := Except.ok.inj h₅
  refine ⟨fun ec hec => absurd hec List.not_mem_nil, fun s₆ h₆ => ?_⟩
  obtain rfl := Except.ok.inj h₆
  refine ⟨trivial, fun s₇ h₇ => ?_⟩
  obtain rfl := Except.ok.inj h₇
  refine ⟨fun h => absurd rfl h, fun s₈ h₈ => ?_⟩
  obtain rfl := Except.ok.inj h₈
  refine ⟨⟨fun ta hta hmm => ?_, Or.inl ⟨_, List.mem_cons_self, rfl, by norm_num⟩⟩,
    fun s₉ h₉ => ⟨trivial, fun _ _ => trivial⟩⟩
  rcases List.mem_cons.mp hta with rfl | hta
  · intro _ _
    unfold RenamesDistinct
    decide +kernel
  · rw [List.mem_singleton.mp hta] at hmm
    cases hmm

theorem builtModel_wellFormed_iff_maxPlusSum : ∃ model,
    formulateAndBuild oneRowScoped maxPlusSum (integerState []) .maximize false = .ok model ∧
      model.WellFormed := by
  obtain ⟨model, h, -⟩ := exists_formulateAndBuild
    (show ((formulateAndBuild oneRowScoped maxPlusSum (integerState []) .maximize false).toOption.any
      fun _ => true) = true by decide +kernel)
  exact ⟨model, h, (builtModel_wellFormed_iff oneRowScoped maxPlusSum
    (integerState_assembled rfl (by simp)) h).1 maxPlusSum_clean⟩

/-- `a * x <> 0` where `a` is 1 on the first row and 0 on the second. -/
def zeroCoefficient : EvaluatedConstraint where
  lhsTerms := [{ variableIndex := some 0, rowCoefficients := fun r => if r = 0 then 1 else 0 }]
  rhsValues := fun _ => .fin 0
  comparisonType := .ne
  neClauseIdx := some 0

/-- `MAX(x) >= 5`. -/
def maxAtLeastFive : EvaluatedConstraint where
  lhsTerms := [{ variableIndex := some 0, rowCoefficients := fun _ => 1 }]
  rhsValues := fun _ => .fin 5
  comparisonType := .ge
  lhsIsAggregate := true
  minmaxAggType := some .max

theorem termsBelow_one {coefficients : Nat → ℚ} :
    TermsBelow 1 [{ variableIndex := some 0, rowCoefficients := coefficients }] := by
  intro t ht v hv
  rw [List.mem_singleton.mp ht] at hv
  obtain rfl := Option.some.inj hv
  exact Nat.one_pos

/-- **The `<>` leaves a row without variables that the build does not report; the native MAX over an
entity shared by two rows lists its column twice.** -/
theorem zeroCoefficient_and_sharedEntity_not_wellFormed :
    ((integerState [zeroCoefficient]).Assembled oneRowScoped ∧ ∃ model,
      formulateAndBuild oneRowScoped {} (integerState [zeroCoefficient]) .maximize false = .ok model ∧
        ¬ model.WellFormed) ∧
    ((integerState [maxAtLeastFive]).Assembled oneShared ∧ ∃ model,
      formulateAndBuild oneShared {} (integerState [maxAtLeastFive]) .maximize false = .ok model ∧
        ¬ model.WellFormed) := by
  refine ⟨⟨integerState_assembled rfl fun ec hec => ?_, ?_⟩,
    integerState_assembled rfl fun ec hec => ?_, ?_⟩
  · rw [List.mem_singleton.mp hec]
    exact termsBelow_one
  · obtain ⟨model, h, htest⟩ := exists_formulateAndBuild
      (show ((formulateAndBuild oneRowScoped {} (integerState [zeroCoefficient]) .maximize
        false).toOption.any fun model =>
          model.constraints.any (·.form.isEmpty) && !model.buildProvenInfeasible) = true by
        decide +kernel)
    refine ⟨model, h, fun hwell => ?_⟩
    rw [Bool.and_eq_true, List.any_eq_true, Bool.not_eq_true'] at htest
    obtain ⟨⟨c, hc, hempty⟩, hflag⟩ := htest
    have hset := (hwell.constant c hc (List.isEmpty_iff.mp hempty)).2
    rw [hflag] at hset
    cases hset
  · rw [List.mem_singleton.mp hec]
    exact termsBelow_one
  · obtain ⟨model, h, htest⟩ := exists_formulateAndBuild
      (show ((formulateAndBuild oneShared {} (integerState [maxAtLeastFive]) .maximize
        false).toOption.any fun model =>
          model.generalConstraints.any (·.argumentColumns = [0, 0])) = true by
        decide +kernel)
    refine ⟨model, h, fun hwell => ?_⟩
    rw [List.any_eq_true] at htest
    obtain ⟨gc, hgc, hargs⟩ := htest
    have hnodup := (hwell.general gc hgc).nodup
    rw [of_decide_eq_true hargs] at hnodup
    simp at hnodup

end Decidb
