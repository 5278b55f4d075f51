import Decidb.Formulation.Proofs.PassMeaningProofs

/-!
# What the model of an input means

The builder turns the constraints of an input into rows and takes the block over as it is. The model
accepts what the input does, at the value of its objective.
-/

namespace Decidb

open Linear SolverInput

variable {ctx : FormulationContext} {s t : SolverInput} {sense : DecideSense} {a b : Nat → ℚ}
  {value : (Nat → ℚ) → ℚ} {obj : QuadraticObjective} {model : BuiltModel}

/-! ## The model of an input -/

/-- A constraint whose rows the builder can state: strict only when it is linear, without a query-wide
decision beside its squares or products, and none of its rows left without variables near its bound. -/
def EvaluatedConstraint.RowsReadable (types : List VarType) (indexer : VarIndexer)
    (ec : EvaluatedConstraint) : Prop :=
  if ec.bilinearTerms.isEmpty && ec.quadraticGroups.isEmpty then
    ∀ rows, builtConstraintRows types indexer ec = .ok rows → ∀ c ∈ rows, c.ConstantClear
  else
    ¬ (ec.comparisonType = .lt ∨ ec.comparisonType = .gt) ∧
      ∀ rows ∈ constraintInstances ec indexer.numRows, ∀ c,
        outsideExcess indexer ec.lhsTerms rows c = 0

/-- The columns of a model built from an input. -/
theorem assembled_columns_iff {layout : ColumnLayout} {indexer : VarIndexer}
    {rows : List ModelConstraint} {quads : List QuadraticConstraint} :
    (∀ c (b : BuiltColumn),
      (assembleModel layout indexer s obj sense rows quads).colLower[c]? = some b.lower →
      (assembleModel layout indexer s obj sense rows quads).colUpper[c]? = some b.upper →
      (assembleModel layout indexer s obj sense rows quads).isInteger[c]? = some b.isInteger →
      (assembleModel layout indexer s obj sense rows quads).isBinary[c]? = some b.isBinary →
        b.Admits (a c)) ↔ InBuiltBoxes s layout a := by
  rw [← columns_admit_iff]
  refine forall₂_congr fun c b => ?_
  show ((buildColumns layout s).map (·.lower))[c]? = _ → ((buildColumns layout s).map (·.upper))[c]? = _ →
    ((buildColumns layout s).map (·.isInteger))[c]? = _ →
    ((buildColumns layout s).map (·.isBinary))[c]? = _ → _ ↔ _
  simp only [List.getElem?_map]
  cases hcolumn : (buildColumns layout s)[c]? with
  | none => simp
  | some d =>
    simp only [Option.map_some, Option.some.injEq]
    constructor
    · rintro h rfl
      exact h rfl rfl rfl rfl
    · intro h hlower hupper hinteger hbinary
      refine h ?_
      cases b
      cases d
      simp_all

/-- A row over flat columns is taken as it is. -/
theorem appendRawConstraint_holds (r : RawConstraint) : (appendRawConstraint r).Holds a ↔ r.Holds a := by
  unfold appendRawConstraint ModelConstraint.Holds Row.Holds
  cases r.sense with
  | le => exact Bound.fin_le_fin _ _
  | ge => exact Bound.fin_le_fin _ _
  | eq => exact ⟨Bound.fin.inj, congrArg Bound.fin⟩

/-- Decisions in their columns are integers where their type says so. -/
theorem integerDecisions_of_columns {terms : List LhsTerm}
    (hterms : TermsBelow ctx.layout.numVars terms) (ha : InDecisionColumns s ctx.layout a) :
    IntegerDecisions s.variableTypes ctx.indexer terms a := by
  intro t ht v hv htype r hr
  have hlt := hterms t ht v hv
  have hr : r < ctx.layout.numRows := hr
  rw [ctx.get_eq hlt hr]
  refine (ha v _ (ColumnLayout.get_eq_instanceColumn hlt hr).1).integral ?_
  exact decide_eq_true htype

/-- Decisions in their columns lie in their boxes. -/
theorem inBoxes_of_columns (hboxed : s.lowerBounds.length ≤ ctx.layout.numVars)
    (hn : s.numRows = ctx.layout.numRows) (ha : InDecisionColumns s ctx.layout a) :
    s.InBoxes ctx.indexer a := by
  intro v box hbox r hr
  rw [hn] at hr
  unfold SolverInput.variableBox at hbox
  split at hbox
  · rename_i lb ub hlb hub
    obtain rfl := Option.some.inj hbox
    have hlt : v < ctx.layout.numVars := (List.getElem?_eq_some_iff.mp hlb).1.trans_le hboxed
    have hadmits := ha v _ (ColumnLayout.get_eq_instanceColumn hlt hr).1
    rw [← ctx.get_eq hlt hr] at hadmits
    obtain ⟨hlo, hhi⟩ := builtVariableColumn_ends s v
    have hlower : (builtVariableColumn s v).lower = lb := by
      unfold builtVariableColumn
      rw [List.getD_eq_getElem?_getD, hlb]
      rfl
    have hupper : (builtVariableColumn s v).upper ≤ ub := by
      have hgetD : s.upperBounds.getD v openBound = ub := by
        rw [List.getD_eq_getElem?_getD, hub]
        rfl
      show min _ (s.upperBounds.getD v openBound) ≤ ub
      rw [hgetD]
      exact min_le_right _ _
    refine ⟨?_, ?_, fun hint => hadmits.integral hint⟩
    · have h := hadmits.lo_le
      rw [hlo, hlower] at h
      exact h
    · have h := hadmits.le_hi
      rw [hhi] at h
      exact h.imp hupper.trans' fun h => h.trans hupper
  · cases hbox

/-- The rows the builder makes of the constraints say what the constraints do. -/
theorem builtRows_hold_iff {rows : List (List ModelConstraint)} {quads : List (List QuadraticConstraint)}
    (hpos : 0 < ctx.indexer.numRows) (hreads : s.ReadsBelow ctx.layout.numVars)
    (hreadable : ∀ ec ∈ s.constraints, ec.RowsReadable s.variableTypes ctx.indexer)
    (hrows : s.constraints.mapM (builtConstraintRows s.variableTypes ctx.indexer) = .ok rows)
    (hquads : s.constraints.mapM (buildQuadraticConstraints s.variableTypes ctx.indexer) = .ok quads)
    (ha : InDecisionColumns s ctx.layout a) :
    ((∀ c ∈ rows.flatten.flatMap pushNormalizedConstraint, c.Holds a) ∧ ∀ qc ∈ quads.flatten, qc.Holds a) ↔
      ∀ ec ∈ s.constraints, ec.WrittenHolds ctx.indexer a := by
  have hlinear : (∀ c ∈ rows.flatten.flatMap pushNormalizedConstraint, c.Holds a) ↔
      ∀ ec ∈ s.constraints, (ec.bilinearTerms.isEmpty && ec.quadraticGroups.isEmpty) = true →
        ec.WrittenHolds ctx.indexer a := by
    rw [List.forall_mem_flatMap]
    have hclear : ∀ c ∈ rows.flatten, c.ConstantClear := by
      intro c hc
      obtain ⟨rs, hrs, hc⟩ := List.mem_flatten.mp hc
      obtain ⟨ec, hec, hok⟩ := Relational.exists_of_mem_mapM hrows hrs
      have hread := hreadable ec hec
      unfold EvaluatedConstraint.RowsReadable at hread
      split at hread
      · exact hread rs hok c hc
      · rename_i hquad
        unfold builtConstraintRows at hok
        dsimp only at hok
        rw [if_pos (by simpa [Bool.and_eq_true, Classical.or_iff_not_imp_left] using hquad)] at hok
        obtain rfl := Except.ok.inj hok
        cases hc
    have hkept : (∀ c ∈ rows.flatten, ∀ m ∈ pushNormalizedConstraint c, m.Holds a) ↔
        ∀ c ∈ rows.flatten, c.Holds a :=
      forall₂_congr fun c hc => pushNormalized_holds_iff (hclear c hc)
    rw [hkept, List.forall_mem_flatten]
    refine (Relational.forall_mem_iff_of_mapM_mem hrows fun ec hec rs hok => ?_).symm
    by_cases hempty : (ec.bilinearTerms.isEmpty && ec.quadraticGroups.isEmpty) = true
    · rw [forall_prop_of_true hempty]
      simp only [Bool.and_eq_true, List.isEmpty_iff] at hempty
      exact (builtConstraintRows_hold_iff hpos hempty
        (integerDecisions_of_columns (hreads ec hec) ha) hok).symm
    · unfold builtConstraintRows at hok
      dsimp only at hok
      rw [if_pos (by simpa [Bool.and_eq_true, Classical.or_iff_not_imp_left] using hempty)] at hok
      obtain rfl := Except.ok.inj hok
      exact iff_of_true (fun h => absurd h hempty) fun c hc => absurd hc List.not_mem_nil
  have hquadratic : (∀ qc ∈ quads.flatten, qc.Holds a) ↔
      ∀ ec ∈ s.constraints, ¬ (ec.bilinearTerms.isEmpty && ec.quadraticGroups.isEmpty) = true →
        ec.WrittenHolds ctx.indexer a := by
    rw [List.forall_mem_flatten]
    refine (Relational.forall_mem_iff_of_mapM_mem hquads fun ec hec qs hok => ?_).symm
    by_cases hempty : (ec.bilinearTerms.isEmpty && ec.quadraticGroups.isEmpty) = true
    · unfold buildQuadraticConstraints at hok
      rw [if_pos hempty] at hok
      obtain rfl := Except.ok.inj hok
      exact iff_of_true (fun h => absurd hempty h) fun c hc => absurd hc List.not_mem_nil
    · rw [forall_prop_of_true hempty]
      have hread := hreadable ec hec
      unfold EvaluatedConstraint.RowsReadable at hread
      rw [if_neg hempty] at hread
      exact (buildQuadraticConstraints_hold_iff (by simpa using hempty) hread.1 hread.2 hok).symm
  rw [hlinear, hquadratic, ← forall₂_and]
  refine forall₂_congr fun ec _ => ?_
  by_cases hempty : (ec.bilinearTerms.isEmpty && ec.quadraticGroups.isEmpty) = true
  · exact ⟨fun h => h.1 hempty, fun h => ⟨fun _ => h, fun _ => h⟩⟩
  · exact ⟨fun h => h.2 hempty, fun h => ⟨fun _ => h, fun _ => h⟩⟩

/-- **What a model accepts is what its input does.** -/
theorem model_admits_iff {tolerate : Bool} (hpos : 0 < ctx.indexer.numRows)
    (hreads : s.ReadsBelow ctx.layout.numVars) (hbinary : BinaryGlobals s)
    (hboxed : s.lowerBounds.length ≤ ctx.layout.numVars) (hn : s.numRows = ctx.layout.numRows)
    (hplain : ∀ ec ∈ s.constraints, ec.neClauseIdx = none ∧ ec.minmaxAggType = none)
    (hreadable : ∀ ec ∈ s.constraints, ec.RowsReadable s.variableTypes ctx.indexer)
    (hok : buildModel ctx.layout ctx.indexer s obj sense tolerate = .ok model) (a : Nat → ℚ) :
    model.Admits a ↔ s.Holds ctx.indexer a ∧ s.AsksOfDecisions ctx a := by
  obtain ⟨rows, quads, hrows, hquads, rfl, -⟩ := buildModel_parts hok
  have hasks : (∀ ec ∈ s.constraints, ec.Asks ctx.indexer a) ↔
      ∀ ec ∈ s.constraints, ec.WrittenHolds ctx.indexer a := by
    refine forall₂_congr fun ec hec => ?_
    unfold EvaluatedConstraint.Asks
    rw [(hplain ec hec).1, (hplain ec hec).2]
    rfl
  have hraw : (∀ c ∈ s.globalConstraints.map appendRawConstraint, c.Holds a) ↔
      ∀ r ∈ s.globalConstraints, r.Holds a := by
    rw [List.forall_mem_map]
    exact forall₂_congr fun r _ => appendRawConstraint_holds r
  constructor
  · intro h
    have hboxes := assembled_columns_iff.mp h.columns
    obtain ⟨hkept, hblock⟩ := List.forall_mem_append.mp h.linear
    have hwritten := (builtRows_hold_iff hpos hreads hreadable hrows hquads hboxes.decisions).mp
      ⟨hkept, h.quadratic⟩
    exact ⟨⟨inBoxes_of_columns hboxed hn hboxes.decisions, fun i box hbox =>
      (builtGlobalColumn_admits_iff (hbinary box (List.mem_of_getElem? hbox)) _).mp
        (hboxes.globals i box hbox), hraw.mp hblock, h.general, h.indicator⟩,
      hboxes.decisions, hasks.mpr hwritten⟩
  · rintro ⟨h, hdecisions, hall⟩
    obtain ⟨hkept, hquad⟩ := (builtRows_hold_iff hpos hreads hreadable hrows hquads hdecisions).mpr
      (hasks.mp hall)
    exact ⟨assembled_columns_iff.mpr (inBuiltBoxes_of_holds hbinary h hdecisions),
      List.forall_mem_append.mpr ⟨hkept, hraw.mpr h.rows⟩, hquad, h.indicators, h.generals⟩

/-! ## The objective of the model -/

/-- Adding to one coefficient of a dense row. -/
theorem eval_zipIdx_modify (k : ℚ) (a : Nat → ℚ) : ∀ (coeffs : List ℚ) (i n : Nat), i < coeffs.length →
    Form.eval (((coeffs.modify i (· + k)).zipIdx n).map fun q => (q.2, q.1)) a =
      Form.eval ((coeffs.zipIdx n).map fun q => (q.2, q.1)) a + k * a (n + i) := by
  intro coeffs
  induction coeffs with
  | nil => exact fun i n hi => absurd hi (Nat.not_lt_zero i)
  | cons c coeffs ih =>
    intro i n hi
    cases i with
    | zero =>
      rw [List.modify_zero_cons]
      simp only [List.zipIdx_cons, List.map_cons, Form.eval_cons, Nat.add_zero]
      ring
    | succ i =>
      rw [List.modify_succ_cons]
      simp only [List.zipIdx_cons, List.map_cons, Form.eval_cons]
      rw [ih i (n + 1) (by simpa using hi), show n + 1 + i = n + (i + 1) by omega, add_assoc]

/-- The dense coefficients are worth the entries they were filled from. -/
theorem eval_foldl_modify (a : Nat → ℚ) (entries : Form Nat ℚ) : ∀ coeffs : List ℚ,
    (∀ e ∈ entries, e.1 < coeffs.length) →
    Form.eval ((entries.foldl (fun coeffs e => coeffs.modify e.1 (· + e.2)) coeffs).zipIdx.map
      fun q => (q.2, q.1)) a =
      Form.eval (coeffs.zipIdx.map fun q => (q.2, q.1)) a + entries.eval a := by
  induction entries with
  | nil =>
    intro coeffs _
    rw [List.foldl_nil, Form.eval_nil, add_zero]
  | cons e entries ih =>
    intro coeffs h
    rw [List.forall_mem_cons] at h
    rw [List.foldl_cons, ih _ (by rw [List.length_modify]; exact h.2), eval_zipIdx_modify _ _ _ _ _ h.1,
      Form.eval_cons, Nat.zero_add, add_assoc]

/-- An objective term lands on its variable's instance columns. -/
theorem objectiveTermEntries_lt {n v : Nat} {col : Nat → ℚ} {reduced : Bool}
    (hpos : 0 < ctx.indexer.numRows)
    (hget : ∀ v r, r < ctx.indexer.numRows → ctx.indexer.get v r < n) :
    ∀ e ∈ objectiveTermEntries ctx.indexer v col reduced, e.1 < n := by
  have hrange : ∀ e ∈ (List.range ctx.indexer.numRows).map fun r => (ctx.indexer.get v r, col r),
      e.1 < n := by
    intro e he
    obtain ⟨r, hr, rfl⟩ := List.mem_map.mp he
    exact hget v r (List.mem_range.mp hr)
  intro e he
  unfold objectiveTermEntries at he
  split at he
  · split at he
    · exact hrange e he
    · rw [List.mem_singleton.mp he]
      exact hget v 0 hpos
  · exact hrange e he

theorem buildLinear_lt {n : Nat} (hpos : 0 < ctx.indexer.numRows)
    (hn : ctx.indexer.globalBlockStart ≤ n) (hglobals : ∀ e ∈ obj.globalObjCoeffs, e.1 < n) :
    ∀ e ∈ obj.buildLinear ctx.indexer, e.1 < n := by
  have hget : ∀ v r, r < ctx.indexer.numRows → ctx.indexer.get v r < n := fun v r hr =>
    (ctx.indexer.get_lt v hr).trans_le hn
  intro e he
  rcases List.mem_append.mp he with he | he
  · rcases List.mem_append.mp he with he | he
    · exact hglobals e he
    · obtain ⟨q, -, he⟩ := List.mem_flatMap.mp he
      dsimp only at he
      split at he
      · exact objectiveTermEntries_lt hpos hget e he
      · cases he
  · obtain ⟨qg, -, he⟩ := List.mem_flatMap.mp he
    obtain ⟨r, hr, he⟩ := List.mem_flatMap.mp he
    split at he
    · obtain ⟨u, hu, rfl⟩ := List.mem_map.mp he
      obtain ⟨v, hv⟩ := mem_quadraticRowTerms hu
      dsimp only
      rw [hv]
      exact hget v r (List.mem_range.mp hr)
    · cases he

/-- **The objective of the model is the one of its input.** -/
theorem model_objectiveValue {tolerate : Bool} (hpos : 0 < ctx.indexer.numRows)
    (hglobals : ∀ e ∈ obj.globalObjCoeffs, e.1 < s.width ctx.indexer)
    (hok : buildModel ctx.layout ctx.indexer s obj sense tolerate = .ok model) (a : Nat → ℚ) :
    model.objectiveValue a = obj.value ctx.indexer a := by
  obtain ⟨rows, quads, -, -, rfl, -⟩ := buildModel_parts hok
  have hlt : ∀ e ∈ obj.buildLinear ctx.indexer, e.1 < s.width ctx.indexer :=
    buildLinear_lt hpos (Nat.le_add_right _ _) hglobals
  have hzero : ∀ (n k : Nat), Form.eval (((List.replicate n (0 : ℚ)).zipIdx k).map
      fun q => (q.2, q.1)) a = 0 := by
    intro n
    induction n with
    | zero => exact fun k => rfl
    | succ n ih =>
      intro k
      rw [List.replicate_succ]
      simp only [List.zipIdx_cons, List.map_cons, Form.eval_cons, ih, zero_mul, add_zero]
  unfold BuiltModel.objectiveValue QuadraticObjective.value
  congr 1
  refine (eval_foldl_modify a _ _ fun e he => ?_).trans ?_
  · rw [List.length_replicate]
    exact hlt e he
  · rw [hzero, zero_add]

end Decidb
