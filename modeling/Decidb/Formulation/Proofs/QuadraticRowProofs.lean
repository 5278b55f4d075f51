import Decidb.Linear.IntegerValued
import Decidb.Formulation.QuadraticRow
import Decidb.Formulation.Proofs.AggregateRowProofs

/-!
# What a row with squares and products says

The expanded row is worth the left-hand side as written, less the constants that moved into the bound;
and it is integer-valued exactly when the squares leave integral sums on every column and pair.
-/

namespace Decidb

open Linear

variable {indexer : VarIndexer} {ec : EvaluatedConstraint} {rows : List Nat} {a : Nat → ℚ}

/-! ## The value of the left-hand side -/

/-- The value of variable `v` at a row. -/
def rowAssignment (indexer : VarIndexer) (a : Nat → ℚ) (r : Nat) : Nat → ℚ :=
  fun v => a (indexer.get v r)

/-- The left-hand side over some rows: its linear terms, its products and its squares. -/
def quadraticLhsValue (indexer : VarIndexer) (ec : EvaluatedConstraint) (rows : List Nat)
    (a : Nat → ℚ) : ℚ :=
  (rows.map fun r => rowValue ec.lhsTerms r (rowAssignment indexer a r)).sum +
  (ec.bilinearTerms.map fun bt => (rows.map fun r =>
    bt.rowCoefficients r * (a (indexer.get bt.varA r) * a (indexer.get bt.varB r))).sum).sum +
  (ec.quadraticGroups.map fun qg => (rows.map fun r =>
    qg.sign * rowValue qg.innerTerms r (rowAssignment indexer a r) ^ 2).sum).sum

theorem Form.eval_map {ι K α : Type*} [Semiring K] (l : List α) (col : α → ι) (coef : α → K)
    (a : ι → K) :
    Form.eval (l.map fun x => (col x, coef x)) a = (l.map fun x => coef x * a (col x)).sum := by
  induction l with
  | nil => rfl
  | cons x l ih => rw [List.map_cons, Form.eval_cons, ih, List.map_cons, List.sum_cons]

theorem eval_quadraticLinearEntries (terms : List LhsTerm) :
    Form.eval (quadraticLinearEntries indexer terms rows) a =
      (rows.map fun r => rowVariablePart terms r (rowAssignment indexer a r)).sum := by
  induction terms with
  | nil => simp [quadraticLinearEntries, rowVariablePart]
  | cons t terms ih =>
    have hcons : quadraticLinearEntries indexer (t :: terms) rows =
        quadraticLinearEntries indexer [t] rows ++ quadraticLinearEntries indexer terms rows := by
      unfold quadraticLinearEntries
      rw [List.flatMap_cons, List.flatMap_singleton]
    simp only [hcons, rowVariablePart_cons, List.sum_map_add, Form.eval_append, ih]
    congr 1
    unfold quadraticLinearEntries
    rw [List.flatMap_singleton]
    cases hv : t.variableIndex with
    | none => simp [termContribution, hv]
    | some v =>
      dsimp only
      rw [Form.eval_map]
      simp only [termContribution, hv, rowAssignment]

/-- The columns of a squared group are worth its variable part. -/
theorem eval_quadraticRowTerms (qg : QuadraticGroup) (r : Nat) :
    Form.eval (quadraticRowTerms indexer qg r) a =
      rowVariablePart qg.innerTerms r (rowAssignment indexer a r) := by
  unfold quadraticRowTerms
  induction qg.innerTerms with
  | nil => simp [rowVariablePart]
  | cons t terms ih =>
    rw [rowVariablePart_cons, ← ih]
    by_cases hzero : t.rowCoefficients r = 0
    · cases hv : t.variableIndex <;> simp [hzero, termContribution, hv]
    · cases hv : t.variableIndex with
      | none => simp [hzero, hv, termContribution]
      | some v => simp [hzero, hv, termContribution, rowAssignment]

theorem packQKey_mul (a : Nat → ℚ) (c d : Nat) :
    a (packQKey c d).1 * a (packQKey c d).2 = a c * a d := by
  unfold packQKey
  rcases le_total c d with hle | hle
  · simp only [max_eq_right hle, min_eq_left hle, mul_comm]
  · simp only [max_eq_left hle, min_eq_right hle]

theorem eval_map_packQKey (terms : List (Nat × ℚ)) (d : Nat) (k : ℚ) :
    Form.eval (terms.map fun u => (packQKey u.1 d, k * u.2)) (fun p => a p.1 * a p.2) =
      k * a d * Form.eval terms a := by
  rw [Form.eval_map]
  induction terms with
  | nil => simp
  | cons u terms ih =>
    rw [List.map_cons, List.sum_cons, ih, packQKey_mul, Form.eval_cons]
    ring

/-- The entries of one column of an outer product, the factors in one order. -/
theorem outerProduct_cons (sign : ℚ) (t : Nat × ℚ) (terms : List (Nat × ℚ)) :
    outerProduct sign (t :: terms) = (packQKey t.1 t.1, sign * t.2 * t.2) ::
      (terms.map (fun u => (packQKey u.1 t.1, (sign * t.2 * 2) * u.2)) ++
        outerProduct sign terms) := by
  rw [outerProduct, List.cons_append]
  congr 3
  funext u
  congr 1
  ring

/-- The outer product is the square. -/
theorem eval_outerProduct (sign : ℚ) (terms : List (Nat × ℚ)) :
    Form.eval (outerProduct sign terms) (fun p => a p.1 * a p.2) =
      sign * Form.eval terms a ^ 2 := by
  induction terms with
  | nil => simp [outerProduct]
  | cons t terms ih =>
    rw [outerProduct_cons, Form.eval_cons, Form.eval_append, eval_map_packQKey, ih, packQKey_mul,
      Form.eval_cons]
    ring

/-- Merging keeps the value. -/
theorem eval_mergeQEntries (entries : Form (Nat × Nat) ℚ) (b : Nat × Nat → ℚ) :
    (mergeQEntries entries).eval b = Form.eval entries b := by
  have hfold : ∀ form : Form (Nat × Nat) ℚ,
      (entries.foldl (fun form e => Form.addColumn form e.1 e.2) form).eval b =
        form.eval b + Form.eval entries b := by
    induction entries with
    | nil => intro form; simp
    | cons e entries ih =>
      intro form
      rw [List.foldl_cons, ih, Form.eval_addColumn, Form.eval_cons]
      ring
  unfold mergeQEntries
  rw [Form.eval_filter_of_zero _ _ _ (by simp), hfold, Form.eval_nil, zero_add]

theorem eval_bilinearEntries (terms : List BilinearTerm) :
    Form.eval (bilinearEntries indexer terms rows) (fun p => a p.1 * a p.2) =
      (terms.map fun bt => (rows.map fun r => bt.rowCoefficients r *
        (a (indexer.get bt.varA r) * a (indexer.get bt.varB r))).sum).sum := by
  unfold bilinearEntries
  rw [Form.eval_flatMap]
  refine congrArg List.sum (List.map_congr_left fun bt _ => ?_)
  rw [Form.eval_map]
  induction rows with
  | nil => rfl
  | cons r rows ih =>
    by_cases hzero : bt.rowCoefficients r = 0
    · simpa [hzero] using ih
    · rw [List.filter_cons_of_pos (by simpa using hzero), List.map_cons, List.sum_cons, ih,
        List.map_cons, List.sum_cons, packQKey_mul]

/-- The constant of a squared group is the constant part of its row. -/
theorem quadraticRowConstant_eq (qg : QuadraticGroup) (r : Nat) :
    quadraticRowConstant qg r = decideRowFixedLhsOffset qg.innerTerms r := rfl

theorem eval_quadraticCrossEntries (groups : List QuadraticGroup) :
    Form.eval (quadraticCrossEntries indexer groups rows) a =
      (groups.map fun qg => (rows.map fun r => qg.sign * 2 * quadraticRowConstant qg r *
        rowVariablePart qg.innerTerms r (rowAssignment indexer a r)).sum).sum := by
  unfold quadraticCrossEntries
  rw [Form.eval_flatMap]
  refine congrArg List.sum (List.map_congr_left fun qg _ => ?_)
  rw [Form.eval_flatMap]
  refine congrArg List.sum (List.map_congr_left fun r _ => ?_)
  by_cases hzero : quadraticRowConstant qg r = 0
  · simp [hzero]
  · rw [if_pos hzero, Form.eval_map, ← eval_quadraticRowTerms]
    induction quadraticRowTerms indexer qg r with
    | nil => simp
    | cons t terms ih =>
      rw [List.map_cons, List.sum_cons, ih, Form.eval_cons]
      ring

/-- The constants of the linear terms, row by row. -/
theorem sum_fixedLhsOffset (terms : List LhsTerm) :
    ((terms.filter fun t => t.variableIndex.isNone).map fun t =>
      (rows.map t.rowCoefficients).sum).sum =
        (rows.map fun r => decideRowFixedLhsOffset terms r).sum := by
  unfold decideRowFixedLhsOffset
  induction terms.filter fun t => t.variableIndex.isNone with
  | nil => simp
  | cons t terms ih =>
    simp only [List.map_cons, List.sum_cons, List.sum_map_add, ih]

/-- **The expanded row is worth the left-hand side less its folded constants.** -/
theorem quadraticRow_value :
    (quadraticLinearPart indexer ec rows).eval a +
      (mergeQEntries (quadraticEntries indexer ec rows)).eval (fun p => a p.1 * a p.2) =
        quadraticLhsValue indexer ec rows a - quadraticRhsAdjustment ec rows := by
  have hsquares : (ec.quadraticGroups.map fun qg => (rows.map fun r =>
      qg.sign * rowValue qg.innerTerms r (rowAssignment indexer a r) ^ 2).sum).sum =
      (ec.quadraticGroups.map fun qg => (rows.map fun r => qg.sign * 2 *
        quadraticRowConstant qg r * rowVariablePart qg.innerTerms r
          (rowAssignment indexer a r)).sum).sum +
      (ec.quadraticGroups.map fun qg => (rows.map fun r => qg.sign *
        rowVariablePart qg.innerTerms r (rowAssignment indexer a r) ^ 2).sum).sum +
      (ec.quadraticGroups.map fun qg => (rows.map fun r =>
        qg.sign * quadraticRowConstant qg r * quadraticRowConstant qg r).sum).sum := by
    rw [← List.sum_map_add, ← List.sum_map_add]
    refine congrArg List.sum (List.map_congr_left fun qg _ => ?_)
    rw [← List.sum_map_add, ← List.sum_map_add]
    refine congrArg List.sum (List.map_congr_left fun r _ => ?_)
    rw [rowValue, ← quadraticRowConstant_eq]
    ring
  have hlinear : (rows.map fun r => rowValue ec.lhsTerms r (rowAssignment indexer a r)).sum =
      (rows.map fun r => rowVariablePart ec.lhsTerms r (rowAssignment indexer a r)).sum +
        (rows.map fun r => decideRowFixedLhsOffset ec.lhsTerms r).sum := by
    rw [← List.sum_map_add]
    rfl
  have houter : Form.eval (ec.quadraticGroups.flatMap fun qg => rows.flatMap fun r =>
      outerProduct qg.sign (quadraticRowTerms indexer qg r)) (fun p => a p.1 * a p.2) =
        (ec.quadraticGroups.map fun qg => (rows.map fun r => qg.sign *
          rowVariablePart qg.innerTerms r (rowAssignment indexer a r) ^ 2).sum).sum := by
    rw [Form.eval_flatMap]
    refine congrArg List.sum (List.map_congr_left fun qg _ => ?_)
    rw [Form.eval_flatMap]
    refine congrArg List.sum (List.map_congr_left fun r _ => ?_)
    rw [eval_outerProduct, eval_quadraticRowTerms]
  rw [quadraticLinearPart, eval_mergeEntries, eval_mergeQEntries, quadraticEntries,
    Form.eval_append, Form.eval_append, eval_quadraticLinearEntries, eval_quadraticCrossEntries,
    eval_bilinearEntries, houter, quadraticLhsValue, quadraticRhsAdjustment, sum_fixedLhsOffset,
    hsquares, hlinear]
  ring

/-! ## What is written -/

/-- The linear terms as written: a query-wide decision beside a reducer counts once, everything else
once for every row. -/
def writtenLinearValue (indexer : VarIndexer) (terms : List LhsTerm) (rows : List Nat)
    (a : Nat → ℚ) : ℚ :=
  (terms.map fun t => match t.variableIndex with
    | none => (rows.map t.rowCoefficients).sum
    | some v =>
      if entersOnce indexer t v then
        t.rowCoefficients (rows.headD 0) * a (indexer.get v (rows.headD 0))
      else (rows.map fun r => t.rowCoefficients r * a (indexer.get v r)).sum).sum

/-- The products and the squares as written. -/
def writtenQuadraticValue (indexer : VarIndexer) (products : List BilinearTerm)
    (groups : List QuadraticGroup) (rows : List Nat) (a : Nat → ℚ) : ℚ :=
  (products.map fun bt => (rows.map fun r =>
    bt.rowCoefficients r * (a (indexer.get bt.varA r) * a (indexer.get bt.varB r))).sum).sum +
  (groups.map fun qg => (rows.map fun r =>
    qg.sign * rowValue qg.innerTerms r (rowAssignment indexer a r) ^ 2).sum).sum

/-- The left-hand side of a constraint as written, over the rows of one instance. -/
def writtenLhsValue (indexer : VarIndexer) (ec : EvaluatedConstraint) (rows : List Nat)
    (a : Nat → ℚ) : ℚ :=
  writtenLinearValue indexer ec.lhsTerms rows a +
    writtenQuadraticValue indexer ec.bilinearTerms ec.quadraticGroups rows a

/-- One linear term of an objective as written. -/
def writtenObjectiveTerm (indexer : VarIndexer) (v? : Option Nat) (col : Nat → ℚ) (isReduced : Bool)
    (a : Nat → ℚ) : ℚ :=
  writtenLinearValue indexer
    [⟨v?, col, if isReduced then .sum else .none, true⟩] (List.range indexer.numRows) a

/-- The objective as written. -/
def writtenObjectiveValue (indexer : VarIndexer) (obj : QuadraticObjective) (a : Nat → ℚ) : ℚ :=
  obj.globalObjCoeffs.eval a +
  (obj.objectiveVariableIndices.zipIdx.map fun (v?, termIdx) =>
    match obj.objectiveCoefficients[termIdx]? with
    | none => 0
    | some col => writtenObjectiveTerm indexer v? col
        (obj.objectiveTermReductions[termIdx]? = some .sum) a).sum +
  writtenQuadraticValue indexer obj.bilinearObjectiveTerms obj.powerGroups
    (List.range indexer.numRows) a

/-- What the query-wide decisions beside the reducers count too much. -/
def outsideExcessForm (indexer : VarIndexer) (terms : List LhsTerm) (rows : List Nat) :
    Form Nat ℚ :=
  terms.flatMap fun t => match t.variableIndex with
    | none => []
    | some v =>
      if entersOnce indexer t v then
        [(indexer.get v (rows.headD 0),
          (rows.map t.rowCoefficients).sum - t.rowCoefficients (rows.headD 0))]
      else []

theorem coefficient_outsideExcessForm (terms : List LhsTerm) (c : Nat) :
    Form.coefficient (outsideExcessForm indexer terms rows) c =
      outsideExcess indexer terms rows c := by
  unfold outsideExcessForm outsideExcess
  rw [Form.coefficient_flatMap]
  refine congrArg List.sum (List.map_congr_left fun t _ => ?_)
  cases t.variableIndex with
  | none => rfl
  | some v =>
    by_cases honce : entersOnce indexer t v = true
    · simp [honce, Form.coefficient_cons]
    · simp [honce]

/-- A query-wide decision has one column. -/
theorem get_eq_of_entersOnce {t : LhsTerm} {v : Nat} (honce : entersOnce indexer t v = true)
    (r r' : Nat) : indexer.get v r = indexer.get v r' := by
  unfold entersOnce at honce
  cases hs : indexer.varScope v with
  | row offset => rw [hs] at honce; cases honce
  | entity base rowToEntity => rw [hs] at honce; cases honce
  | scalar column => simp [VarIndexer.get, hs, DecideVarScope.column]

/-- Counting every linear term once for every row is off by the excess. -/
theorem sum_rowValue (terms : List LhsTerm) :
    (rows.map fun r => rowValue terms r (rowAssignment indexer a r)).sum =
      writtenLinearValue indexer terms rows a +
        (outsideExcessForm indexer terms rows).eval a := by
  induction terms with
  | nil => simp [rowValue_nil, writtenLinearValue, outsideExcessForm]
  | cons t terms ih =>
    have hwritten : writtenLinearValue indexer (t :: terms) rows a =
        writtenLinearValue indexer [t] rows a + writtenLinearValue indexer terms rows a := by
      simp [writtenLinearValue]
    have hexcess : outsideExcessForm indexer (t :: terms) rows =
        outsideExcessForm indexer [t] rows ++ outsideExcessForm indexer terms rows := by
      simp [outsideExcessForm]
    simp only [rowValue_cons, List.sum_map_add]
    rw [ih, hwritten, hexcess, Form.eval_append]
    have hterm : (rows.map fun r => termValue r (rowAssignment indexer a r) t).sum =
        writtenLinearValue indexer [t] rows a + (outsideExcessForm indexer [t] rows).eval a := by
      cases hv : t.variableIndex with
      | none => simp [writtenLinearValue, outsideExcessForm, termValue, hv]
      | some v =>
        by_cases honce : entersOnce indexer t v = true
        · have hcol : ∀ r, rowAssignment indexer a r v = a (indexer.get v (rows.headD 0)) :=
            fun r => congrArg a (get_eq_of_entersOnce honce r (rows.headD 0))
          simp only [termValue, hcol, List.sum_map_mul_right, writtenLinearValue, outsideExcessForm, hv, honce,
            List.map_cons, List.map_nil, List.sum_cons, List.sum_nil, List.flatMap_cons,
            List.flatMap_nil, List.append_nil, if_true, Form.eval_cons, Form.eval_nil]
          ring
        · simp [writtenLinearValue, outsideExcessForm, termValue, hv, honce, rowAssignment]
    rw [hterm]
    ring

theorem quadraticLhsValue_eq :
    quadraticLhsValue indexer ec rows a =
      writtenLhsValue indexer ec rows a + (outsideExcessForm indexer ec.lhsTerms rows).eval a := by
  rw [quadraticLhsValue, sum_rowValue, writtenLhsValue, writtenQuadraticValue]
  ring

/-- A form that is worth the same everywhere has no coefficients. -/
theorem Form.coefficient_eq_zero_of_const {f : Form Nat ℚ} {k : ℚ}
    (h : ∀ a, f.eval a = k) (c : Nat) : f.coefficient c = 0 := by
  have hone := h (Pi.single c 1)
  have hzero := h (Pi.single c 0)
  rw [Form.eval_single] at hone hzero
  linarith

/-! ## The rows of the model -/

/-- What a built row is made of. -/
theorem buildQuadraticConstraint_spec {integrality : LhsIntegrality} {rhs : Bound}
    {qc : QuadraticConstraint}
    (h : buildQuadraticConstraint indexer integrality ec rows rhs = .ok qc) :
    qc.linear = quadraticLinearPart indexer ec rows ∧
      qc.quad = mergeQEntries (quadraticEntries indexer ec rows) ∧
      qc.rhs = steppedBound ec.comparisonType (rhs.sub (quadraticRhsAdjustment ec rows)) := by
  unfold buildQuadraticConstraint at h
  cases hcmp : ec.comparisonType with
  | le | ge | eq =>
    simp only [hcmp, Except.ok.injEq] at h
    subst h
    exact ⟨rfl, rfl, rfl⟩
  | ne => simp [hcmp] at h
  | lt | gt =>
    simp only [hcmp] at h
    split at h
    · cases h
    · simp only [Except.ok.injEq] at h
      subst h
      exact ⟨rfl, rfl, rfl⟩

/-- Which constraints with squares or products the builder has rows for. -/
def EvaluatedConstraint.HasQuadraticRows (types : List VarType) (numRows : Nat)
    (ec : EvaluatedConstraint) : Prop :=
  (ec.bilinearTerms.isEmpty && ec.quadraticGroups.isEmpty) = false ∧ ec.comparisonType ≠ .ne ∧
    (ec.comparisonType = .lt ∨ ec.comparisonType = .gt →
      isEvalConstraintLhsIntegerValued types numRows ec = .integer)

/-- A row is built exactly for a comparison a model has, a strict one over integers. -/
theorem buildQuadraticConstraint_isOk {integrality : LhsIntegrality} {rhs : Bound} :
    (∃ qc, buildQuadraticConstraint indexer integrality ec rows rhs = .ok qc) ↔
      ec.comparisonType ≠ .ne ∧
        (ec.comparisonType = .lt ∨ ec.comparisonType = .gt → integrality = .integer) := by
  unfold buildQuadraticConstraint
  cases ec.comparisonType with
  | le | ge | eq | ne => simp
  | lt | gt => by_cases hint : integrality = .integer <;> simp [hint]

/-- The value of a built row against what is written. -/
theorem buildQuadraticConstraint_value {integrality : LhsIntegrality} {rhs : Bound}
    {qc : QuadraticConstraint}
    (h : buildQuadraticConstraint indexer integrality ec rows rhs = .ok qc) (a : Nat → ℚ) :
    qc.value a = writtenLhsValue indexer ec rows a +
      (outsideExcessForm indexer ec.lhsTerms rows).eval a - quadraticRhsAdjustment ec rows := by
  obtain ⟨hlinear, hquad, -⟩ := buildQuadraticConstraint_spec h
  rw [QuadraticConstraint.value, hlinear, hquad, quadraticRow_value, quadraticLhsValue_eq]

/-! ## The objective of the model -/

/-- The squared group of an objective, expanded and without its constant. -/
theorem eval_powerGroups (groups : List QuadraticGroup) :
    Form.eval (quadraticCrossEntries indexer groups rows) a +
      Form.eval (groups.flatMap fun qg => rows.flatMap fun r =>
        outerProduct qg.sign (quadraticRowTerms indexer qg r)) (fun p => a p.1 * a p.2) +
      (groups.map fun qg => (rows.map fun r =>
        qg.sign * quadraticRowConstant qg r * quadraticRowConstant qg r).sum).sum =
    (groups.map fun qg => (rows.map fun r =>
      qg.sign * rowValue qg.innerTerms r (rowAssignment indexer a r) ^ 2).sum).sum := by
  rw [eval_quadraticCrossEntries, Form.eval_flatMap, ← List.sum_map_add, ← List.sum_map_add]
  refine congrArg List.sum (List.map_congr_left fun qg _ => ?_)
  rw [Form.eval_flatMap, ← List.sum_map_add, ← List.sum_map_add]
  refine congrArg List.sum (List.map_congr_left fun r _ => ?_)
  rw [eval_outerProduct, eval_quadraticRowTerms, rowValue, quadraticRowConstant_eq]
  ring

/-- What the decision-free linear terms of an objective add up to. -/
def objectiveConstant (indexer : VarIndexer) (obj : LinearObjective) : ℚ :=
  (obj.objectiveVariableIndices.zipIdx.map fun (v?, termIdx) =>
    match v?, obj.objectiveCoefficients[termIdx]? with
    | none, some col => ((List.range indexer.numRows).map col).sum
    | _, _ => 0).sum

theorem eval_objectiveTermEntries (v : Nat) (col : Nat → ℚ) (isReduced : Bool) :
    (objectiveTermEntries indexer v col isReduced).eval a =
      writtenObjectiveTerm indexer (some v) col isReduced a := by
  unfold objectiveTermEntries writtenObjectiveTerm writtenLinearValue entersOnce
  cases hs : indexer.varScope v with
  | row offset | entity base rowToEntity => simp [Form.eval_map, hs]
  | scalar column =>
    cases isReduced with
    | true => simp [Form.eval_map, hs]
    | false =>
      have hget : ∀ r, indexer.get v r = column := fun r => by
        simp [VarIndexer.get, hs, DecideVarScope.column]
      cases indexer.numRows <;> simp [hs, hget, List.range_succ_eq_map]

theorem eval_buildLinearObjective (obj : LinearObjective) :
    (buildLinearObjective indexer obj).eval a = obj.globalObjCoeffs.eval a +
      (obj.objectiveVariableIndices.zipIdx.map fun (v?, termIdx) =>
        match obj.objectiveCoefficients[termIdx]? with
        | none => 0
        | some col => writtenObjectiveTerm indexer v? col
            (obj.objectiveTermReductions[termIdx]? = some .sum) a).sum -
      objectiveConstant indexer obj := by
  rw [buildLinearObjective, Form.eval_append, objectiveConstant, add_sub_assoc,
    Form.eval_flatMap]
  congr 1
  rw [eq_sub_iff_add_eq, ← List.sum_map_add]
  refine congrArg List.sum (List.map_congr_left ?_)
  rintro ⟨v?, termIdx⟩ -
  dsimp only
  generalize obj.objectiveCoefficients[termIdx]? = col?
  cases col? with
  | none => cases v? <;> simp
  | some col =>
    cases v? with
    | none => simp [writtenObjectiveTerm, writtenLinearValue]
    | some v => simp [eval_objectiveTermEntries]

/-- **The objective of the model is the objective as written less its constants.** -/
theorem quadraticObjective_value (obj : QuadraticObjective) :
    obj.value indexer a = writtenObjectiveValue indexer obj a -
      (objectiveConstant indexer obj.toLinearObjective +
        (obj.powerGroups.map fun qg => ((List.range indexer.numRows).map fun r =>
          qg.sign * quadraticRowConstant qg r * quadraticRowConstant qg r).sum).sum) := by
  rw [QuadraticObjective.value, QuadraticObjective.buildLinear, QuadraticObjective.buildQuad,
    eval_mergeQEntries, Form.eval_append, Form.eval_append, eval_bilinearEntries,
    eval_buildLinearObjective, writtenObjectiveValue, writtenQuadraticValue, ← eval_powerGroups]
  ring

/-! ## The quadratic model -/

/-- The quadratic model is what is written: the objective up to a constant, and every row with the
constant moved into its bound. -/
structure QuadraticModelWritten (types : List VarType) (indexer : VarIndexer)
    (obj : QuadraticObjective) (constraints : List EvaluatedConstraint) : Prop where
  objective : ∃ k, ∀ a, obj.value indexer a = writtenObjectiveValue indexer obj a - k
  rows : ∀ ec ∈ constraints, ec.HasQuadraticRows types indexer.numRows →
    ∀ rows ∈ constraintInstances ec indexer.numRows, ∃ qc k,
      buildQuadraticConstraint indexer (isEvalConstraintLhsIntegerValued types indexer.numRows ec)
        ec rows (ec.rhsValues (rows.headD 0)) = .ok qc ∧
      (∀ a, qc.value a = writtenLhsValue indexer ec rows a - k) ∧
      qc.rhs = steppedBound ec.comparisonType ((ec.rhsValues (rows.headD 0)).sub k)

/-- **The quadratic model is what is written exactly when, in every row built for a constraint with
squares or products, entering the query-wide decisions beside the reducers for every row of the group
gives each column no more than entering them once.** -/
theorem quadraticModel_written_iff (types : List VarType) (indexer : VarIndexer)
    (obj : QuadraticObjective) (constraints : List EvaluatedConstraint) :
    QuadraticModelWritten types indexer obj constraints ↔
      ∀ ec ∈ constraints, ec.HasQuadraticRows types indexer.numRows →
        ∀ rows ∈ constraintInstances ec indexer.numRows, ∀ c,
          outsideExcess indexer ec.lhsTerms rows c = 0 := by
  constructor
  · intro h ec hec hquad rows hrows c
    obtain ⟨qc, k, hqc, hvalue, -⟩ := h.rows ec hec hquad rows hrows
    rw [← coefficient_outsideExcessForm]
    refine Form.coefficient_eq_zero_of_const (k := quadraticRhsAdjustment ec rows - k)
      (fun a => ?_) c
    have hbuilt := buildQuadraticConstraint_value hqc a
    rw [hvalue a] at hbuilt
    linarith
  · intro h
    refine ⟨⟨_, fun a => quadraticObjective_value obj⟩, ?_⟩
    intro ec hec hquad rows hrows
    obtain ⟨qc, hqc⟩ := buildQuadraticConstraint_isOk.mpr hquad.2
    obtain ⟨-, -, hrhs⟩ := buildQuadraticConstraint_spec hqc
    refine ⟨qc, quadraticRhsAdjustment ec rows, hqc, fun a => ?_, hrhs⟩
    have hexcess : (outsideExcessForm indexer ec.lhsTerms rows).eval a = 0 := by
      rw [Form.eval_eq_sum_coefficient (s := (outsideExcessForm indexer ec.lhsTerms rows).toFinset.image
        Prod.fst) fun t ht => Finset.mem_image_of_mem _ (List.mem_toFinset.mpr ht)]
      refine Finset.sum_eq_zero fun c _ => ?_
      rw [coefficient_outsideExcessForm, h ec hec hquad rows hrows c, zero_mul]
    rw [buildQuadraticConstraint_value hqc, hexcess, add_zero]

/-- `SUM(POWER(x, 2)) + s <= 8`. -/
def sumSquaresPlusScalar : EvaluatedConstraint where
  lhsTerms := [{ variableIndex := some 1, rowCoefficients := fun _ => 1 }]
  rhsValues := fun _ => .fin 8
  comparisonType := .le
  lhsIsAggregate := true
  quadraticGroups := [⟨1, [{ variableIndex := some 0, rowCoefficients := fun _ => 1 }]⟩]

/-- **`SUM(POWER(x, 2)) + s <= 8` over two rows is built with `2 * s`.** -/
theorem sumSquaresPlusScalar_not_written :
    ¬ QuadraticModelWritten [.integer, .integer] rowsBesideScalar {} [sumSquaresPlusScalar] := by
  intro h
  have hquad : sumSquaresPlusScalar.HasQuadraticRows [.integer, .integer] 2 :=
    ⟨rfl, by decide, fun h => by rcases h with h | h <;> cases h⟩
  obtain ⟨qc, k, hqc, hvalue, -⟩ := h.rows _ (List.mem_singleton.mpr rfl) hquad [0, 1]
    (List.mem_singleton.mpr rfl)
  have hbuilt := buildQuadraticConstraint_value hqc
  have hzero := (hvalue (Pi.single 2 0)).symm.trans (hbuilt (Pi.single 2 0))
  have hone := (hvalue (Pi.single 2 1)).symm.trans (hbuilt (Pi.single 2 1))
  have hcoef : Form.coefficient (outsideExcessForm rowsBesideScalar sumSquaresPlusScalar.lhsTerms
      [0, 1]) 2 = 1 := by decide +kernel
  rw [Form.eval_single] at hzero hone
  rw [hcoef] at hzero hone
  linarith

end Decidb
