import Decidb.Formulation.FormulateModel

/-!
# The model the builder returns

`SolverModel::Build` lays the columns out, fills the objective, turns the evaluated constraints into
rows, and then appends what the passes emitted over flat columns as it is. Only the rows it makes itself
are accumulated and checked for being without variables.
-/

namespace Decidb

open Linear

/-! ## The model -/

/-- `SolverModel`: what a backend is handed. Coefficients are finite numbers and a bound is one of those
or an infinity, so neither can be NaN. -/
structure BuiltModel where
  numVars : Nat
  colLower : List ℚ
  colUpper : List ℚ
  isInteger : List Bool
  isBinary : List Bool
  objCoeffs : List ℚ
  maximize : Bool
  hasQuadraticObj : Bool
  nonconvexQuadratic : Bool
  quadraticObjective : Form (Nat × Nat) ℚ
  constraints : List ModelConstraint
  quadraticConstraints : List QuadraticConstraint
  indicatorConstraints : List IndicatorConstraintSpec
  generalConstraints : List GeneralConstraintSpec
  buildProvenInfeasible : Bool

/-! ## Columns -/

/-- Every instance of every variable. -/
def variableInstances (layout : ColumnLayout) : List (Nat × Nat) :=
  (List.range layout.numVars).flatMap fun v => (List.range (layout.numInstances v)).map (v, ·)

/-- The columns of the model: every instance with its variable's configuration, every global with its
own. -/
def buildColumns (layout : ColumnLayout) (input : SolverInput) : List BuiltColumn :=
  let empty : BuiltColumn := ⟨0, 0, false, false⟩
  let columns := List.replicate (layout.globalBlockStart + input.globalColumns.length) empty
  let columns := (variableInstances layout).foldl
    (fun columns q => columns.set (layout.instanceColumn q.1 q.2) (builtVariableColumn input q.1))
    columns
  input.globalColumns.zipIdx.foldl
    (fun columns q => columns.set (layout.globalBlockStart + q.2) (builtGlobalColumn q.1)) columns

/-- The objective coefficient of every column. -/
def buildObjCoeffs (indexer : VarIndexer) (numVars : Nat) (obj : QuadraticObjective) : List ℚ :=
  (obj.buildLinear indexer).foldl (fun coeffs e => coeffs.modify e.1 (· + e.2))
    (List.replicate numVars 0)

/-- `IsNonconvexQuadraticObjective`. -/
def isNonconvexQuadraticObjective (quadraticSign : ℚ) (sense : DecideSense) : Bool :=
  decide (0 < quadraticSign) == decide (sense = .maximize)

/-! ## Rows -/

/-- The left-hand side of an aggregate over the rows of one group. -/
def builtAggregateForm (indexer : VarIndexer) (ec : EvaluatedConstraint) (rows : List Nat) :
    Form Nat ℚ :=
  match ec.rowGroupIds with
  | none => ungroupedAggregateRow indexer ec.lhsTerms
  | some _ => groupedAggregateRow indexer (indexer.globalBlockStart ≤ denseCap) ec.lhsTerms rows

/-- The row of an aggregate over the rows of one group, as its loop fills it. -/
def builtAggregateConstraint (indexer : VarIndexer) (integrality : LhsIntegrality)
    (ec : EvaluatedConstraint) (rows : List Nat) : Except String ModelConstraint :=
  match sumFixedAggregateLhsOffset ec.lhsTerms rows with
  | .error e => .error e
  | .ok offset =>
    applyComparisonSense (builtAggregateForm indexer ec rows) ec.comparisonType
      ((ec.rhsValues (rows.headD 0)).sub offset) integrality

/-- The rows of one linear constraint, before the ones without variables are looked at. -/
def builtConstraintRows (types : List VarType) (indexer : VarIndexer) (ec : EvaluatedConstraint) :
    Except String (List ModelConstraint) :=
  let integrality := isEvalConstraintLhsIntegerValued types indexer.numRows ec
  if !ec.bilinearTerms.isEmpty || !ec.quadraticGroups.isEmpty then .ok []
  else if ec.lhsIsAggregate then
    (aggregateGroups ec indexer.numRows).mapM (builtAggregateConstraint indexer integrality ec)
  else
    ((List.range indexer.numRows).filter fun r => (ec.groupOf r).isSome).mapM
      (perRowConstraint indexer integrality ec)

/-- A row over flat columns, taken as it is. -/
def appendRawConstraint (raw : RawConstraint) : ModelConstraint := ⟨raw.form, raw.sense, .fin raw.rhs⟩

/-! ## The checks -/

/-- The refusal of the last checks, if there is one: an inverted box, a row or an objective entry past
the last column. -/
def sanityRefusal (model : BuiltModel) (tolerateInfeasibleBounds : Bool) : Option String :=
  let inverted := (model.colLower.zip model.colUpper).any fun b => b.2 < b.1
  if inverted && !tolerateInfeasibleBounds then
    some ("DECIDE optimization is infeasible: a decision variable has conflicting lower and upper " ++
      "bounds.")
  else
    let rowRefusal := model.constraints.zipIdx.findSome? fun q =>
      (q.1.form.find? fun e => model.numVars ≤ e.1).map fun e =>
        "Constraint " ++ toString q.2 ++ ": variable index " ++ toString e.1 ++
          " out of range (>= " ++ toString model.numVars ++ ")"
    match rowRefusal with
    | some message => some message
    | none =>
      model.quadraticObjective.zipIdx.findSome? fun q =>
        let entry := "Q matrix entry " ++ toString q.2
        let place := "row=" ++ toString q.1.1.1 ++ ", col=" ++ toString q.1.1.2
        if model.numVars ≤ q.1.1.1 ∨ model.numVars ≤ q.1.1.2 then
          some (entry ++ ": index out of range (" ++ place ++ ", total_vars=" ++
            toString model.numVars ++ ")")
        else if q.1.1.1 < q.1.1.2 then
          some (entry ++ ": not lower triangle (row=" ++ toString q.1.1.1 ++ " < col=" ++
            toString q.1.1.2 ++ ")")
        else none

/-! ## Build -/

/-- The model before its checks, from the rows of its constraints. -/
def assembleModel (layout : ColumnLayout) (indexer : VarIndexer) (input : SolverInput)
    (obj : QuadraticObjective) (sense : DecideSense) (rows : List ModelConstraint)
    (quadraticConstraints : List QuadraticConstraint) : BuiltModel :=
  let columns := buildColumns layout input
  let numVars := input.width indexer
  let kept := rows.flatMap pushNormalizedConstraint
  { numVars
    colLower := columns.map (·.lower)
    colUpper := columns.map (·.upper)
    isInteger := columns.map (·.isInteger)
    isBinary := columns.map (·.isBinary)
    objCoeffs := buildObjCoeffs indexer numVars obj
    maximize := sense = .maximize
    hasQuadraticObj := !obj.powerGroups.isEmpty || !obj.bilinearObjectiveTerms.isEmpty
    nonconvexQuadratic := !obj.bilinearObjectiveTerms.isEmpty ||
      (!obj.powerGroups.isEmpty && isNonconvexQuadraticObjective obj.quadraticSign sense)
    quadraticObjective := obj.buildQuad indexer
    constraints := kept ++ input.globalConstraints.map appendRawConstraint
    quadraticConstraints
    indicatorConstraints := input.indicatorConstraints
    generalConstraints := input.generalConstraints
    -- a row without variables that is kept is violated
    buildProvenInfeasible := kept.any fun c => c.form.isEmpty }

/-- `SolverModel::Build`. -/
def buildModel (layout : ColumnLayout) (indexer : VarIndexer) (input : SolverInput)
    (obj : QuadraticObjective) (sense : DecideSense) (tolerateInfeasibleBounds : Bool) :
    Except String BuiltModel :=
  match input.constraints.mapM (builtConstraintRows input.variableTypes indexer) with
  | .error e => .error e
  | .ok rows =>
    match input.constraints.mapM (buildQuadraticConstraints input.variableTypes indexer) with
    | .error e => .error e
    | .ok quadratics =>
      let model := assembleModel layout indexer input obj sense rows.flatten quadratics.flatten
      match sanityRefusal model tolerateInfeasibleBounds with
      | some message => .error message
      | none => .ok model

/-- The formulation and the build after it. -/
def formulateAndBuild (ctx : FormulationContext) (evaluated : EvaluatedClauses) (s : FormulationState)
    (sense : DecideSense) (tolerateInfeasibleBounds : Bool) : Except String BuiltModel :=
  match formulateModel ctx evaluated s with
  | .error e => .error e
  | .ok t => buildModel ctx.layout ctx.indexer t.input t.objective sense tolerateInfeasibleBounds

/-! ## What a model accepts -/

/-- An assignment a backend accepts for the model. -/
structure BuiltModel.Admits (model : BuiltModel) (a : Nat → ℚ) : Prop where
  columns : ∀ c (b : BuiltColumn), model.colLower[c]? = some b.lower →
    model.colUpper[c]? = some b.upper → model.isInteger[c]? = some b.isInteger →
    model.isBinary[c]? = some b.isBinary → b.Admits (a c)
  linear : ∀ c ∈ model.constraints, c.Holds a
  quadratic : ∀ c ∈ model.quadraticConstraints, c.Holds a
  indicator : ∀ ic ∈ model.indicatorConstraints, ic.Holds a
  general : ∀ gc ∈ model.generalConstraints, gc.Holds a

/-- The value of the objective of the model. -/
def BuiltModel.objectiveValue (model : BuiltModel) (a : Nat → ℚ) : ℚ :=
  Form.eval (model.objCoeffs.zipIdx.map fun q => (q.2, q.1)) a +
    model.quadraticObjective.eval fun p => a p.1 * a p.2

/-! ## Well-formed models -/

/-- The entries of a row: columns of the model, each listed once. -/
structure EntriesOk (numVars : Nat) (form : Form Nat ℚ) : Prop where
  lt : ∀ e ∈ form, e.1 < numVars
  nodup : (form.map (·.1)).Nodup

/-- The entries of a quadratic part: pairs of columns of the model, the larger one first, each pair
listed once. -/
structure QEntriesOk (numVars : Nat) (quad : Form (Nat × Nat) ℚ) : Prop where
  lt : ∀ e ∈ quad, e.1.1 < numVars
  lower : ∀ e ∈ quad, e.1.2 ≤ e.1.1
  nodup : (quad.map (·.1)).Nodup

/-- A row without variables is violated, whatever the assignment. -/
def ModelConstraint.IsViolatedConstant (c : ModelConstraint) : Prop := ∀ a, ¬ c.Holds a

/-- The structural invariant of a model. -/
structure BuiltModel.WellFormed (model : BuiltModel) : Prop where
  colLower_length : model.colLower.length = model.numVars
  colUpper_length : model.colUpper.length = model.numVars
  isInteger_length : model.isInteger.length = model.numVars
  isBinary_length : model.isBinary.length = model.numVars
  objCoeffs_length : model.objCoeffs.length = model.numVars
  objective : QEntriesOk model.numVars model.quadraticObjective
  linear : ∀ c ∈ model.constraints, EntriesOk model.numVars c.form
  quadratic : ∀ c ∈ model.quadraticConstraints,
    EntriesOk model.numVars c.linear ∧ QEntriesOk model.numVars c.quad
  /-- The column of the condition counts among those of its row. -/
  indicator : ∀ ic ∈ model.indicatorConstraints,
    EntriesOk model.numVars ((ic.binaryColumn, 1) :: ic.row.form)
  /-- The result column counts among the arguments. -/
  general : ∀ gc ∈ model.generalConstraints,
    EntriesOk model.numVars ((gc.resultColumn :: gc.argumentColumns).map (·, 1))
  constant : ∀ c ∈ model.constraints, c.form = [] →
    c.IsViolatedConstant ∧ model.buildProvenInfeasible = true

end Decidb
