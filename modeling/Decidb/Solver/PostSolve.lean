import Decidb.Solver.SolverModel

/-!
# What happens to an answer

After a solve `SolveModel` resolves an `INF_OR_UNBD` by a second solve without the objective, takes an
optimum at the integer ceiling for an unbounded query, and looks for the direction in which an unbounded
model escapes.
-/

namespace Decidb

open Linear

variable {K : Type*} [Field K] [LinearOrder K]

/-- `INTEGER_SOLVER_CEILING`. -/
def integerSolverCeiling : K := 2 * 10 ^ 9

/-- `DIAGNOSTIC_RAY_EPSILON`. -/
def diagnosticRayEpsilon : K := 1 / 10 ^ 8

/-! ## Probe models -/

/-- `MakeZeroObjectiveProbeModel`. -/
def makeZeroObjectiveProbeModel (model : SolverModel K) : SolverModel K :=
  { model with
    columns := model.columns.map fun column => { column with objCoeff := 0 }
    quadraticObjective := []
    hasQuadraticObj := false }

/-- The model is nothing but columns and linear rows. -/
def SolverModel.isLinear (model : SolverModel K) : Bool :=
  !model.hasQuadraticObj && model.quadraticConstraints.isEmpty &&
    model.generalConstraints.isEmpty && model.indicatorConstraints.isEmpty

/-- The homogeneous model of `BuildUnboundedRayFallbackModel`. -/
def rayFallbackModel (model : SolverModel K) : SolverModel K where
  columns := model.columns.map fun column =>
    { lower := 0
      upper := if column.openAbove then 1 else 0
      objCoeff := if model.maximize then column.objCoeff else -column.objCoeff }
  constraints := model.constraints.map fun row =>
    { form := row.form, sense := row.sense, rhs := .fin 0 }
  maximize := true

/-- `BuildUnboundedRayFallbackModel`: a model with anything that is not a linear row is declined. -/
def buildUnboundedRayFallbackModel (model : SolverModel K) : Option (SolverModel K) :=
  if model.isLinear then some (rayFallbackModel model) else none

/-! ## The passes -/

/-- `DisambiguateInfOrUnbd`. -/
def disambiguateInfOrUnbd (diagnosticSolve : SolverModel K → SolverResult K)
    (model : SolverModel K) (original : SolverResult K) : SolverResult K :=
  if original.status ≠ .infOrUnbd then original
  else
    let probe := diagnosticSolve (makeZeroObjectiveProbeModel model)
    match probe.status with
    | .timeLimit => { original with diagnosticTimedOut := true }
    | .optimal => { original with status := .unbounded }
    | .infeasible => { original with status := .infeasible }
    | _ => original

/-- A value of a column that was declared open and sits at the integer ceiling. -/
def SolverColumn.atIntegerCeiling (column : SolverColumn K) (value : K) : Bool :=
  column.isInteger && !column.isBinary &&
    ((column.openAbove && decide (integerSolverCeiling ≤ value)) ||
      (column.openBelow && decide (value ≤ -integerSolverCeiling)))

/-- The first column at the integer ceiling. -/
def integerCeilingColumn (model : SolverModel K) (solution : List K) : Option Nat :=
  ((model.columns.zip solution).zipIdx.find? fun p => p.1.1.atIntegerCeiling p.1.2).map (·.2)

/-- The unit direction of one column. -/
def unitRay (model : SolverModel K) (col : Nat) : List K :=
  let upward := (model.columns[col]?.map (·.openAbove)).getD false
  (List.range model.numVars).map fun i => if i = col then if upward then 1 else -1 else 0

/-- `RejectIntegerCeilingOptimum`. -/
def rejectIntegerCeilingOptimum (model : SolverModel K) (result : SolverResult K) :
    SolverResult K :=
  if result.status ≠ .optimal then result
  else
    match integerCeilingColumn model result.solution with
    | none => result
    | some col =>
      { result with
        status := .unbounded, solution := [], objectiveValue := 0, ray := unitRay model col }

/-- `ComputeLinearObjectiveValue`. -/
def computeLinearObjectiveValue (model : SolverModel K) (solution : List K) : K :=
  if solution.length ≠ model.numVars then 0 else model.objective.eval (point solution)

/-- `AttachUnboundedRayIfRequested`. -/
def attachUnboundedRayIfRequested (requested : Bool)
    (diagnosticSolve : SolverModel K → SolverResult K) (model : SolverModel K)
    (result : SolverResult K) : SolverResult K :=
  if !requested || (result.status ≠ .unbounded && result.status ≠ .infOrUnbd) then result
  else if result.ray ≠ [] then result
  else
    match buildUnboundedRayFallbackModel model with
    | none => result
    | some rayModel =>
      let rayResult := diagnosticSolve rayModel
      if rayResult.status = .timeLimit then { result with diagnosticTimedOut := true }
      else if rayResult.status ≠ .optimal || rayResult.solution.length ≠ model.numVars then result
      else if diagnosticRayEpsilon < computeLinearObjectiveValue rayModel rayResult.solution then
        { result with ray := rayResult.solution }
      else result

/-- The answer `SolveModel` gives for a model its session has solved. -/
def postSolve (requested : Bool) (session diagnosticSolve : SolverModel K → SolverResult K)
    (model : SolverModel K) : SolverResult K :=
  let result := disambiguateInfOrUnbd diagnosticSolve model (session model)
  let result := rejectIntegerCeilingOptimum model result
  attachUnboundedRayIfRequested requested diagnosticSolve model result

/-! ## What an answer promises -/

/-- An optimum with an open integer column at the ceiling. -/
def SolverModel.AtIntegerCeiling (model : SolverModel K) (result : SolverResult K) : Prop :=
  result.status = .optimal ∧ ∃ i : Nat, ∃ column : SolverColumn K, ∃ value : K,
    model.columns[i]? = some column ∧ result.solution[i]? = some value ∧
      column.atIntegerCeiling value = true

/-- Following a direction leaves no box and breaks no row, and every step of it improves the
objective. -/
structure SolverModel.IsImprovingRay (model : SolverModel K) (d : Nat → K) : Prop where
  satisfied : ∀ x, model.Feasible x → ∀ t, 0 ≤ t → model.Satisfied fun i => x i + t * d i
  improves : ∀ x t, 0 < t →
    model.Better (model.objectiveValue fun i => x i + t * d i) (model.objectiveValue x)

/-- The verdict of unboundedness is true, an attached ray is real, and an unbounded linear model has
one attached. -/
structure UnboundedVerdictSound (requested : Bool)
    (session diagnosticSolve : SolverModel K → SolverResult K) (model : SolverModel K) : Prop where
  isUnbounded : (postSolve requested session diagnosticSolve model).status = .unbounded →
    model.IsUnbounded
  isImprovingRay : (postSolve requested session diagnosticSolve model).ray ≠ [] →
    model.IsImprovingRay (point (postSolve requested session diagnosticSolve model).ray)
  hasRay : requested = true → model.isLinear = true → model.IsUnbounded →
    (postSolve requested session diagnosticSolve model).ray ≠ []

/-- A direction with no negative component, along columns open above, that no row with its bound read
as zero excludes and that improves the objective by more than the noise threshold. -/
structure SolverModel.IsUpwardRay (model : SolverModel K) (d : Nat → K) : Prop where
  nonneg : ∀ i (column : SolverColumn K), model.columns[i]? = some column → 0 ≤ d i
  le_one : ∀ i (column : SolverColumn K), model.columns[i]? = some column → d i ≤ 1
  openAbove : ∀ i (column : SolverColumn K), model.columns[i]? = some column → d i ≠ 0 →
    column.openAbove = true
  constraints : ∀ row ∈ model.constraints, row.sense.Holds (row.form.eval d) 0
  gain : diagnosticRayEpsilon <
    if model.maximize then model.objective.eval d else -model.objective.eval d

end Decidb
