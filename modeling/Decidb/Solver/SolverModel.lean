import Decidb.Formulation.SolverInput

/-!
# The model a backend is handed

`SolverModel` is what the stages after the formulation work on: columns, linear and quadratic rows, the
constructs left to the backend, an objective, and for every row which clause it came from. Its numbers
are those of any ordered field. A column end whose magnitude reaches `effectiveInfinity` is open, and a
right-hand side may be one of the infinities.
-/

namespace Decidb

open Linear

/-! ## Where a row comes from -/

/-- What a row is to the user: a parameter of the query, part of the mechanism of a clause, or neither. -/
inductive ConstraintKind where
  | userParameter
  | userMechanism
  | structural
  deriving DecidableEq, Repr

/-- `IsRelaxableForElastic`. -/
def ConstraintKind.isRelaxableForElastic (kind : ConstraintKind) : Bool := kind = .userParameter

/-- Whether the rows of a clause share one editable bound. -/
inductive ElasticShape where
  | unset
  | perRowData
  | sharedScalar
  deriving DecidableEq, Repr

/-- The identities of a row. -/
structure ConstraintProvenance where
  sourceClauseId : Option Nat := none
  /-- What the elastic engine groups rows by. -/
  repairGroupId : Option Nat := none
  /-- What is dropped together. -/
  removalGroupId : Option Nat := none
  groupKey : Option Nat := none
  kind : ConstraintKind := .userParameter
  shape : ElasticShape := .unset
  deriving DecidableEq, Repr

/-! ## Columns and rows -/

section

variable (K : Type*)

/-- A column with its objective coefficient. -/
structure SolverColumn where
  lower : K
  upper : K
  isInteger : Bool := false
  isBinary : Bool := false
  objCoeff : K
  deriving DecidableEq

/-- A right-hand side: a number or one of the infinities. -/
abbrev SolverRhs := WithBot (WithTop K)

/-- A linear row. -/
structure SolverRow where
  form : Form Nat K
  sense : Sense
  rhs : SolverRhs K
  provenance : ConstraintProvenance := {}
  deriving DecidableEq

/-- A row with products of columns. -/
structure SolverQuadraticRow where
  linear : Form Nat K
  quad : Form (Nat × Nat) K
  sense : Sense
  rhs : SolverRhs K
  provenance : ConstraintProvenance := {}
  deriving DecidableEq

/-- A row that holds whenever `binaryColumn` has the value `binaryValue`. -/
structure SolverIndicator where
  binaryColumn : Nat
  binaryValue : K
  form : Form Nat K
  sense : Sense
  rhs : SolverRhs K
  provenance : ConstraintProvenance := {}
  deriving DecidableEq

/-- `resultColumn = ABS/MIN/MAX(argumentColumns)`. -/
structure SolverGeneral where
  kind : GeneralConstraintKind
  resultColumn : Nat
  argumentColumns : List Nat
  provenance : ConstraintProvenance := {}
  deriving DecidableEq

/-- The model. -/
structure SolverModel where
  columns : List (SolverColumn K)
  constraints : List (SolverRow K) := []
  quadraticConstraints : List (SolverQuadraticRow K) := []
  indicatorConstraints : List (SolverIndicator K) := []
  generalConstraints : List SolverGeneral := []
  /-- The coefficient of a product of columns in the objective. -/
  quadraticObjective : Form (Nat × Nat) K := []
  hasQuadraticObj : Bool := false
  maximize : Bool := false
  buildProvenInfeasible : Bool := false
  deriving DecidableEq

end

section

variable {K : Type*}

/-- A finite right-hand side. -/
def SolverRhs.fin (k : K) : SolverRhs K := ((k : WithTop K) : WithBot (WithTop K))

/-- `DConstants::INVALID_INDEX`. -/
def invalidIndex : Nat := 2 ^ 64 - 1

/-- How many columns a model has. -/
def SolverModel.numVars (model : SolverModel K) : Nat := model.columns.length

/-- The linear part of the objective. -/
def SolverModel.objective (model : SolverModel K) : Form Nat K :=
  model.columns.zipIdx.map fun p => (p.2, p.1.objCoeff)

/-- A solution vector as an assignment. -/
def point [Zero K] (solution : List K) : Nat → K := fun i => solution.getD i 0

end

/-! ## What a model asks -/

section

variable {K : Type*} [Field K] [LinearOrder K]

/-- `EFFECTIVE_INFINITY`. -/
def effectiveInfinity : K := 10 ^ 20

namespace SolverColumn

def openAbove (column : SolverColumn K) : Bool := effectiveInfinity ≤ column.upper

def openBelow (column : SolverColumn K) : Bool := column.lower ≤ -effectiveInfinity

/-- A value lies in the box of the column. -/
structure InBox (column : SolverColumn K) (x : K) : Prop where
  lower_le : column.openBelow = true ∨ column.lower ≤ x
  le_upper : column.openAbove = true ∨ x ≤ column.upper

/-- A value is one the kind of the column allows. -/
def Integral (column : SolverColumn K) (x : K) : Prop := column.isInteger = true → ∃ n : ℤ, x = n

end SolverColumn

/-- A value meets a row's bound. -/
def MeetsRhs (sense : Sense) (value : K) (rhs : SolverRhs K) : Prop := sense.Holds (.fin value) rhs

instance (sense : Sense) (value : K) (rhs : SolverRhs K) : Decidable (MeetsRhs sense value rhs) :=
  inferInstanceAs (Decidable (sense.Holds _ _))

def SolverRow.Holds (row : SolverRow K) (x : Nat → K) : Prop :=
  MeetsRhs row.sense (row.form.eval x) row.rhs

/-- The value of a left-hand side with products. -/
def SolverQuadraticRow.value (row : SolverQuadraticRow K) (x : Nat → K) : K :=
  row.linear.eval x + row.quad.eval fun p => x p.1 * x p.2

def SolverQuadraticRow.Holds (row : SolverQuadraticRow K) (x : Nat → K) : Prop :=
  MeetsRhs row.sense (row.value x) row.rhs

def SolverIndicator.Holds (indicator : SolverIndicator K) (x : Nat → K) : Prop :=
  x indicator.binaryColumn = indicator.binaryValue →
    MeetsRhs indicator.sense (indicator.form.eval x) indicator.rhs

def SolverGeneral.Holds (general : SolverGeneral) (x : Nat → K) : Prop :=
  match general.kind with
  | .abs => general.argumentColumns.map (fun c => |x c|) = [x general.resultColumn]
  | .max => (general.argumentColumns.map x).max? = some (x general.resultColumn)
  | .min => (general.argumentColumns.map x).min? = some (x general.resultColumn)

namespace SolverModel

/-- An assignment lies in every box and meets every row and construct. -/
structure Satisfied (model : SolverModel K) (x : Nat → K) : Prop where
  boxes : ∀ i (column : SolverColumn K), model.columns[i]? = some column → column.InBox (x i)
  constraints : ∀ row ∈ model.constraints, row.Holds x
  quadraticConstraints : ∀ row ∈ model.quadraticConstraints, row.Holds x
  indicatorConstraints : ∀ indicator ∈ model.indicatorConstraints, indicator.Holds x
  generalConstraints : ∀ general ∈ model.generalConstraints, general.Holds x

/-- An assignment a backend may answer with. -/
structure Feasible (model : SolverModel K) (x : Nat → K) : Prop extends Satisfied model x where
  integral : ∀ i (column : SolverColumn K), model.columns[i]? = some column →
    column.Integral (x i)

/-- The objective at an assignment. -/
def objectiveValue (model : SolverModel K) (x : Nat → K) : K :=
  model.objective.eval x +
    if model.hasQuadraticObj then model.quadraticObjective.eval fun p => x p.1 * x p.2 else 0

/-- One objective value is strictly better than another. -/
def Better (model : SolverModel K) (v w : K) : Prop := if model.maximize then w < v else v < w

instance (model : SolverModel K) (v w : K) : Decidable (model.Better v w) :=
  inferInstanceAs (Decidable (if model.maximize then w < v else v < w))

/-- A feasible assignment no other is better than. -/
structure IsOptimal (model : SolverModel K) (x : Nat → K) : Prop where
  feasible : model.Feasible x
  not_better : ∀ y, model.Feasible y →
    ¬ model.Better (model.objectiveValue y) (model.objectiveValue x)

/-- Some assignment is feasible. -/
def IsFeasible (model : SolverModel K) : Prop := ∃ x, model.Feasible x

/-- Feasible, and past every value there is a feasible assignment with a better one. -/
structure IsUnbounded (model : SolverModel K) : Prop where
  feasible : model.IsFeasible
  exists_better : ∀ v, ∃ x, model.Feasible x ∧ model.Better (model.objectiveValue x) v

end SolverModel

/-! ## Answers -/

/-- The status of a solve. -/
inductive SolverStatus where
  | optimal
  | suboptimal
  | infeasible
  | unbounded
  | infOrUnbd
  | timeLimit
  | iterationLimit
  | other
  deriving DecidableEq, Repr

/-- What a solve comes back with. -/
structure SolverResult (K : Type*) where
  status : SolverStatus
  solution : List K := []
  objectiveValue : K
  ray : List K := []
  diagnosticTimedOut : Bool := false

namespace SolverResult

/-- The solve came to a verdict. -/
def Answers (result : SolverResult K) : Prop :=
  result.status = .optimal ∨ result.status = .infeasible ∨ result.status = .unbounded ∨
    result.status = .infOrUnbd

/-- The verdict, where there is one, is right. -/
structure Exact (model : SolverModel K) (result : SolverResult K) : Prop where
  isOptimal : result.status = .optimal →
    result.solution.length = model.numVars ∧ model.IsOptimal (point result.solution) ∧
      result.objectiveValue = model.objectiveValue (point result.solution)
  not_feasible : result.status = .infeasible → ¬ model.IsFeasible
  isUnbounded : result.status = .unbounded → model.IsUnbounded
  infOrUnbd : result.status = .infOrUnbd → ¬ model.IsFeasible ∨ model.IsUnbounded
  /-- A backend attaches no ray of its own. -/
  ray_nil : result.ray = []

end SolverResult

end

end Decidb
