import Decidb.Formulation.SolverInput

/-!
# The rows of the model

`SolverModel::Build` turns the evaluated constraints that are linear into rows over flat columns: one
row for every row of a per-row constraint, one for every group of an aggregate.
-/

namespace Decidb

open Linear

/-! ## Integrality of a left-hand side -/

/-- Whether a left-hand side is confined to integers, and what keeps it from being so. -/
inductive LhsIntegrality where
  | integer
  | realVariable
  | fractionalCoefficient
  deriving DecidableEq, Repr

/-- `CoefficientColumn::AllIntegral`. -/
def allIntegral (numRows : Nat) (rowCoefficients : Nat → ℚ) : Bool :=
  (List.range numRows).all fun r => (rowCoefficients r).den = 1

/-- The integrality of one variable under a coefficient column. -/
def variableIntegrality (types : List VarType) (numRows v : Nat) (rowCoefficients : Nat → ℚ) :
    LhsIntegrality :=
  if types[v]? = some .real then .realVariable
  else if allIntegral numRows rowCoefficients then .integer
  else .fractionalCoefficient

def LhsTerm.integrality (types : List VarType) (numRows : Nat) (t : LhsTerm) : LhsIntegrality :=
  match t.variableIndex with
  | none => .integer
  | some v => variableIntegrality types numRows v t.rowCoefficients

def BilinearTerm.integrality (types : List VarType) (numRows : Nat) (t : BilinearTerm) :
    LhsIntegrality :=
  if types[t.varA]? = some .real then .realVariable
  else variableIntegrality types numRows t.varB t.rowCoefficients

/-- `IsEvalConstraintLhsIntegerValued`: the first part that is not integral decides. -/
def isEvalConstraintLhsIntegerValued (types : List VarType) (numRows : Nat)
    (ec : EvaluatedConstraint) : LhsIntegrality :=
  let parts := ec.lhsTerms.map (·.integrality types numRows) ++
    ec.bilinearTerms.map (·.integrality types numRows) ++
    ec.quadraticGroups.flatMap fun qg => qg.innerTerms.map (·.integrality types numRows)
  (parts.find? (· ≠ .integer)).getD .integer

/-! ## Rows -/

/-- One row of the model. -/
structure ModelConstraint where
  form : Form Nat ℚ
  sense : Sense
  rhs : Bound

/-- What a backend makes of a row. -/
def ModelConstraint.Holds (c : ModelConstraint) (a : Nat → ℚ) : Prop :=
  match c.sense with
  | .le => Bound.fin (c.form.eval a) ≤ c.rhs
  | .ge => c.rhs ≤ Bound.fin (c.form.eval a)
  | .eq => Bound.fin (c.form.eval a) = c.rhs

/-- `RejectStrictOnNonIntegerLhs`. -/
def rejectStrictOnNonIntegerLhs (integrality : LhsIntegrality) (op : String) : String :=
  "Strict inequality '" ++ op ++ "' with a non-integer-valued left-hand side (" ++
    (if integrality = .realVariable then "REAL variable" else "fractional coefficient") ++
    ") reached the model builder; the bind-time type gate should have rejected it"

/-- `ApplyComparisonSense`: a strict comparison steps to the next integer. -/
def applyComparisonSense (form : Form Nat ℚ) (cmp : Comparison) (rhs : Bound)
    (integrality : LhsIntegrality) : Except String ModelConstraint :=
  match cmp with
  | .ge => .ok ⟨form, .ge, rhs⟩
  | .gt =>
    if integrality ≠ .integer then .error (rejectStrictOnNonIntegerLhs integrality ">")
    else .ok ⟨form, .ge, rhs.map fun k => (⌊k⌋ : ℚ) + 1⟩
  | .le => .ok ⟨form, .le, rhs⟩
  | .lt =>
    if integrality ≠ .integer then .error (rejectStrictOnNonIntegerLhs integrality "<")
    else .ok ⟨form, .le, rhs.map fun k => (⌈k⌉ : ℚ) - 1⟩
  | .eq => .ok ⟨form, .eq, rhs⟩
  | .ne => .error "Unsupported comparison type in ILP model builder"

/-- The tolerance a row without variables is decided with. -/
def constantRowTolerance : ℚ := 1 / 10 ^ 9

/-- `PushNormalizedConstraint`: a row without variables is dropped unless it is violated. -/
def pushNormalizedConstraint (c : ModelConstraint) : List ModelConstraint :=
  if c.form ≠ [] then [c]
  else
    let violated : Bool := match c.sense with
      | .le => decide (c.rhs < .fin (-constantRowTolerance))
      | .ge => decide (.fin constantRowTolerance < c.rhs)
      | .eq => decide (c.rhs < .fin (-constantRowTolerance)) ||
          decide (.fin constantRowTolerance < c.rhs)
    if violated then [c] else []

/-- Entries of one column add up; a column left with zero is dropped. -/
def mergeEntries (entries : List (Nat × ℚ)) : Form Nat ℚ :=
  (entries.foldl (fun form e => Form.addColumn form e.1 e.2) []).filter fun e => e.2 ≠ 0

/-! ## Per-row constraints -/

/-- The entries of one row. -/
def rowEntries (indexer : VarIndexer) (terms : List LhsTerm) (row : Nat) : List (Nat × ℚ) :=
  terms.filterMap fun t => t.variableIndex.map fun v => (indexer.get v row, t.rowCoefficients row)

/-- The row of a per-row constraint at `row`. -/
def perRowConstraint (indexer : VarIndexer) (integrality : LhsIntegrality)
    (ec : EvaluatedConstraint) (row : Nat) : Except String ModelConstraint :=
  applyComparisonSense (mergeEntries (rowEntries indexer ec.lhsTerms row)) ec.comparisonType
    (decideRowEffectiveBound ec row) integrality

/-! ## Aggregates -/

/-- A query-wide decision standing beside a reducer enters a group once. -/
def entersOnce (indexer : VarIndexer) (t : LhsTerm) (v : Nat) : Bool :=
  match indexer.varScope v with
  | .scalar _ => t.reduction ≠ .sum
  | _ => false

/-- The entries of one term over the rows of a group. -/
def aggregateEntries (indexer : VarIndexer) (rows : List Nat) (t : LhsTerm) : List (Nat × ℚ) :=
  match t.variableIndex with
  | none => []
  | some v =>
    if entersOnce indexer t v then
      [(indexer.get v (rows.headD 0), t.rowCoefficients (rows.headD 0))]
    else rows.map fun r => (indexer.get v r, t.rowCoefficients r)

/-- `SumFixedAggregateLhsOffset`. -/
def sumFixedAggregateLhsOffset (terms : List LhsTerm) (rows : List Nat) : Except String ℚ :=
  let fixed := terms.filter fun t => t.variableIndex.isNone
  if fixed.any fun t => t.reduction ≠ .sum then
    .error "DECIDE fixed aggregate LHS term has no SUM reduction owner"
  else .ok (fixed.map fun t => (rows.map t.rowCoefficients).sum).sum

/-- The row of an aggregate over the rows of one group. -/
def aggregateConstraint (indexer : VarIndexer) (integrality : LhsIntegrality)
    (ec : EvaluatedConstraint) (rows : List Nat) : Except String ModelConstraint := do
  let offset ← sumFixedAggregateLhsOffset ec.lhsTerms rows
  applyComparisonSense (mergeEntries (ec.lhsTerms.flatMap (aggregateEntries indexer rows)))
    ec.comparisonType ((ec.rhsValues (rows.headD 0)).sub offset) integrality

/-- The groups an aggregate has a row for: all rows at once, or every group with a row. -/
def aggregateGroups (ec : EvaluatedConstraint) (numRows : Nat) : List (List Nat) :=
  match ec.rowGroupIds with
  | none => [List.range numRows]
  | some _ => ((List.range ec.numGroups).map (groupRows ec numRows)).filter (· ≠ [])

/-- The rows `SolverModel::Build` makes of one linear constraint; the others it builds elsewhere. -/
def buildConstraint (types : List VarType) (indexer : VarIndexer) (ec : EvaluatedConstraint) :
    Except String (List ModelConstraint) := do
  if !ec.bilinearTerms.isEmpty || !ec.quadraticGroups.isEmpty then return []
  let integrality := isEvalConstraintLhsIntegerValued types indexer.numRows ec
  let rows ← if ec.lhsIsAggregate then
      (aggregateGroups ec indexer.numRows).mapM (aggregateConstraint indexer integrality ec)
    else
      ((List.range indexer.numRows).filter fun r => (ec.groupOf r).isSome).mapM
        (perRowConstraint indexer integrality ec)
  return rows.flatMap pushNormalizedConstraint

/-- An assignment meets the rows of every one of some linear constraints. -/
def RowsHold (types : List VarType) (indexer : VarIndexer) (constraints : List EvaluatedConstraint)
    (a : Nat → ℚ) : Prop :=
  ∀ ec ∈ constraints, ∃ rows, buildConstraint types indexer ec = .ok rows ∧
    ∀ c ∈ rows, c.Holds a

end Decidb
