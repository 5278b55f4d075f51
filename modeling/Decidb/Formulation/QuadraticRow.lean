import Decidb.Formulation.AggregateRow
import Decidb.Formulation.ComposedObjective

/-!
# Squares and products

`BuildQuadraticConstraint` expands the squares of a row, folds every constant into the bound, and only
then steps the bound of a strict comparison to the next integer. The objective has a builder of its
own, which expands one squared group and drops the constants.
-/

namespace Decidb

open Linear

/-- What the constants of a row add up to: the decision-free terms, and the constant of every
squared group squared. -/
def quadraticRhsAdjustment (ec : EvaluatedConstraint) (rows : List Nat) : ℚ :=
  ((ec.lhsTerms.filter fun t => t.variableIndex.isNone).map fun t =>
    (rows.map t.rowCoefficients).sum).sum +
  (ec.quadraticGroups.map fun qg => (rows.map fun r =>
    qg.sign * quadraticRowConstant qg r * quadraticRowConstant qg r).sum).sum

/-- The entries of the pairs of columns. -/
def quadraticEntries (indexer : VarIndexer) (ec : EvaluatedConstraint) (rows : List Nat) :
    Form (Nat × Nat) ℚ :=
  bilinearEntries indexer ec.bilinearTerms rows ++ ec.quadraticGroups.flatMap fun qg =>
    rows.flatMap fun r => outerProduct qg.sign (quadraticRowTerms indexer qg r)

/-- Entries of one pair of columns add up; a pair left with zero is dropped. -/
def mergeQEntries (entries : Form (Nat × Nat) ℚ) : Form (Nat × Nat) ℚ :=
  (entries.foldl (fun form e => Form.addColumn form e.1 e.2) []).filter fun e => e.2 ≠ 0

/-- `BuildQuadraticConstraint`. -/
def buildQuadraticConstraint (indexer : VarIndexer) (integrality : LhsIntegrality)
    (ec : EvaluatedConstraint) (rows : List Nat) (rhs : Bound) :
    Except String QuadraticConstraint :=
  let linear := quadraticLinearPart indexer ec rows
  let quad := mergeQEntries (quadraticEntries indexer ec rows)
  let adjustedRhs := rhs.sub (quadraticRhsAdjustment ec rows)
  match ec.comparisonType with
  | .le => .ok ⟨linear, quad, .le, adjustedRhs⟩
  | .ge => .ok ⟨linear, quad, .ge, adjustedRhs⟩
  | .eq => .ok ⟨linear, quad, .eq, adjustedRhs⟩
  | .lt =>
    if integrality ≠ .integer then .error (rejectStrictOnNonIntegerLhs integrality "<")
    else .ok ⟨linear, quad, .le, adjustedRhs.map fun k => (⌈k⌉ : ℚ) - 1⟩
  | .gt =>
    if integrality ≠ .integer then .error (rejectStrictOnNonIntegerLhs integrality ">")
    else .ok ⟨linear, quad, .ge, adjustedRhs.map fun k => (⌊k⌋ : ℚ) + 1⟩
  | .ne => .error "Unsupported comparison type in ILP model builder (quadratic)"

/-- The rows that have a model row each: every row or every group, as in `buildConstraint`. -/
def constraintInstances (ec : EvaluatedConstraint) (numRows : Nat) : List (List Nat) :=
  if ec.lhsIsAggregate then aggregateGroups ec numRows
  else ((List.range numRows).filter fun r => (ec.groupOf r).isSome).map fun r => [r]

/-- The rows of the model for a constraint with squares or products. -/
def buildQuadraticConstraints (types : List VarType) (indexer : VarIndexer)
    (ec : EvaluatedConstraint) : Except String (List QuadraticConstraint) :=
  if ec.bilinearTerms.isEmpty && ec.quadraticGroups.isEmpty then .ok []
  else
    (constraintInstances ec indexer.numRows).mapM fun rows =>
      buildQuadraticConstraint indexer (isEvalConstraintLhsIntegerValued types indexer.numRows ec)
        ec rows (ec.rhsValues (rows.headD 0))

/-- The value of the expanded left-hand side. -/
def QuadraticConstraint.value (qc : QuadraticConstraint) (a : Nat → ℚ) : ℚ :=
  qc.linear.eval a + qc.quad.eval fun p => a p.1 * a p.2

/-- The bound of a row once its comparison is one a model has. -/
def steppedBound : Comparison → Bound → Bound
  | .lt, k => k.map fun k => (⌈k⌉ : ℚ) - 1
  | .gt, k => k.map fun k => (⌊k⌋ : ℚ) + 1
  | _, k => k

/-- What a backend makes of a row with squares and products. -/
def QuadraticConstraint.Holds (qc : QuadraticConstraint) (a : Nat → ℚ) : Prop :=
  match qc.sense with
  | .le => Bound.fin (qc.value a) ≤ qc.rhs
  | .ge => qc.rhs ≤ Bound.fin (qc.value a)
  | .eq => Bound.fin (qc.value a) = qc.rhs

/-! ## The objective -/

/-- An objective with a squared group and products. -/
structure QuadraticObjective extends LinearObjective where
  hasQuadraticObjective : Bool := false
  quadraticSign : ℚ := 1
  quadraticInnerTerms : List LhsTerm := []
  bilinearObjectiveTerms : List BilinearTerm := []

namespace QuadraticObjective

/-- The squared group of the objective; an objective without inner terms has none. -/
def powerGroups (obj : QuadraticObjective) : List QuadraticGroup :=
  if obj.hasQuadraticObjective && !obj.quadraticInnerTerms.isEmpty then
    [⟨obj.quadraticSign, obj.quadraticInnerTerms⟩]
  else []

/-- The linear coefficients of the model's objective, with what the constant of the squared group puts
on its columns. -/
def buildLinear (indexer : VarIndexer) (obj : QuadraticObjective) : Form Nat ℚ :=
  buildLinearObjective indexer obj.toLinearObjective ++
    quadraticCrossEntries indexer obj.powerGroups (List.range indexer.numRows)

/-- The Q entries of the model's objective. -/
def buildQuad (indexer : VarIndexer) (obj : QuadraticObjective) : Form (Nat × Nat) ℚ :=
  let rows := List.range indexer.numRows
  mergeQEntries ((obj.powerGroups.flatMap fun qg => rows.flatMap fun r =>
    outerProduct qg.sign (quadraticRowTerms indexer qg r)) ++
      bilinearEntries indexer obj.bilinearObjectiveTerms rows)

/-- The value the model gives its objective. -/
def value (indexer : VarIndexer) (obj : QuadraticObjective) (a : Nat → ℚ) : ℚ :=
  (obj.buildLinear indexer).eval a + (obj.buildQuad indexer).eval fun p => a p.1 * a p.2

end QuadraticObjective

end Decidb
