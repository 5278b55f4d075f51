import Decidb.Execution.QualifiedReducer
import Mathlib.Analysis.Real.Sqrt

/-!
# The denominator of an AVG

An AVG is a SUM whose coefficients are divided by the number of rows it reduces. `ScaleAvgRows` counts
them for the left-hand side of a constraint and for an objective, the inner expression of a square being
divided by the root of the count. A right-hand side and a composed clause divide what they have summed,
`AVG(e) <> K` multiplies the bound by the size of the group instead, and the inner AVG of a nested
objective divides by the size of the group.
-/

namespace Decidb

/-! ## Bodies -/

/-- The shapes of a body a reducer's terms may come from. -/
inductive AvgBody where
  | linear
  | product
  | squared
  deriving DecidableEq, Repr

/-- One term of a body: its data coefficient, and under an assignment the value of what it multiplies, a
decision, a product of two or one. -/
structure BodyTerm where
  coefficient : Nat → ℚ
  factor : Nat → ℚ

/-- The value of a body. -/
def AvgBody.value (body : AvgBody) (terms : List BodyTerm) (i : Nat) : ℚ :=
  let inner := (terms.map fun t => t.coefficient i * t.factor i).sum
  match body with
  | .squared => inner ^ 2
  | _ => inner

/-! ## `ScaleAvgRows` -/

/-- How many rows the coefficient of a row is averaged over; zero when it is zeroed. -/
def avgDenominator (rowGroupIds : Option (Nat → Option Nat)) (numRows : Nat) (mask : RowMask)
    (whenMask : Option RowMask) (row : Nat) : Nat :=
  match rowGroupIds with
  | none => ((List.range numRows).filter fun r => admits whenMask r && mask r).length
  | some ids =>
    match ids row with
    | none => 0
    | some gid => ((List.range numRows).filter fun r => ids r = some gid && mask r).length

/-- A scaled coefficient. -/
def scaledCoefficient (denominator : Nat) (coefficient : ℚ) : ℚ :=
  if denominator = 0 then 0 else coefficient * (1 / denominator)

/-- A scaled coefficient of the inner expression of a square. -/
noncomputable def scaledInner (denominator : Nat) (coefficient : ℚ) : ℝ :=
  if denominator = 0 then 0 else coefficient * (1 / Real.sqrt denominator)

/-! ## Reducers -/

/-- An AVG over a join result, relation-qualified or not. -/
structure AvgReducer extends QualifiedReducer where
  body : AvgBody
  qualified : Bool

namespace AvgReducer

/-- The rows of the reducer, with the qualifier folded in. -/
def mask (q : AvgReducer) : RowMask := if q.qualified then q.rowMask else admits q.filter

/-- What the body of a qualified reducer is a function of is the tuple of a row. -/
def index (q : AvgReducer) (row : Nat) : Nat :=
  if q.qualified then q.mapping.rowToEntity row else row

/-- The WHEN that gates the denominator besides the groups: an objective's, which has no groups without
PER. -/
def whenMask (q : AvgReducer) : Option RowMask :=
  if q.site = .objective then q.whenCondition else none

def denominator (q : AvgReducer) (row : Nat) : Nat :=
  avgDenominator q.maskGroupIds q.numRows q.mask q.whenMask row

/-- The coefficient of a term before it is scaled, zeroed outside the masks. -/
def maskedCoefficient (q : AvgReducer) (t : BodyTerm) (row : Nat) : ℚ :=
  if q.mask row && admits q.whenMask row then t.coefficient (q.index row) else 0

/-- The rows of the group of a row. -/
def groupRows (q : AvgReducer) (row : Nat) : List Nat :=
  (List.range q.numRows).filter fun r => q.groupOf r = q.groupOf row

/-- What the scaled coefficients of one row stand for. -/
noncomputable def scaledRow (q : AvgReducer) (terms : List BodyTerm) (row : Nat) : ℝ :=
  match q.body with
  | .squared =>
    (terms.map fun t => scaledInner (q.denominator row) (q.maskedCoefficient t row) *
      (t.factor (q.index row) : ℝ)).sum ^ 2
  | _ =>
    (((terms.map fun t => scaledCoefficient (q.denominator row) (q.maskedCoefficient t row) *
      t.factor (q.index row)).sum : ℚ) : ℝ)

/-- The rows a value is folded over in the group of a row. -/
def maskedRows (q : AvgReducer) (row : Nat) : List Nat :=
  (List.range q.numRows).filter fun r => q.groupOf r = q.groupOf row && q.mask r

/-- What is emitted for the group of a row. -/
noncomputable def emitted (q : AvgReducer) (terms : List BodyTerm) (row : Nat) : ℝ :=
  match q.site with
  | .constraint => ((q.groupRows row).map (q.scaledRow terms)).sum
  | .objective => ((q.groupRows row).map (q.scaledRow terms)).sum
  -- folded first, divided by the count afterwards
  | _ => ((((q.maskedRows row).map fun r => q.body.value terms (q.index r)).sum /
      (q.maskedRows row).length : ℚ) : ℝ)

/-- The rows the reducer should reduce, tuples for a qualified one. -/
def contributions (q : AvgReducer) (row : Nat) : List Nat :=
  ((q.survivors row).map q.index).dedup

/-- The average over them. -/
def average (q : AvgReducer) (terms : List BodyTerm) (row : Nat) : ℚ :=
  ((q.contributions row).map (q.body.value terms)).sum / (q.contributions row).length

/-- In every group the coefficients stand for the average, whatever the body and the assignment. -/
def Averages (q : AvgReducer) : Prop :=
  ∀ row, row < q.numRows → (q.groupOf row).isSome → ∀ terms,
    q.emitted terms row = (q.average terms row : ℝ)

end AvgReducer

/-! ## `AVG(e) <> K` -/

/-- A `<>` whose left-hand side is made of AVGs alone, over linear bodies. -/
structure AvgExclusion where
  numRows : Nat
  whenCondition : Option RowMask := none
  perColumns : Option RowKey := none
  localRowActive : Option RowMask := none
  reducers : List AvgReducer
  oneClause : ∀ q ∈ reducers, q.site = .constraint ∧ q.body = .linear ∧ q.numRows = numRows ∧
    q.whenCondition = whenCondition ∧ q.perColumns = perColumns ∧ q.localRowActive = localRowActive

namespace AvgExclusion

def groups (e : AvgExclusion) : RowGroups :=
  assignRowGroups e.whenCondition e.perColumns e.localRowActive e.numRows

/-- The rows of the group of a row, whatever reducer they are rows of. -/
def groupRows (e : AvgExclusion) (row : Nat) : List Nat :=
  (List.range e.numRows).filter fun r => e.groups.groupOf r = e.groups.groupOf row

/-- The sum an AVG is left as. -/
def hoistedSum (e : AvgExclusion) (q : AvgReducer) (terms : List BodyTerm) (row : Nat) : ℚ :=
  ((e.groupRows row).map fun r =>
    (terms.map fun t => q.maskedCoefficient t r * t.factor (q.index r)).sum).sum

/-- In every group what is excluded is that the averages add up to the bound. -/
def Excludes (e : AvgExclusion) : Prop :=
  ∀ row, row < e.numRows → (e.groups.groupOf row).isSome →
    ∀ (bodies : Nat → List BodyTerm) (k : ℚ),
      (e.reducers.zipIdx.map fun p => e.hoistedSum p.1 (bodies p.2) row).sum ≠
          k * (e.groupRows row).length ↔
        (e.reducers.zipIdx.map fun p => p.1.average (bodies p.2) row).sum ≠ k

/-- In every group each reducer reduces no row, or as many as the group has. -/
def ReducesWholeGroups (e : AvgExclusion) : Prop :=
  ∀ row, row < e.numRows → (e.groups.groupOf row).isSome → ∀ q ∈ e.reducers,
    q.contributions row = [] ∨ (q.contributions row).length = (e.groupRows row).length

end AvgExclusion

/-! ## The inner AVG of a nested objective -/

/-- `OUTER(AVG(e)) PER …`: neither reducer has a WHEN or a qualifier of its own. -/
structure NestedAverage where
  numRows : Nat
  whenCondition : Option RowMask := none
  perColumns : RowKey

namespace NestedAverage

def groups (q : NestedAverage) : RowGroups :=
  assignRowGroups q.whenCondition (some q.perColumns) none q.numRows

/-- The rows of a group, as `BuildGroupCSR` lists them. -/
def groupRows (q : NestedAverage) (row : Nat) : List Nat :=
  (List.range q.numRows).filter fun r => q.groups.groupOf r = q.groups.groupOf row

/-- The coefficient of a row of a group, over the size of the group. -/
def scaledRowCoefficient (q : NestedAverage) (t : BodyTerm) (row : Nat) : ℚ :=
  (if admits q.whenCondition row then t.coefficient row else 0) / (q.groupRows row).length

/-- What is emitted for the group of a row. -/
def emitted (q : NestedAverage) (terms : List BodyTerm) (row : Nat) : ℚ :=
  ((q.groupRows row).map fun r =>
    (terms.map fun t => q.scaledRowCoefficient t r * t.factor r).sum).sum

/-- In every group the coefficients stand for the average over the rows its WHEN and PER select. -/
def Averages (q : NestedAverage) : Prop :=
  ∀ row, row < q.numRows → (q.groups.groupOf row).isSome → ∀ terms,
    let rows := groupMates q.whenCondition.toList [q.perColumns] q.numRows row
    q.emitted terms row = (rows.map (AvgBody.linear.value terms)).sum / rows.length

end NestedAverage

end Decidb
