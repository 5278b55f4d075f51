import Decidb.Diagnostics.RepairSearch
import Decidb.Relational.CountingSort
import Mathlib.Data.Int.Log

/-!
# The problem HiGHS is handed

`HighsSession::Load` turns every row into a range, multiplies a row whose numbers HiGHS does not hold by a
power of two, packs the matrix by rows and the quadratic objective by columns. Logarithms to base two of
positive numbers are read through `Int.log` and `Int.clog`, their floor and ceiling.
-/

namespace Decidb

open Linear Relational

/-! ## The window -/

section

variable {K : Type*} [Field K]

/-- `HIGHS_SMALL_MATRIX_VALUE`. -/
def highsSmallMatrixValue : K := 1 / 10 ^ 9

/-- `HIGHS_LARGE_MATRIX_VALUE`. -/
def highsLargeMatrixValue : K := 10 ^ 15

/-- `HIGHS_INFINITE_BOUND`. -/
def highsInfiniteBound : K := 10 ^ 20

/-- What stands on the open side of a row. -/
def highsNoBound : K := 10 ^ 30

end

/-- `RowScaleResult`. -/
inductive RowScaleResult where
  | ok
  | spreadTooWide
  | boundTooLarge
  deriving DecidableEq, Repr

section

variable {K : Type*} [Field K] [LinearOrder K] [FloorSemiring K]

/-- `lround` of half the logarithm of a number to base two, away from zero at a half. -/
def lroundHalfLog2 (t : K) : ℤ := if 1 ≤ t then Int.log 4 (2 * t) else -Int.log 4 (2 / t)

/-- `ChooseHighsRowScale`. The centre of the window and that of the row are half the logarithms of the
products of their ends. -/
def chooseHighsRowScale (lo hi bound : K) : RowScaleResult × ℤ :=
  if highsSmallMatrixValue < lo ∧ hi < highsLargeMatrixValue ∧ bound < highsInfiniteBound then (.ok, 0)
  else
    let kMin := Int.log 2 (highsSmallMatrixValue / lo) + 1
    let kMax := Int.clog 2 (highsLargeMatrixValue / hi) - 1
    let kBound := Int.clog 2 (highsInfiniteBound / bound) - 1
    if kMax < kMin then (.spreadTooWide, 0)
    else if 0 < bound ∧ kBound < kMin then (.boundTooLarge, 0)
    else
      let kMax := if 0 < bound then min kMax kBound else kMax
      let k := lroundHalfLog2 (highsSmallMatrixValue * highsLargeMatrixValue / (lo * hi))
      (.ok, min (max k kMin) kMax)

/-! ## Rows and entries -/

/-- An entry of the constraint matrix: `a_rows`, `a_cols` and `a_vals` side by side. -/
structure CooEntry (K : Type*) where
  row : Nat
  col : Nat
  val : K

/-- The sides of a row. -/
structure RowRange (K : Type*) where
  lower : SolverRhs K
  upper : SolverRhs K

/-- The range a row is before any scaling. -/
def rowRange (sense : Sense) (rhs : SolverRhs K) : RowRange K :=
  match sense with
  | .ge => ⟨rhs, SolverRhs.fin highsNoBound⟩
  | .le => ⟨SolverRhs.fin (-highsNoBound), rhs⟩
  | .eq => ⟨rhs, rhs⟩

/-- A finite right-hand side; none if it is an infinity. -/
def SolverRhs.finiteValue : SolverRhs K → Option K
  | some (some k) => some k
  | _ => none

/-- The matrix entries of all rows. -/
def cooEntries (constraints : List (SolverRow K)) : List (CooEntry K) :=
  constraints.zipIdx.flatMap fun p => p.1.form.map fun t => ⟨p.2, t.1, t.2⟩

/-- `lo[r]` and `hi[r]` after one entry; nothing stands for an infinite `lo`. -/
def extendRow (r : Nat) (extent : Option K × K) (entry : CooEntry K) : Option K × K :=
  if entry.val = 0 ∨ entry.row ≠ r then extent
  else (some ((extent.1.map (min · |entry.val|)).getD |entry.val|), max extent.2 |entry.val|)

/-- `lo[r]` and `hi[r]`. -/
def rowExtent (entries : List (CooEntry K)) (r : Nat) : Option K × K :=
  entries.foldl (extendRow r) (none, 0)

/-- The bound of a row that moves with it. -/
def rowBound (row : SolverRow K) : K := (row.rhs.finiteValue.map (|·|)).getD 0

/-- Why a model is not handed over, with what the message quotes. -/
inductive HighsRefusal (K : Type*) where
  | unreachableBound (row : Nat)
  | unscalableRow (row : Nat) (why : RowScaleResult) (rhs : SolverRhs K) (lo hi : K)

/-- The verdict on a row with a coefficient. -/
def scaleOfRow (entries : List (CooEntry K)) (row : SolverRow K) (r : Nat) : RowScaleResult × ℤ :=
  chooseHighsRowScale ((rowExtent entries r).1.getD 0) (rowExtent entries r).2 (rowBound row)

/-- The exponent of a row, or the refusal. -/
def exponentOfRow (entries : List (CooEntry K)) (p : SolverRow K × Nat) : Except (HighsRefusal K) ℤ :=
  if (rowExtent entries p.2).2 = 0 then .ok 0
  else
    match scaleOfRow entries p.1 p.2 with
    | (.ok, k) => .ok k
    | (why, _) =>
      .error (.unscalableRow p.2 why p.1.rhs ((rowExtent entries p.2).1.getD 0) (rowExtent entries p.2).2)

/-- `ldexp`. -/
def ldexp (value : K) (k : ℤ) : K := value * 2 ^ k

/-- An entry, multiplied with its row. -/
def scaleEntry (exponent : List ℤ) (entry : CooEntry K) : CooEntry K :=
  if exponent.getD entry.row 0 = 0 then entry
  else { entry with val := ldexp entry.val (exponent.getD entry.row 0) }

/-- The range of a row, multiplied with it. Only the side the sense gives moves, and only if it is finite. -/
def scaleRange (exponent : List ℤ) (p : SolverRow K × Nat) : RowRange K :=
  let range := rowRange p.1.sense p.1.rhs
  match p.1.rhs.finiteValue with
  | none => range
  | some rhs =>
    if exponent.getD p.2 0 = 0 then range
    else
      let scaled := SolverRhs.fin (ldexp rhs (exponent.getD p.2 0))
      match p.1.sense with
      | .ge => { range with lower := scaled }
      | .le => { range with upper := scaled }
      | .eq => ⟨scaled, scaled⟩

/-- `ScaleRowsIntoHighsWindow`. -/
def scaleRowsIntoHighsWindow (constraints : List (SolverRow K)) (entries : List (CooEntry K)) :
    Except (HighsRefusal K) (List (CooEntry K) × List (RowRange K)) :=
  match constraints.zipIdx.mapM (exponentOfRow entries) with
  | .error refusal => .error refusal
  | .ok exponent =>
    if exponent.all (· == 0) then .ok (entries, constraints.map fun row => rowRange row.sense row.rhs)
    else .ok (entries.map (scaleEntry exponent), constraints.zipIdx.map (scaleRange exponent))

/-! ## Load -/

/-- What `passModel` and `passHessian` are given. Column indices and values stand side by side. -/
structure HighsProblem (K : Type*) where
  maximize : Bool
  offset : K
  colCost : List K
  colLower : List K
  colUpper : List K
  isInteger : List Bool
  rows : List (RowRange K)
  rowStarts : List Nat
  rowEntries : List (Nat × K)
  /-- The starts of the columns, and rows with values; none without a quadratic objective. -/
  hessian : Option (List Nat × List (Nat × K))

/-- The lower triangle by columns, its diagonal doubled. -/
def packHessian (numVars : Nat) (q : Form (Nat × Nat) K) : List Nat × List (Nat × K) :=
  countingSort (fun i => (q[i]?).map fun t => t.1.2) q.length numVars
    (fun i => ((q[i]?).map fun t => (t.1.1, if t.1.1 = t.1.2 then 2 * t.2 else t.2)).getD (0, 0)) (0, 0)

/-- The matrix by rows. -/
def packRows (numRows : Nat) (entries : List (CooEntry K)) : List Nat × List (Nat × K) :=
  countingSort (fun i => (entries[i]?).map (·.row)) entries.length numRows
    (fun i => ((entries[i]?).map fun entry => (entry.col, entry.val)).getD (0, 0)) (0, 0)

/-- What is handed over once the rows are scaled. -/
def highsProblem (model : SolverModel K) (entries : List (CooEntry K)) (rows : List (RowRange K)) :
    HighsProblem K :=
  let packed := packRows rows.length entries
  { maximize := model.maximize
    offset := 0
    colCost := model.columns.map (·.objCoeff)
    colLower := model.columns.map (·.lower)
    colUpper := model.columns.map (·.upper)
    isInteger := model.columns.map (·.isInteger)
    rows := rows
    rowStarts := packed.1
    rowEntries := packed.2
    hessian :=
      if model.hasQuadraticObj && !model.quadraticObjective.isEmpty then
        some (packHessian model.numVars model.quadraticObjective)
      else none }

/-- `HighsSession::Load`. -/
def highsLoad (model : SolverModel K) : Except (HighsRefusal K) (HighsProblem K) :=
  match model.constraints.findIdx? fun row => isUnreachableBound row.sense row.rhs with
  | some r => .error (.unreachableBound r)
  | none =>
    match scaleRowsIntoHighsWindow model.constraints (cooEntries model.constraints) with
    | .error refusal => .error refusal
    | .ok scaled => .ok (highsProblem model scaled.1 scaled.2)

/-! ## How HiGHS reads it -/

/-- A side at or beyond `HIGHS_INFINITE_BOUND` is no bound. -/
def IsOpenSide (side : SolverRhs K) : Prop := ∀ k, side.finiteValue = some k → highsInfiniteBound ≤ |k|

/-- A value between those sides that are bounds. -/
def RowRange.Admits (range : RowRange K) (value : K) : Prop :=
  (IsOpenSide range.lower ∨ range.lower ≤ SolverRhs.fin value) ∧
    (IsOpenSide range.upper ∨ SolverRhs.fin value ≤ range.upper)

namespace HighsProblem

/-- The value of a row. -/
def rowValue (problem : HighsProblem K) (r : Nat) (x : Nat → K) : K :=
  Form.eval (slice problem.rowStarts problem.rowEntries r) x

/-- A row is met by an assignment. -/
def RowSatisfied (problem : HighsProblem K) (r : Nat) (x : Nat → K) : Prop :=
  ∀ range, problem.rows[r]? = some range → range.Admits (problem.rowValue r x)

/-- The quadratic part: half of `x'Qx`, an entry off the diagonal standing for its mirror image too. -/
def quadraticValue (problem : HighsProblem K) (x : Nat → K) : K :=
  match problem.hessian with
  | none => 0
  | some hessian =>
    ((List.range problem.colCost.length).map fun j =>
      ((slice hessian.1 hessian.2 j).map fun t =>
        if t.1 = j then t.2 * (x j * x j) / 2 else t.2 * (x t.1 * x j)).sum).sum

/-- The objective. -/
def objectiveValue (problem : HighsProblem K) (x : Nat → K) : K :=
  problem.offset + Form.eval (problem.colCost.zipIdx.map fun p => (p.2, p.1)) x + problem.quadraticValue x

end HighsProblem

/-! ## What is kept -/

/-- Some coefficient of the row is not zero. -/
def SolverRow.HasCoefficient (row : SolverRow K) : Prop := ∃ t ∈ row.form, t.2 ≠ 0

/-- Times this power of two, the coefficients of the row and its bound are inside the window. -/
structure SolverRow.InWindow (row : SolverRow K) (k : ℤ) : Prop where
  coefficients : ∀ t ∈ row.form, t.2 ≠ 0 →
    highsSmallMatrixValue < |ldexp t.2 k| ∧ |ldexp t.2 k| < highsLargeMatrixValue
  bound : ∀ b, row.rhs.finiteValue = some b → |ldexp b k| < highsInfiniteBound

/-- A row without a coefficient whose bound zero does not meet and HiGHS reads as none. -/
structure SolverRow.Dropped (row : SolverRow K) : Prop where
  blank : ¬ row.HasCoefficient
  open_side : ∃ b, row.rhs.finiteValue = some b ∧ highsInfiniteBound ≤ |b|
  not_holds : ¬ MeetsRhs row.sense 0 row.rhs

/-- The quadratic objective is a lower triangle of the columns there are. -/
def SolverModel.IsLowerTriangular (model : SolverModel K) : Prop :=
  ∀ t ∈ model.quadraticObjective, t.1.2 ≤ t.1.1 ∧ t.1.1 < model.numVars

/-- The problem has the columns, the rows and the objective of the model. -/
structure HighsProblem.States (problem : HighsProblem K) (model : SolverModel K) : Prop where
  maximize_eq : problem.maximize = model.maximize
  columns_eq : problem.colLower = model.columns.map (·.lower) ∧
    problem.colUpper = model.columns.map (·.upper) ∧ problem.isInteger = model.columns.map (·.isInteger)
  rows_length : problem.rows.length = model.constraints.length
  row_iff : ∀ (r : Nat) (row : SolverRow K), model.constraints[r]? = some row → ¬ row.Dropped →
    ∀ x, problem.RowSatisfied r x ↔ row.Holds x
  objective_eq : ∀ x, problem.objectiveValue x = model.objectiveValue x

/-- The choice of a power of two succeeds where one exists, and what is handed over states the model. -/
structure SolverModel.HighsExact (model : SolverModel K) : Prop where
  scale_iff : ∀ (r : Nat) (row : SolverRow K), model.constraints[r]? = some row → row.HasCoefficient →
    ((scaleOfRow (cooEntries model.constraints) row r).1 = .ok ↔ ∃ k, row.InWindow k)
  scale_inWindow : ∀ (r : Nat) (row : SolverRow K), model.constraints[r]? = some row → row.HasCoefficient →
    (scaleOfRow (cooEntries model.constraints) row r).1 = .ok →
      row.InWindow (scaleOfRow (cooEntries model.constraints) row r).2
  states : ∀ problem, highsLoad model = .ok problem → problem.States model

end

end Decidb
