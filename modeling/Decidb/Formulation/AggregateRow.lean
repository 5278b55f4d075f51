import Decidb.Formulation.ModelBuilder

/-!
# The loops that read an aggregate

Each path of the builder fills the row of an aggregate in a loop of its own: the linear paths with or
without an accumulator, the quadratic one, and the expansion of an aggregate `<>`.
-/

namespace Decidb

open Linear

/-! ## Accumulators -/

/-- `SparseCoeffAccumulator`: a dense scratch array with the cells that were touched, or the pairs as
they came. -/
structure SparseCoeffAccumulator where
  useDense : Bool
  dense : Nat → ℚ := fun _ => 0
  touched : List Nat := []
  pairs : List (Nat × ℚ) := []

namespace SparseCoeffAccumulator

/-- A cell that holds zero is touched, again if it came back to zero. -/
def add (acc : SparseCoeffAccumulator) (idx : Nat) (coeff : ℚ) : SparseCoeffAccumulator :=
  if acc.useDense then
    { acc with
      touched := if acc.dense idx = 0 then acc.touched ++ [idx] else acc.touched
      dense := fun i => if i = idx then acc.dense i + coeff else acc.dense i }
  else { acc with pairs := acc.pairs ++ [(idx, coeff)] }

/-- Drain the touched cells; a cell drained once holds zero. -/
def flushDense : List Nat → (Nat → ℚ) → List (Nat × ℚ)
  | [], _ => []
  | idx :: touched, dense =>
    let rest := flushDense touched fun i => if i = idx then 0 else dense i
    if dense idx ≠ 0 then (idx, dense idx) :: rest else rest

/-- Merge consecutive pairs of one index into the running pair, dropping zeros. -/
def mergeRuns : Nat × ℚ → List (Nat × ℚ) → List (Nat × ℚ)
  | run, [] => if run.2 ≠ 0 then [run] else []
  | run, p :: pairs =>
    if p.1 = run.1 then mergeRuns (run.1, run.2 + p.2) pairs
    else if run.2 ≠ 0 then run :: mergeRuns p pairs else mergeRuns p pairs

/-- `Flush`. -/
def flush (acc : SparseCoeffAccumulator) : List (Nat × ℚ) :=
  if acc.useDense then flushDense acc.touched acc.dense
  else
    match acc.pairs.mergeSort fun p q => p.1 ≤ q.1 with
    | [] => []
    | p :: pairs => mergeRuns p pairs

end SparseCoeffAccumulator

/-! ## The linear paths -/

/-- `CanUseRowScopedFastPath`: only row-scoped variables, and none in two terms. -/
def canUseRowScopedFastPath (indexer : VarIndexer) (terms : List LhsTerm) : Bool :=
  let vars := terms.filterMap (·.variableIndex)
  (vars.all fun v => match indexer.varScope v with
    | .row _ => true
    | _ => false) && decide vars.Nodup

/-- The entries the fast path writes straight into the row. -/
def fastPathEntries (indexer : VarIndexer) (terms : List LhsTerm) (rows : List Nat) :
    List (Nat × ℚ) :=
  terms.flatMap fun t => match t.variableIndex with
    | none => []
    | some v => (rows.filter fun r => t.rowCoefficients r ≠ 0).map fun r =>
      (indexer.get v r, t.rowCoefficients r)

/-- The row of an ungrouped aggregate. -/
def ungroupedAggregateRow (indexer : VarIndexer) (terms : List LhsTerm) : List (Nat × ℚ) :=
  let rows := List.range indexer.numRows
  if canUseRowScopedFastPath indexer terms then fastPathEntries indexer terms rows
  else mergeEntries (terms.flatMap (aggregateEntries indexer rows))

/-- The row of one group of a grouped aggregate. `dense` says which accumulator the width of the
decision block chose. -/
def groupedAggregateRow (indexer : VarIndexer) (dense : Bool) (terms : List LhsTerm)
    (rows : List Nat) : List (Nat × ℚ) :=
  if canUseRowScopedFastPath indexer terms then fastPathEntries indexer terms rows
  else
    ((terms.flatMap (aggregateEntries indexer rows)).foldl
      (fun acc e => SparseCoeffAccumulator.add acc e.1 e.2)
      ({ useDense := dense } : SparseCoeffAccumulator)).flush

/-! ## The quadratic path -/

/-- One row of a model with squares and products. `quad` has one entry per pair of columns, the larger
column first. -/
structure QuadraticConstraint where
  linear : Form Nat ℚ
  quad : Form (Nat × Nat) ℚ
  sense : Sense
  rhs : Bound

/-- The unordered pair of two columns. -/
def packQKey (c c' : Nat) : Nat × Nat := (max c c', min c c')

/-- The entries of the linear terms: every term once for every row. -/
def quadraticLinearEntries (indexer : VarIndexer) (terms : List LhsTerm) (rows : List Nat) :
    List (Nat × ℚ) :=
  terms.flatMap fun t => match t.variableIndex with
    | none => []
    | some v => rows.map fun r => (indexer.get v r, t.rowCoefficients r)

/-- The entries of the products. -/
def bilinearEntries (indexer : VarIndexer) (terms : List BilinearTerm) (rows : List Nat) :
    Form (Nat × Nat) ℚ :=
  terms.flatMap fun bt => (rows.filter fun r => bt.rowCoefficients r ≠ 0).map fun r =>
    (packQKey (indexer.get bt.varA r) (indexer.get bt.varB r), bt.rowCoefficients r)

/-- The columns of a squared group at a row. -/
def quadraticRowTerms (indexer : VarIndexer) (qg : QuadraticGroup) (row : Nat) : List (Nat × ℚ) :=
  qg.innerTerms.filterMap fun t =>
    if t.rowCoefficients row = 0 then none
    else t.variableIndex.map fun v => (indexer.get v row, t.rowCoefficients row)

/-- The constant of a squared group at a row. -/
def quadraticRowConstant (qg : QuadraticGroup) (row : Nat) : ℚ :=
  ((qg.innerTerms.filter fun t => t.variableIndex.isNone).map fun t => t.rowCoefficients row).sum

/-- The outer product of the columns of a row, each pair of positions once. -/
def outerProduct (sign : ℚ) : List (Nat × ℚ) → Form (Nat × Nat) ℚ
  | [] => []
  | t :: terms =>
    (packQKey t.1 t.1, sign * t.2 * t.2) ::
      terms.map (fun u => (packQKey u.1 t.1, sign * u.2 * t.2 * 2)) ++ outerProduct sign terms

/-- The entries the constant of a squared group puts on its columns. -/
def quadraticCrossEntries (indexer : VarIndexer) (groups : List QuadraticGroup) (rows : List Nat) :
    List (Nat × ℚ) :=
  groups.flatMap fun qg => rows.flatMap fun r =>
    if quadraticRowConstant qg r ≠ 0 then
      (quadraticRowTerms indexer qg r).map fun t =>
        (t.1, qg.sign * 2 * quadraticRowConstant qg r * t.2)
    else []

/-- The linear part of a quadratic row. -/
def quadraticLinearPart (indexer : VarIndexer) (ec : EvaluatedConstraint) (rows : List Nat) :
    Form Nat ℚ :=
  mergeEntries (quadraticLinearEntries indexer ec.lhsTerms rows ++
    quadraticCrossEntries indexer ec.quadraticGroups rows)

/-! ## The aggregate `<>` path -/

/-- `NELhsIsIntegerValued`: only the linear terms are looked at. -/
def neLhsIsIntegerValued (types : List VarType) (numRows : Nat) (ec : EvaluatedConstraint) :
    LhsIntegrality :=
  ((ec.lhsTerms.map (·.integrality types numRows)).find? (· ≠ .integer)).getD .integer

/-- The entries of one group of an aggregate `<>`. -/
def notEqualEntries (indexer : VarIndexer) (terms : List LhsTerm) (rows : List Nat) :
    List (Nat × ℚ) :=
  terms.flatMap fun t => match t.variableIndex with
    | none => []
    | some v => (rows.filter fun r => coefficientCut ≤ |t.rowCoefficients r|).map fun r =>
      (indexer.get v r, t.rowCoefficients r)

/-- The left-hand side `ExpandAggregateNotEqual` gives the rows of one group. -/
def notEqualAggregateRow (indexer : VarIndexer) (dense : Bool) (terms : List LhsTerm)
    (rows : List Nat) : List (Nat × ℚ) :=
  ((notEqualEntries indexer terms rows).foldl
    (fun acc e => SparseCoeffAccumulator.add acc e.1 e.2)
    ({ useDense := dense } : SparseCoeffAccumulator)).flush

end Decidb
