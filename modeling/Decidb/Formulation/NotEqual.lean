import Decidb.Formulation.AggregateRow

/-!
# The `<>` lowering

`LinearizeNotEqual` states every `<>` as a disjunction: two conditional rows on a binary of its own, or
one plain row when the reach of the left-hand side leaves one side of the excluded value dead. A per-row
`<>` has one for every row, an aggregate one for every group and every value its bound takes there.
-/

namespace Decidb

open Linear

/-! ## Excluded values -/

/-- The tolerance within which a bound counts as an integer. -/
def integerTolerance : ℚ := 1 / 10 ^ 9

/-- `NEIsIntegerValuedRhs`: no integer equals any other value. -/
def neIsIntegerValuedRhs : Bound → Bool
  | .fin k => |k - round k| < integerTolerance
  | _ => false

/-- What the reach of a left-hand side says about the value a `<>` excludes. -/
inductive NECollapse where
  /-- Both sides can be reached. -/
  | disjunction
  /-- The value cannot be reached. -/
  | alwaysTrue
  /-- Nothing above the value can be reached. -/
  | lowerOnly
  /-- Nothing below the value can be reached. -/
  | upperOnly
  deriving DecidableEq, Repr

/-- The verdict on one excluded value, half a unit telling lattice values apart. -/
def classifyReach (range : Option ℚ × Option ℚ) (k : ℚ) : NECollapse :=
  let hiBelow := fun x => (range.2.map fun hi => decide (hi < x)).getD false
  let loAbove := fun x => (range.1.map fun lo => decide (x < lo)).getD false
  if hiBelow (k - 1 / 2) || loAbove (k + 1 / 2) then .alwaysTrue
  else if loAbove (k - 1 / 2) then .upperOnly
  else if hiBelow (k + 1 / 2) then .lowerOnly
  else .disjunction

/-- `ClassifyNERow`. -/
def classifyNERow (ec : EvaluatedConstraint) (row : Nat) (lower upper : List ℚ) : NECollapse :=
  match decideRowEffectiveBound ec row with
  | .fin k => classifyReach (decideRowSignedRange ec.lhsTerms row lower upper) k
  | _ => .disjunction

/-- `ClassifyNEConstraint`: the verdict the rows agree on. -/
def classifyNEConstraint (ec : EvaluatedConstraint) (rows : List Nat) (lower upper : List ℚ) :
    NECollapse :=
  if !ec.bilinearTerms.isEmpty || !ec.quadraticGroups.isEmpty then .disjunction
  else
    match rows.map fun r => classifyNERow ec r lower upper with
    | [] => .disjunction
    | verdict :: rest => if rest.all (· = verdict) then verdict else .disjunction

/-! ## Rows -/

/-- State one exclusion over a left-hand side: one binary, and its rows. -/
def emitNotEqual (indexer : VarIndexer) (input : SolverInput) (collapse : NECollapse)
    (form : Form Nat ℚ) (k : ℚ) : SolverInput :=
  let (input, z) := input.addGlobalBinaryAux indexer
  match collapse with
  | .lowerOnly => input.pushRow ⟨form, .le, k - 1⟩
  | .upperOnly => input.pushRow ⟨form, .ge, k + 1⟩
  | _ =>
    (input.pushIndicator ⟨z, 0, ⟨form, .le, k - 1⟩⟩).pushIndicator ⟨z, 1, ⟨form, .ge, k + 1⟩⟩

/-- The rows of a per-row `<>` that exclude anything: a value that is no integer excludes nothing. -/
def notEqualRows (ec : EvaluatedConstraint) (numRows : Nat) : List Nat :=
  (List.range numRows).filter fun r =>
    (ec.groupOf r).isSome && neIsIntegerValuedRhs (ec.rhsValues r)

/-- The columns of a per-row `<>` at a row. -/
def notEqualRowForm (indexer : VarIndexer) (terms : List LhsTerm) (row : Nat) : Form Nat ℚ :=
  (rowEntries indexer terms row).filter fun e => e.2 ≠ 0

/-- One row of `EmitNotEqualRows`, the constant of the left-hand side moved to the bound. -/
def emitNotEqualRow (indexer : VarIndexer) (ec : EvaluatedConstraint) (collapse : NECollapse)
    (input : SolverInput) (row : Nat) : SolverInput :=
  match decideRowEffectiveBound ec row with
  | .fin k => emitNotEqual indexer input collapse (notEqualRowForm indexer ec.lhsTerms row) k
  | _ => input

/-- A per-row `<>`. -/
def expandRowNotEqual (indexer : VarIndexer) (input : SolverInput) (ec : EvaluatedConstraint) :
    SolverInput :=
  let rows := notEqualRows ec input.numRows
  let collapse := classifyNEConstraint ec rows input.rigidLowerBounds input.rigidUpperBounds
  if collapse = .alwaysTrue then input
  else rows.foldl (emitNotEqualRow indexer ec collapse) input

/-! ## Groups -/

/-- The values the bound of a group takes, on the rows of the group. -/
def distinctRhs (ec : EvaluatedConstraint) (rows : List Nat) : List Bound :=
  (rows.map ec.rhsValues).eraseDups

/-- The reach of a group, the sum of what its rows reach. -/
def groupReach (ec : EvaluatedConstraint) (rows : List Nat) (lower upper : List ℚ) :
    Option ℚ × Option ℚ :=
  rows.foldl
    (fun acc r =>
      let range := decideRowSignedRange ec.lhsTerms r lower upper
      (acc.1.bind fun s => range.1.map (s + ·), acc.2.bind fun s => range.2.map (s + ·)))
    (some 0, some 0)

/-- The bound of a group an exclusion is stated for: a hoisted denominator is the size of the group. -/
def excludedBound (ec : EvaluatedConstraint) (rows : List Nat) (offset : ℚ) (k : Bound) : Bound :=
  (if ec.neAvgRhsScale then k.map (· * rows.length) else k).sub offset

/-- One excluded value of a group. -/
def emitGroupExclusion (indexer : VarIndexer) (ec : EvaluatedConstraint) (form : Form Nat ℚ)
    (range : Option ℚ × Option ℚ) (input : SolverInput) (bound : Bound) : SolverInput :=
  if !neIsIntegerValuedRhs bound then input
  else
    match bound with
    | .fin k =>
      let collapse :=
        if ec.bilinearTerms.isEmpty && ec.quadraticGroups.isEmpty then classifyReach range k
        else .disjunction
      if collapse = .alwaysTrue then input else emitNotEqual indexer input collapse form k
    | _ => input

/-- The widest span an accumulator is dense over. -/
def denseCap : Nat := 2 ^ 20

/-- One group of `ExpandAggregateNotEqual`. -/
def expandGroupNotEqual (indexer : VarIndexer) (ec : EvaluatedConstraint) (input : SolverInput)
    (rows : List Nat) : Except String SolverInput :=
  match sumFixedAggregateLhsOffset ec.lhsTerms rows with
  | .error e => .error e
  | .ok offset =>
    let form := notEqualAggregateRow indexer (indexer.globalBlockStart ≤ denseCap) ec.lhsTerms rows
    let range := groupReach ec rows input.rigidLowerBounds input.rigidUpperBounds
    .ok (((distinctRhs ec rows).map (excludedBound ec rows offset)).foldl
      (emitGroupExclusion indexer ec form range) input)

/-- The aggregate spelling of a `<>`. -/
def expandAggregateNotEqual (indexer : VarIndexer) (input : SolverInput) (ec : EvaluatedConstraint) :
    Except String SolverInput :=
  ((aggregateGroups ec input.numRows).filter (· ≠ [])).foldlM (expandGroupNotEqual indexer ec) input

/-! ## The pass -/

/-- The refusal of a `<>` over a left-hand side that is not integer-valued. -/
def notIntegerValuedMessage : String :=
  "DECIDE: a '<>' whose left-hand side is not integer-valued reached the model builder. Both halves " ++
    "of that refusal are stated on declared types at bind time — " ++
    "ValidateDecideNoIntegerStepComparisonOnReal for the decision, " ++
    "ValidateDecideIntegralComparisonOperands for every other operand — so arriving here is an " ++
    "invariant violation, not a query error."

/-- The constraints that are `<>`. -/
def notEqualConstraints (input : SolverInput) : List EvaluatedConstraint :=
  input.constraints.filter fun ec => ec.neClauseIdx.isSome

/-- `LinearizeNotEqual`: the per-row ones in turn, then the aggregates. -/
def linearizeNotEqual (input : SolverInput) (indexer : VarIndexer) : Except String SolverInput :=
  let clauses := notEqualConstraints input
  if clauses.any fun ec => neLhsIsIntegerValued input.variableTypes input.numRows ec ≠ .integer then
    .error notIntegerValuedMessage
  else
    let perRow := clauses.filter fun ec => !ec.lhsIsAggregate
    let aggregates := clauses.filter (·.lhsIsAggregate)
    let rest := input.constraints.filter fun ec => ec.neClauseIdx.isNone
    aggregates.foldlM (expandAggregateNotEqual indexer)
      { perRow.foldl (expandRowNotEqual indexer) input with constraints := rest }

end Decidb
