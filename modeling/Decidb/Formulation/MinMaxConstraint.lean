import Decidb.Formulation.ExtremumLink

/-!
# Hard MIN/MAX constraints

`LinearizeMinMaxConstraints` turns every constraint tagged with a MIN or MAX into an extremum column
per group, linked to the group's rows, and one row over that column. Groups whose bound is infinite
are settled first, by the direction the bound points.
-/

namespace Decidb

open Linear

/-- What an infinite bound means for a hard MIN/MAX constraint. -/
inductive MinMaxBoundKind where
  | linearize
  | vacuous
  | noSolution
  deriving DecidableEq, Repr

def classifyMinMaxBound (bound : Bound) (isMaxAgg : Bool) : MinMaxBoundKind :=
  match bound with
  | .fin _ => .linearize
  | .posInf => if isMaxAgg then .noSolution else .vacuous
  | .negInf => if isMaxAgg then .vacuous else .noSolution

/-- The verdict of each group, the last active row's; `none` for a group with no active row. -/
def groupKinds (ec : EvaluatedConstraint) (numRows : Nat) (isMaxAgg : Bool) :
    Nat → Option MinMaxBoundKind :=
  (List.range numRows).foldl
    (fun kinds r =>
      match ec.groupOf r with
      | none => kinds
      | some g =>
        if ec.groupCount ≤ g then kinds
        else Function.update kinds g
          (some (classifyMinMaxBound (decideRowEffectiveBound ec r) isMaxAgg)))
    fun _ => none

/-- Keep only the rows whose group satisfies `keep`. -/
def maskGroups (ec : EvaluatedConstraint) (keep : Nat → Bool) : EvaluatedConstraint :=
  { ec with rowGroupIds := some fun r => (ec.groupOf r).filter keep }

/-- Settle every group's bound before anything is encoded: the constraint with the groups that are
left to encode, if any, and the plain per-row constraint the unsatisfiable groups become. -/
def classifyMinMaxGroups (ec : EvaluatedConstraint) (numRows : Nat) (isMaxAgg : Bool) :
    Option EvaluatedConstraint × List EvaluatedConstraint :=
  let kinds := groupKinds ec numRows isMaxAgg
  let anyKind := fun k => (List.range ec.groupCount).any fun g => kinds g = some k
  if anyKind .vacuous || anyKind .noSolution then
    -- an ungrouped constraint gets its single group materialized, so that it can be masked
    let ec := { ec with numGroups := if ec.rowGroupIds.isNone then 1 else ec.numGroups }
    (if anyKind .linearize then some (maskGroups ec fun g => kinds g = some .linearize) else none,
      if anyKind .noSolution then
        [{ maskGroups ec fun g => kinds g = some .noSolution with
            minmaxAggType := none
            lhsIsAggregate := false }]
      else [])
  else (some ec, [])

/-- The family one group reduces over, and the row its bound is read from. -/
structure MinMaxGroup where
  members : List ExtremumMember
  family : AuxRange
  firstRow : Option Nat

/-- Enter one term of a row into a linking row, negated. -/
def addLinkTerm (indexer : VarIndexer) (r : Nat) (link : MinMaxLinkRow) (t : LhsTerm) :
    MinMaxLinkRow :=
  match t.variableIndex with
  | none => link
  | some v =>
    if t.rowCoefficients r = 0 then link
    else link.addColumn (indexer.get v r) (-t.rowCoefficients r)

/-- One row's expression as a linking row: the variable terms negated, the constant separate. -/
def minMaxLink (indexer : VarIndexer) (terms : List LhsTerm) (r : Nat) : MinMaxLinkRow :=
  { terms.foldl (addLinkTerm indexer r) {} with constant := decideRowFixedLhsOffset terms r }

/-- The member of one row, with its own reach. -/
def minMaxMember (input : SolverInput) (indexer : VarIndexer) (ec : EvaluatedConstraint)
    (r : Nat) : ExtremumMember :=
  let (rowLo, rowHi) := decideRowSignedRange ec.lhsTerms r input.lowerBounds input.upperBounds
  let constant := decideRowFixedLhsOffset ec.lhsTerms r
  { range := ({} : AuxRange).coverRowSided (rowLo.map (· + constant)) (rowHi.map (· + constant)) none
    link := minMaxLink indexer ec.lhsTerms r }

/-- Split one tagged constraint into its groups' families. -/
def buildMinMaxGroups (input : SolverInput) (indexer : VarIndexer) (ec : EvaluatedConstraint) :
    List MinMaxGroup :=
  (List.range ec.groupCount).map fun g =>
    let rows := groupRows ec input.numRows g
    let members := rows.map (minMaxMember input indexer ec)
    { members
      family := members.foldl (fun family m => family.cover m.range) {}
      firstRow := rows.head? }

/-- The first contributing column that is open, and so one the user can bound. -/
def findUnboundedContributor (ec : EvaluatedConstraint) (lower upper : List ℚ) : Option Nat :=
  ec.lhsTerms.findSome? fun t =>
    match t.variableIndex with
    | none => none
    | some v =>
      if ec.absAuxIdx = some v then none
      else
        match lower[v]?, upper[v]? with
        | some lb, some ub =>
          if solverInfinity ≤ ub ∨ lb ≤ -solverInfinity then some v else none
        | _, _ => none

/-- Whether the bound lies beyond the family on the side the clause asks for. -/
def boundOutOfReach (family : AuxRange) (clauseBound : ℚ) (isMaxAgg : Bool) : Bool :=
  if isMaxAgg then !family.hiUnbounded && decide (family.hi < clauseBound)
  else !family.loUnbounded && decide (clauseBound < family.lo)

/-- A family widened to a bound it does not reach. -/
def widenToBound (family : AuxRange) (clauseBound : ℚ) (isMaxAgg : Bool) : AuxRange :=
  if boundOutOfReach family clauseBound isMaxAgg then
    if isMaxAgg then { family with hi := clauseBound } else { family with lo := clauseBound }
  else family

/-- Open the end of a range the clause asks for. -/
def openDemandedEnd (isMaxAgg : Bool) (range : AuxRange) : AuxRange :=
  if isMaxAgg then range.markHiUnbounded none else range.markLoUnbounded none

/-- The extremum column of one group, its link, and the user's bound as a row over it. -/
def linearizeMinMaxGroup (indexer : VarIndexer) (ec : EvaluatedConstraint) (isMaxAgg : Bool)
    (varNames : List String) (policy : NativeConstructPolicy) (input : SolverInput)
    (group : MinMaxGroup) : Except String SolverInput :=
  match group.firstRow with
  | none => .ok input
  | some firstRow =>
    match ec.rhsValues firstRow with
    | .fin clauseBound =>
      let outOfReach := boundOutOfReach group.family clauseBound isMaxAgg
      let family := widenToBound group.family clauseBound isMaxAgg
      -- the native arm states an equality, so its demanded end is opened instead
      let opened := outOfReach && policy.use family.unbounded
      let zRange := if opened then openDemandedEnd isMaxAgg family else family
      let members :=
        if opened then
          group.members.map fun m => { m with range := openDemandedEnd isMaxAgg m.range }
        else group.members
      let (input, z) := input.addGlobalContinuousAux indexer zRange
      let spec : ExtremumLinkSpec :=
        { resultColumn := z
          isMax := isMaxAgg
          needClosing := true
          closingUnderivable := family.unbounded
          closingBigM := if family.unbounded then 0 else family.span
          blameVar := findUnboundedContributor ec input.lowerBounds input.upperBounds }
      match emitExtremumLink input indexer spec members varNames policy with
      | .error e => .error e
      | .ok input => .ok (input.pushRow ⟨[(z, 1)], if isMaxAgg then .ge else .le, clauseBound⟩)
    | _ => .ok input -- an infinite bound was settled by `classifyMinMaxGroups`

/-- One constraint of the loop of `LinearizeMinMaxConstraints`; the state carries the constraints
that remain ordinary ones. -/
def linearizeMinMaxConstraint (indexer : VarIndexer) (varNames : List String)
    (policy : NativeConstructPolicy) (state : SolverInput × List EvaluatedConstraint)
    (ec : EvaluatedConstraint) : Except String (SolverInput × List EvaluatedConstraint) :=
  match ec.minmaxAggType with
  | none => .ok (state.1, state.2 ++ [ec])
  | some agg =>
    let isMaxAgg := agg = .max
    match classifyMinMaxGroups ec state.1.numRows isMaxAgg with
    | (none, new) => .ok (state.1, state.2 ++ new)
    | (some ec, new) =>
      match (buildMinMaxGroups state.1 indexer ec).foldlM
          (linearizeMinMaxGroup indexer ec isMaxAgg varNames policy) state.1 with
      | .error e => .error e
      | .ok input => .ok (input, state.2 ++ new)

/-- Encode every tagged MIN/MAX constraint. -/
def linearizeMinMaxConstraints (input : SolverInput) (indexer : VarIndexer)
    (varNames : List String) (policy : NativeConstructPolicy) : Except String SolverInput :=
  match input.constraints.foldlM (linearizeMinMaxConstraint indexer varNames policy) (input, []) with
  | .error e => .error e
  | .ok (input, constraints) => .ok { input with constraints }

end Decidb
