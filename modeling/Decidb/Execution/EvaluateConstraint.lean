import Decidb.Formulation.MinMaxConstraint
import Decidb.Optimizer.AnalyzeConstraint
import Decidb.Optimizer.ClauseMeaning

/-!
# Evaluating a prepared constraint

`EvaluateConstraints` gives every row its group, masks the coefficients of a reducer with its own
WHEN, and brings the bounds of a reducer down to one for each group.
-/

namespace Decidb

/-! ## Groups -/

/-- Whether an optional mask lets a row through. -/
def admits (mask : Option RowMask) (r : Nat) : Bool := (mask.map fun m => m r).getD true

/-- The groups a constraint is evaluated over. The map of the right-hand side uses the same numbers
over rows the reducers' own WHENs leave out. -/
structure RowGroups where
  rowGroupIds : Option (Nat → Option Nat) := none
  numGroups : Nat := 0
  rhsRowGroupIds : Option (Nat → Option Nat) := none

/-- The keys of the rows a filter lets through, in the order they are met. -/
def firstSeenKeys (columns : RowKey) (filter : RowMask) (numRows : Nat) : List Nat :=
  (List.range numRows).foldl
    (fun keys r =>
      match columns r with
      | none => keys
      | some key => if filter r && !keys.contains key then keys ++ [key] else keys)
    []

/-- The number of a row's key; `none` for a row that is filtered out, has a NULL key, or is of a
group with no constraint. -/
def keyId (keys : List Nat) (columns : RowKey) (filter : RowMask) (r : Nat) : Option Nat :=
  match columns r with
  | none => none
  | some key => if filter r && keys.contains key then some (keys.idxOf key) else none

/-- `LookupOrBuildPerGroupIds`. -/
def lookupOrBuildPerGroupIds (columns : RowKey) (rowFilter looseRowFilter : RowMask)
    (numRows : Nat) : RowGroups :=
  let keys := firstSeenKeys columns rowFilter numRows
  { rowGroupIds := some (keyId keys columns rowFilter)
    numGroups := keys.length
    rhsRowGroupIds := some (keyId keys columns looseRowFilter) }

/-- The groups of a constraint: WHEN first, then PER, with the reducers' own WHENs folded in on the
left only. -/
def assignRowGroups (whenCondition : Option RowMask) (perColumns : Option RowKey)
    (localFilter : Option RowMask) (numRows : Nat) : RowGroups :=
  let rowIsIncluded : RowMask := fun r => admits whenCondition r && admits localFilter r
  match perColumns with
  | some columns => lookupOrBuildPerGroupIds columns rowIsIncluded (admits whenCondition) numRows
  | none =>
    if whenCondition.isNone && localFilter.isNone then {}
    else
      { rowGroupIds := some fun r => if rowIsIncluded r then some 0 else none
        numGroups := 1
        rhsRowGroupIds := some fun r => if admits whenCondition r then some 0 else none }

namespace RowGroups

/-- The group of a row on the left. -/
def groupOf (groups : RowGroups) (r : Nat) : Option Nat :=
  match groups.rowGroupIds with
  | none => some 0
  | some ids => ids r

/-- The group of a row on the right. -/
def rhsGroupOf (groups : RowGroups) (r : Nat) : Option Nat :=
  match groups.rhsRowGroupIds with
  | none => some 0
  | some ids => ids r

/-- No row is in a group. -/
def noRow (groups : RowGroups) (numRows : Nat) : Bool :=
  groups.rowGroupIds.isSome && (List.range numRows).all fun r => (groups.groupOf r).isNone

/-- The rows the reducers of a right-hand side range over at a row. A row of no group is never read;
it gets the first group's. -/
def rhsRows (groups : RowGroups) (numRows r : Nat) : List Nat :=
  let g := (groups.rhsGroupOf r).getD 0
  (List.range numRows).filter fun i => groups.rhsGroupOf i = some g

end RowGroups

/-! ## Bounds -/

/-- The comparisons that order their sides. -/
def Comparison.isOrder : Comparison → Bool
  | .lt => true
  | .le => true
  | .ge => true
  | .gt => true
  | _ => false

/-- The tightest of some bounds. -/
def tightestBound (cmp : Comparison) (bounds : List Bound) : Option Bound :=
  match cmp with
  | .le => bounds.min?
  | .lt => bounds.min?
  | .ge => bounds.max?
  | .gt => bounds.max?
  | _ => none

/-- The one bound of a group. -/
def groupBound (cmp : Comparison) (rhs : RhsExpr) (rows : List Nat) : Bound :=
  (tightestBound cmp (rows.map (rhs.value rows))).getD .posInf

def boundText : Bound → String
  | .negInf => "-inf"
  | .fin k => toString k
  | .posInf => "inf"

/-- The refusal of an `=` bound that varies within a group. -/
def varyingEqualityMessage (rhsText : String) (first other : Bound) : String :=
  rhsText ++ " takes more than one value here (" ++ boundText first ++ " and " ++
    boundText other ++ ") — an `=` bound cannot hold two different values at once, so this " ++
    "DECIDE query is infeasible."

/-- The right-hand side as the message quotes it. -/
def quoteRhs (text : String) : String :=
  if text = "" ∨ text = "SUBQUERY" then "The right-hand side" else "`" ++ text ++ "`"

/-- `ReduceAggregateRhsPerGroup`: the tightest bound of the group, on every row of the group. An `=`
must not vary, and the values a `<>` excludes are all kept. -/
def reduceAggregateRhsPerGroup (cmp : Comparison) (groups : RowGroups) (numRows : Nat)
    (rhsText : String) (rhsValues : Nat → Bound) : Except String (Nat → Bound) :=
  let rowsOf := fun g => (List.range numRows).filter fun i => groups.rhsGroupOf i = some g
  match cmp with
  | .ne => .ok rhsValues
  | .eq =>
    let conflict := (List.range numRows).findSome? fun r =>
      (groups.rhsGroupOf r).bind fun g =>
        (rowsOf g).head?.bind fun first =>
          if rhsValues r = rhsValues first then none else some (rhsValues first, rhsValues r)
    match conflict with
    | some (first, other) => .error (varyingEqualityMessage (quoteRhs rhsText) first other)
    | none => .ok rhsValues
  | cmp =>
    .ok fun r =>
      match groups.rhsGroupOf r with
      | none => rhsValues r
      | some g => (tightestBound cmp ((rowsOf g).map rhsValues)).getD (rhsValues r)

/-! ## Left-hand sides -/

/-- A term of a prepared constraint, with its reducer's own WHEN. -/
structure PreparedTerm where
  term : LhsTerm
  filter : Option RowMask := none
  avgScale : Bool := false

/-- A term under a factor. -/
def scaledTerm (factor : ℚ) (reduction : LinearTermReduction) (t : LhsTerm) : LhsTerm :=
  { t with rowCoefficients := fun r => factor * t.rowCoefficients r, reduction }

/-- The terms of an additive expression, under a factor. -/
def AggregateSum.preparedTerms (factor : ℚ) : AggregateSum → List PreparedTerm
  | .reducer scale agg =>
    agg.child.map fun t =>
      { term := scaledTerm (factor * scaleFactorValue scale) .sum t
        filter := agg.filter
        avgScale := agg.name = .avg }
  | .constant k => [{ term := { variableIndex := none, rowCoefficients := fun _ => factor * k } }]
  | .add l r => l.preparedTerms factor ++ r.preparedTerms factor
  | .sub l r => l.preparedTerms factor ++ r.preparedTerms (-factor)
  | .neg e => e.preparedTerms (-factor)

namespace DecideLhs

/-- The terms of a left-hand side. -/
def preparedTerms : DecideLhs → List PreparedTerm
  | .reducers lhs => lhs.preparedTerms 1
  | .row scale body => body.map fun t => { term := scaledTerm (scaleFactorValue scale) .none t }
  | .hardMinMax scale agg =>
    agg.child.map fun t =>
      { term := scaledTerm (scaleFactorValue scale) .sum t
        filter := agg.filter }

def isAggregate : DecideLhs → Bool
  | .row _ _ => false
  | _ => true

/-- The tag of a hard MIN/MAX. -/
def minmaxAggType : DecideLhs → Option Extremum
  | .hardMinMax _ agg => if agg.name = .max then some .max else some .min
  | _ => none

end DecideLhs

/-- The rows at least one term is active on, once some term has a WHEN of its own. -/
def localRowActive (terms : List PreparedTerm) : Option RowMask :=
  if terms.any fun t => t.filter.isSome then some fun r => terms.any fun t => admits t.filter r
  else none

/-- Zero the coefficients outside a reducer's own WHEN. -/
def maskedTerm (t : PreparedTerm) : LhsTerm :=
  { t.term with rowCoefficients := fun r => if admits t.filter r then t.term.rowCoefficients r else 0 }

/-- `ScaleAvgRows`: divide by the number of rows of the group that pass the filter. -/
def scaleAvgRows (groups : RowGroups) (numRows : Nat) (filter : Option RowMask)
    (rowCoefficients : Nat → ℚ) (r : Nat) : ℚ :=
  match groups.groupOf r with
  | none => 0
  | some g =>
    let denominator := ((List.range numRows).filter fun i =>
      groups.groupOf i = some g && admits filter i).length
    if denominator = 0 then 0 else rowCoefficients r * (1 / denominator)

/-! ## Constraints -/

/-- One constraint of `EvaluateConstraints`. -/
def evaluateConstraint (numRows : Nat) (p : DecideConstraint DecideComparison) :
    Except String EvaluatedConstraint :=
  let c := p.comparison
  let terms := c.lhs.preparedTerms
  let isAggregate := c.lhs.isAggregate
  let localFilter := if isAggregate then localRowActive terms else none
  let groups := assignRowGroups p.whenCondition p.perColumns localFilter numRows
  let rhsValues := fun r => c.rhs.value (groups.rhsRows numRows r) r
  if (isAggregate || c.wasMinmaxEasy) && groups.noRow numRows then
    .error (emptyAggregateMessage "aggregate" "constraint")
  else if terms.any fun t => t.filter.isSome && (filteredRows t.filter numRows).isEmpty then
    .error (emptyAggregateMessage "aggregate term" "constraint")
  else
    let reduced :=
      if isAggregate || c.wasMinmaxEasy then
        reduceAggregateRhsPerGroup c.cmp groups numRows c.rhs.text rhsValues
      else .ok rhsValues
    match reduced with
    | .error e => .error e
    | .ok rhsValues =>
      -- the denominator of a pure AVG under `<>` moves to the right
      let neAvgHoist := c.cmp = .ne && isAggregate && !terms.isEmpty && terms.all (·.avgScale)
      .ok
        { lhsTerms := terms.map fun t =>
            if t.avgScale && !neAvgHoist then
              { maskedTerm t with
                rowCoefficients :=
                  scaleAvgRows groups numRows t.filter (maskedTerm t).rowCoefficients }
            else maskedTerm t
          rhsValues
          comparisonType := c.cmp
          lhsIsAggregate := isAggregate
          minmaxAggType := c.lhs.minmaxAggType
          neClauseIdx := if c.cmp = .ne then some 0 else none
          neAvgRhsScale := neAvgHoist
          rowGroupIds := groups.rowGroupIds
          numGroups := groups.numGroups }

/-- The constraints of a tree, from the MIN/MAX rewrite to the linearized input. -/
def lowerMinMaxConstraint (input : SolverInput) (indexer : VarIndexer) (varNames : List String)
    (policy : NativeConstructPolicy) (t : ConstraintTree DecideComparison) :
    Except String SolverInput :=
  match rewriteMinMaxConstraints t with
  | .error e => .error e
  | .ok t' =>
    match (analyzeConstraint (fun _ => false) t' none none).mapM
        (evaluateConstraint indexer.numRows) with
    | .error e => .error e
    | .ok constraints =>
      linearizeMinMaxConstraints { input with constraints } indexer varNames policy

end Decidb
