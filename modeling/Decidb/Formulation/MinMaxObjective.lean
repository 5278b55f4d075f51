import Decidb.Formulation.ComposedObjective

/-!
# MIN/MAX objectives

`LinearizeMinMaxObjective` replaces the per-row objective by an auxiliary: one extremum over the rows of
a flat objective, or, under PER, one for every group and one over the groups. The objective pushes an
auxiliary to one side, so only the other side of its link is emitted.
-/

namespace Decidb

open Linear

/-- `ObjectiveAggregateType`. -/
inductive ObjectiveAggregate where
  | none
  | sum
  | min
  | max
  deriving DecidableEq, Repr

namespace ObjectiveAggregate

def isMinMax : ObjectiveAggregate → Bool
  | min | max => true
  | _ => false

end ObjectiveAggregate

/-- Which aggregates the objective is made of, and the rows its WHEN keeps. -/
structure MinMaxObjectiveSpec where
  flatAgg : ObjectiveAggregate := .none
  flatIsEasy : Bool := false
  perInnerAgg : ObjectiveAggregate := .none
  perOuterAgg : ObjectiveAggregate := .none
  perInnerIsEasy : Bool := false
  perOuterIsEasy : Bool := false
  perInnerWasAvg : Bool := false
  whenMask : Option RowMask := none

/-- The PER grouping of the objective; no groups when it has none. -/
structure ObjectiveGroups where
  rowGroupIds : Nat → Option Nat := fun _ => none
  numGroups : Nat := 0

namespace ObjectiveGroups

/-- The rows of a group, in order. -/
def rows (groups : ObjectiveGroups) (numRows g : Nat) : List Nat :=
  (List.range numRows).filter fun r => groups.rowGroupIds r = some g

/-- What the rows of a group are scaled by when the inner aggregate was an AVG. -/
def scale (groups : ObjectiveGroups) (numRows : Nat) (wasAvg : Bool) (g : Nat) : ℚ :=
  if wasAvg then 1 / (groups.rows numRows g).length else 1

end ObjectiveGroups

/-! ## The rewrite of the objective -/

/-- `StrToAggType`, of the reducers an objective may use; an AVG is optimized as the sum it scales. -/
def AggregateName.objectiveAggregate : AggregateName → ObjectiveAggregate
  | .sum | .avg => .sum
  | .min => .min
  | .max => .max

/-- A reducer an objective may close on its own: it presses the auxiliary onto the extremum. -/
def AggregateName.isEasyFor (name : AggregateName) (sense : DecideSense) : Bool :=
  (name = .min && sense = .maximize) || (name = .max && sense = .minimize)

/-- An objective below its wrappers, a cast around a reducer looked through. -/
inductive ObjectiveExpr where
  /-- A reducer over a reducer. -/
  | nested (scale : Option ScaleFactor) (outer : AggregateName) (outerFilter : Option RowMask)
      (inner : Aggregate)
  | reducer (scale : Option ScaleFactor) (agg : Aggregate)
  | other

/-- What the rewrite leaves behind: the objective, and which aggregates it was made of. -/
structure MinMaxObjectiveRewrite where
  objective : ObjectiveExpr
  spec : MinMaxObjectiveSpec := {}

/-- The refusal of a MIN or MAX under PER with nothing around it. -/
def ambiguousPerMessage (name : AggregateName) : String :=
  "MINIMIZE/MAXIMIZE " ++ name.text.toUpper ++ "(...) PER is ambiguous. " ++
    "With PER, use a nested aggregate to specify how per-group values are combined: " ++
    "e.g., SUM(" ++ name.text.toUpper ++ "(...)) PER col or MAX(" ++ name.text.toUpper ++
    "(...)) PER col."

/-- The flags of a flat MIN or MAX. -/
def flatSpec (name : AggregateName) (sense : DecideSense) : MinMaxObjectiveSpec where
  flatAgg := name.objectiveAggregate
  flatIsEasy := name.isEasyFor sense

/-- `RewriteMinMaxObjectiveTree`, past the wrappers of the objective. -/
def rewriteMinMaxObjectiveTree (sense : DecideSense) (hasPer : Bool) (obj : ObjectiveExpr) :
    Except String MinMaxObjectiveRewrite :=
  match obj with
  | .nested scale outer outerFilter inner =>
    if hasPer && inner.referencesDecide then
      -- the outer reducer is stripped, with its factor and its filter
      .ok { objective := .reducer none { inner with name := .sum }
            spec :=
              { perOuterAgg := outer.objectiveAggregate
                perInnerAgg := inner.name.objectiveAggregate
                perInnerWasAvg := inner.name = .avg
                perInnerIsEasy := inner.name.isEasyFor sense
                perOuterIsEasy := outer.isEasyFor sense } }
    else if scale.isNone && !hasPer && outer.isMinMax && inner.referencesDecide then
      .ok { objective := .nested none .sum outerFilter inner, spec := flatSpec outer sense }
    else .ok { objective := obj }
  | .reducer scale agg =>
    if hasPer && agg.isDecideMinMax then .error (ambiguousPerMessage agg.name)
    else if scale.isNone && !hasPer && agg.isDecideMinMax then
      .ok { objective := .reducer none { agg with name := .sum }, spec := flatSpec agg.name sense }
    else .ok { objective := obj }
  | .other => .ok { objective := obj }

/-! ## The saved objective -/

/-- The terms of the objective as they arrive. -/
def LinearObjective.savedTerms (obj : LinearObjective) : List LhsTerm :=
  (obj.objectiveVariableIndices.zip obj.objectiveCoefficients).map fun (v, col) =>
    { variableIndex := v, rowCoefficients := col }

/-- The objective once auxiliaries have taken its place. -/
def LinearObjective.cleared (obj : LinearObjective) : LinearObjective :=
  { obj with objectiveVariableIndices := [], objectiveCoefficients := [] }

/-- A term of the objective at a row: its ends, and the first column that left one open. -/
structure SavedRowRange where
  lo : Option ℚ := some 0
  hi : Option ℚ := some 0
  unboundedVar : Option Nat := none

/-- One term's share of a row's range; a negative coefficient swaps the ends of the column. -/
def savedRowStep (lower upper : List ℚ) (r : Nat) (acc : SavedRowRange) (t : LhsTerm) :
    SavedRowRange :=
  let c := t.rowCoefficients r
  if |c| < coefficientCut then acc
  else
    match t.variableIndex with
    | none => { acc with lo := acc.lo.map (· + c), hi := acc.hi.map (· + c) }
    | some v =>
      let lb := lower.getD v 0
      let ub := upper.getD v 0
      let lbOpen := lb ≤ -solverInfinity
      let ubOpen := solverInfinity ≤ ub
      let loFromUb := c < 0
      let loOpen := if loFromUb then ubOpen else lbOpen
      let hiOpen := if loFromUb then lbOpen else ubOpen
      { lo := if loOpen then none else acc.lo.map (· + c * if loFromUb then ub else lb)
        hi := if hiOpen then none else acc.hi.map (· + c * if loFromUb then lb else ub)
        unboundedVar := if loOpen ∨ hiOpen then acc.unboundedVar.or (some v) else acc.unboundedVar }

def savedRowRange (input : SolverInput) (terms : List LhsTerm) (r : Nat) : SavedRowRange :=
  terms.foldl (savedRowStep input.lowerBounds input.upperBounds r) {}

/-- The reach of one row of the objective. -/
def rowRangeFor (input : SolverInput) (terms : List LhsTerm) (r : Nat) : AuxRange :=
  let rr := savedRowRange input terms r
  ({} : AuxRange).coverRowSided rr.lo rr.hi rr.unboundedVar

/-- The reach of all rows of the objective. -/
def rowFamily (input : SolverInput) (terms : List LhsTerm) : AuxRange :=
  (List.range input.numRows).foldl
    (fun range r =>
      let rr := savedRowRange input terms r
      range.coverRowSided rr.lo rr.hi rr.unboundedVar)
    {}

/-- Accumulate one term of a row into a linking row, negated. -/
def addObjectiveRowTerm (indexer : VarIndexer) (r : Nat) (scale : ℚ) (link : MinMaxLinkRow)
    (t : LhsTerm) : MinMaxLinkRow :=
  let coeff := t.rowCoefficients r * scale
  if |coeff| < coefficientCut then link
  else
    match t.variableIndex with
    | none => { link with constant := link.constant + coeff }
    | some v => link.addColumn (indexer.get v r) (-coeff)

/-- Accumulate one row of the objective. -/
def addObjectiveRowTerms (indexer : VarIndexer) (terms : List LhsTerm) (scale : ℚ)
    (link : MinMaxLinkRow) (r : Nat) : MinMaxLinkRow :=
  terms.foldl (addObjectiveRowTerm indexer r scale) link

/-- A row with a coefficient to speak of. -/
def isActiveRow (terms : List LhsTerm) (r : Nat) : Bool :=
  terms.any fun t => coefficientCut ≤ |t.rowCoefficients r|

/-- The member of one row. -/
def objectiveMember (input : SolverInput) (indexer : VarIndexer) (terms : List LhsTerm) (r : Nat) :
    ExtremumMember where
  link := addObjectiveRowTerms indexer terms 1 {} r
  range := rowRangeFor input terms r

/-- The link of an objective: it needs the side the direction of the objective does not supply. -/
def objectiveLink (resultColumn : Nat) (isMax isEasy : Bool) (family : AuxRange) :
    ExtremumLinkSpec where
  resultColumn
  isMax
  needEnvelope := isEasy
  needClosing := !isEasy
  closingUnderivable := family.unbounded
  closingBigM := if family.unbounded then 0 else family.span
  blameVar := family.unboundedVar

/-- `PinGlobalAux`. -/
def SolverInput.pinGlobalAux (input : SolverInput) (indexer : VarIndexer) (aux : Nat) (value : ℚ) :
    SolverInput :=
  { input with
    globalColumns := input.globalColumns.modify (aux - indexer.globalBlockStart) fun box =>
      { box with lower := value, upper := value } }

/-! ## Flat objectives -/

/-- The rows a flat objective reduces over. -/
def flatActiveRows (spec : MinMaxObjectiveSpec) (numRows : Nat) (terms : List LhsTerm) : List Nat :=
  (List.range numRows).filter fun r => (spec.whenMask.map (· r)).getD true && isActiveRow terms r

/-- The flat MIN/MAX objective. -/
def linearizeFlatObjective (input : SolverInput) (indexer : VarIndexer) (spec : MinMaxObjectiveSpec)
    (obj : LinearObjective) (varNames : List String) (policy : NativeConstructPolicy) :
    Except String (SolverInput × LinearObjective) :=
  let terms := obj.savedTerms
  let activeRows := flatActiveRows spec input.numRows terms
  if activeRows.isEmpty then
    .error ("MIN/MAX objective has no active rows after WHEN filtering and zero-coefficient " ++
      "elimination. The auxiliary variable would have no pinning constraints, " ++
      "making the optimization unbounded or vacuous.")
  else
    let family := rowFamily input terms
    let members := activeRows.map (objectiveMember input indexer terms)
    let (input, z) := input.addGlobalContinuousAux indexer family
    match emitExtremumLink input indexer
        (objectiveLink z (spec.flatAgg != .min) spec.flatIsEasy family) members varNames policy with
    | .error e => .error e
    | .ok input =>
      .ok (input, { obj.cleared with globalObjCoeffs := obj.globalObjCoeffs ++ [(z, 1)] })

/-! ## Nested objectives -/

/-- One auxiliary for every group. -/
def allocateGroups (indexer : VarIndexer) (range : AuxRange) (input : SolverInput) :
    List Nat → SolverInput × List (Nat × Nat)
  | [] => (input, [])
  | g :: gs =>
    let (input, z) := input.addGlobalContinuousAux indexer range
    let (input, zs) := allocateGroups indexer range input gs
    (input, (g, z) :: zs)

/-- Pin the auxiliary of one group to its rows; a group without an active row is pinned at zero.
`init` is the input before any auxiliary. -/
def emitObjectiveGroup (init : SolverInput) (indexer : VarIndexer) (spec : MinMaxObjectiveSpec)
    (groups : ObjectiveGroups) (terms : List LhsTerm) (varNames : List String)
    (policy : NativeConstructPolicy) (input : SolverInput) (gz : Nat × Nat) :
    Except String SolverInput :=
  let activeRows := (groups.rows init.numRows gz.1).filter (isActiveRow terms)
  if activeRows.isEmpty then .ok (input.pinGlobalAux indexer gz.2 0)
  else
    emitExtremumLink input indexer
      (objectiveLink gz.2 (spec.perInnerAgg != .min) spec.perInnerIsEasy (rowFamily init terms))
      (activeRows.map (objectiveMember init indexer terms)) varNames policy

/-- The auxiliaries of an inner MIN/MAX, and the outer aggregate over them. -/
def linearizeInnerMinMax (input : SolverInput) (indexer : VarIndexer) (spec : MinMaxObjectiveSpec)
    (groups : ObjectiveGroups) (obj : LinearObjective) (varNames : List String)
    (policy : NativeConstructPolicy) : Except String (SolverInput × LinearObjective) :=
  let terms := obj.savedTerms
  let family := rowFamily input terms
  let (allocated, zs) := allocateGroups indexer family input (List.range groups.numGroups)
  match zs.foldlM (emitObjectiveGroup input indexer spec groups terms varNames policy) allocated with
  | .error e => .error e
  | .ok linked =>
    match spec.perOuterAgg with
    | .none => .ok (linked, obj.cleared)
    | .sum =>
      .ok (linked, { obj.cleared with
        globalObjCoeffs := obj.globalObjCoeffs ++ zs.map fun gz => (gz.2, 1) })
    | .min | .max =>
      let (linked, w) := linked.addGlobalContinuousAux indexer family
      -- the members are columns already
      let members := zs.map fun gz =>
        { link := ({} : MinMaxLinkRow).addColumn gz.2 (-1), range := family : ExtremumMember }
      match emitExtremumLink linked indexer
          (objectiveLink w (spec.perOuterAgg != .min) spec.perOuterIsEasy family) members varNames
          policy with
      | .error e => .error e
      | .ok out => .ok (out, { obj.cleared with globalObjCoeffs := obj.globalObjCoeffs ++ [(w, 1)] })

/-- The reach of the sum of one group: an end that some row leaves open is open. -/
def groupSumRange (input : SolverInput) (groups : ObjectiveGroups) (wasAvg : Bool)
    (terms : List LhsTerm) (g : Nat) : SavedRowRange :=
  let scale := groups.scale input.numRows wasAvg g
  (groups.rows input.numRows g).foldl
    (fun acc r =>
      let rr := savedRowRange input terms r
      { lo := acc.lo.bind fun s => rr.lo.map (s + · * scale)
        hi := acc.hi.bind fun s => rr.hi.map (s + · * scale)
        unboundedVar := acc.unboundedVar.or rr.unboundedVar })
    {}

/-- The reach of the sums of all groups. -/
def groupSumFamily (input : SolverInput) (groups : ObjectiveGroups) (wasAvg : Bool)
    (terms : List LhsTerm) : AuxRange :=
  (List.range groups.numGroups).foldl
    (fun range g =>
      let gr := groupSumRange input groups wasAvg terms g
      range.coverRowSided gr.lo gr.hi gr.unboundedVar)
    {}

/-- The sum of one group as a linking row. -/
def groupSumLink (input : SolverInput) (indexer : VarIndexer) (groups : ObjectiveGroups) (wasAvg : Bool)
    (terms : List LhsTerm) (g : Nat) : MinMaxLinkRow :=
  (groups.rows input.numRows g).foldl
    (addObjectiveRowTerms indexer terms (groups.scale input.numRows wasAvg g)) {}

/-- `HasNoColumns`. -/
def MinMaxLinkRow.hasNoColumns (link : MinMaxLinkRow) : Bool := link.appendTo.isEmpty

/-- The members of an outer MIN/MAX over sums: the easy direction drops a group that is zero. -/
def groupSumMembers (input : SolverInput) (indexer : VarIndexer) (spec : MinMaxObjectiveSpec)
    (groups : ObjectiveGroups) (terms : List LhsTerm) : List ExtremumMember :=
  let family := groupSumFamily input groups spec.perInnerWasAvg terms
  let links := (List.range groups.numGroups).map
    (groupSumLink input indexer groups spec.perInnerWasAvg terms)
  (links.filter fun link =>
    !(spec.perOuterIsEasy && link.hasNoColumns && decide (|link.constant| < coefficientCut))).map
      fun link => { link, range := family }

/-- The outer aggregate over the sums of the groups. -/
def linearizeInnerSum (input : SolverInput) (indexer : VarIndexer) (spec : MinMaxObjectiveSpec)
    (groups : ObjectiveGroups) (obj : LinearObjective) (varNames : List String)
    (policy : NativeConstructPolicy) : Except String (SolverInput × LinearObjective) :=
  let terms := obj.savedTerms
  match spec.perOuterAgg with
  | .none => .ok (input, obj.cleared)
  | .sum =>
    let scaled := fun (col : Nat → ℚ) r =>
      match groups.rowGroupIds r with
      | none => col r
      | some g => col r * groups.scale input.numRows spec.perInnerWasAvg g
    .ok (input, { obj with objectiveCoefficients := obj.objectiveCoefficients.map scaled })
  | .min | .max =>
    let family := groupSumFamily input groups spec.perInnerWasAvg terms
    let members := groupSumMembers input indexer spec groups terms
    let (input, w) := input.addGlobalContinuousAux indexer family
    let obj := { obj.cleared with globalObjCoeffs := obj.globalObjCoeffs ++ [(w, 1)] }
    if members.isEmpty then .ok (input.pinGlobalAux indexer w 0, obj)
    else
      match emitExtremumLink input indexer
          (objectiveLink w (spec.perOuterAgg != .min) spec.perOuterIsEasy family) members varNames
          policy with
      | .error e => .error e
      | .ok out => .ok (out, obj)

/-- `LinearizeMinMaxObjective`; an objective without MIN/MAX stays as it arrived. -/
def linearizeMinMaxObjective (input : SolverInput) (indexer : VarIndexer) (spec : MinMaxObjectiveSpec)
    (groups : ObjectiveGroups) (obj : LinearObjective) (varNames : List String)
    (policy : NativeConstructPolicy) : Except String (SolverInput × LinearObjective) :=
  if obj.objectiveVariableIndices.isEmpty then .ok (input, obj)
  else if spec.perInnerAgg ≠ .none ∧ 0 < groups.numGroups then
    if spec.perInnerAgg.isMinMax then
      linearizeInnerMinMax input indexer spec groups obj varNames policy
    else linearizeInnerSum input indexer spec groups obj varNames policy
  else if spec.flatAgg ≠ .none then
    linearizeFlatObjective input indexer spec obj varNames policy
  else .ok (input, obj)

end Decidb
