import Decidb.Diagnostics.ElasticModel
import Decidb.Relational.Combinations
import Decidb.Solver.PostSolve

/-!
# The search for a repair

`DiagnoseInfeasible` drops no removal group, then one, then two, until some selection leaves a model the
elastic program repairs. `SolveRemovalCandidate` minimizes the data offsets of one selection, then the
weighted loosenings, freezing each minimum as a budget row; re-solves for the objective of the query; and
breaks ties by the order of the clauses.
-/

namespace Decidb

open Linear Relational

section

variable {K : Type*} [Field K] [LinearOrder K]

/-- What the diagnosis is handed. -/
structure InfeasibleDiagnosisInput (K : Type*) [Field K] [LinearOrder K] where
  model : SolverModel K
  wellScoped : model.WellScoped
  slackScope : String := "query"
  hasUnhandledUserBounds : Bool := false
  solveModel : SolverModel K → SolverResult K
  sqrt : K → K

def InfeasibleDiagnosisInput.foldData (input : InfeasibleDiagnosisInput K) : Bool :=
  input.slackScope ≠ "expanded"

/-! ## Removal groups and unreachable bounds -/

/-- `CollectRemovalGroups`, in the order of their ids. -/
def collectRemovalGroups (model : SolverModel K) : List Nat :=
  (model.constraints.filterMap (·.provenance.removalGroupId) ++
    model.quadraticConstraints.filterMap (·.provenance.removalGroupId) ++
    model.indicatorConstraints.filterMap (·.provenance.removalGroupId) ++
    model.generalConstraints.filterMap (·.provenance.removalGroupId)).dedup.mergeSort (· ≤ ·)

/-- `IsUnreachableBound`. -/
def isUnreachableBound (sense : Sense) (rhs : SolverRhs K) : Bool :=
  if rhs = ⊥ then sense ≠ .ge else if rhs = ⊤ then sense ≠ .le else false

/-- Whether `CollectUnreachableClauses` finds a clause. -/
def hasUnreachableClause (model : SolverModel K) : Bool :=
  (model.constraints.any fun row => row.provenance.kind ≠ .structural &&
    row.provenance.removalGroupId.isNone && isUnreachableBound row.sense row.rhs) ||
  model.quadraticConstraints.any fun row => row.provenance.kind ≠ .structural &&
    row.provenance.removalGroupId.isNone && isUnreachableBound row.sense row.rhs

/-! ## Tiers -/

/-- The slack columns of a tier with their coefficients. -/
def tierTerms (slacks : List (BlockSlackRef K)) (tier : ElasticRepairTier) : Form Nat K :=
  slacks.flatMap fun block =>
    let coeff := slackTierCoefficient block tier
    if coeff = 0 then []
    else (block.posCol, coeff) :: (block.negCol.map fun col => (col, coeff)).toList

def tierHasTerms (slacks : List (BlockSlackRef K)) (tier : ElasticRepairTier) : Bool :=
  slacks.any fun block => block.tier = tier

/-- Every coefficient of the objective set to zero, then those of some columns. -/
def setObjective (columns : List (SolverColumn K)) (terms : Form Nat K) : List (SolverColumn K) :=
  terms.foldl (fun columns e => columns.modify e.1 fun column => { column with objCoeff := e.2 })
    (columns.map fun column => { column with objCoeff := 0 })

/-- `SetTierObjective`. -/
def setTierObjective (model : SolverModel K) (slacks : List (BlockSlackRef K))
    (tier : ElasticRepairTier) : SolverModel K :=
  { model with
    columns := setObjective model.columns (tierTerms slacks tier)
    quadraticObjective := []
    hasQuadraticObj := false
    maximize := false }

/-- `ComputeTierValue`. -/
def computeTierValue (solution : List K) (slacks : List (BlockSlackRef K)) (tier : ElasticRepairTier) :
    K :=
  max 0 ((tierTerms slacks tier).eval (point solution))

structure TierBudget (K : Type*) where
  tier : ElasticRepairTier
  value : K
  active : Bool
  deriving DecidableEq

/-- `MakeTierBudget`. -/
def makeTierBudget (solution : List K) (slacks : List (BlockSlackRef K)) (tier : ElasticRepairTier) :
    TierBudget K :=
  let active := !(tierTerms slacks tier).isEmpty
  { tier, active, value := if active then computeTierValue solution slacks tier else 0 }

/-- `AddTierBudgetRow`. -/
def addTierBudgetRow (model : SolverModel K) (slacks : List (BlockSlackRef K)) (budget : TierBudget K) :
    SolverModel K :=
  if !budget.active || (tierTerms slacks budget.tier).isEmpty then model
  else
    { model with
      constraints := model.constraints ++
        [{ form := tierTerms slacks budget.tier, sense := .le, rhs := .fin budget.value
           provenance := { kind := .structural } }] }

/-- `BudgetValue`. -/
def budgetValue (budgets : List (TierBudget K)) (tier : ElasticRepairTier) : K :=
  ((budgets.find? fun budget => budget.tier = tier).map (·.value)).getD 0

/-! ## The objective of the query -/

/-- `HasObjective`. -/
def hasObjective (model : SolverModel K) : Bool :=
  model.hasQuadraticObj || model.columns.any fun column => column.objCoeff ≠ 0

/-- `BuildStage2Model`. -/
def buildStage2Model (elastic : SolverModel K) (slacks : List (BlockSlackRef K))
    (original : SolverModel K) (budgets : List (TierBudget K)) : SolverModel K :=
  { budgets.foldl (addTierBudgetRow · slacks ·) elastic with
    columns := elastic.columns.mapIdx fun i column =>
      { column with objCoeff := (original.columns[i]?.map (·.objCoeff)).getD 0 }
    quadraticObjective := original.quadraticObjective
    hasQuadraticObj := original.hasQuadraticObj
    maximize := original.maximize }

/-- The rank-weighted slack columns of a tie-break. -/
def rankTerms (slacks : List (BlockSlackRef K)) : Form Nat K :=
  slacks.zipIdx.flatMap fun q =>
    let coeff := slackTierCoefficient q.1 q.1.tier * ((q.2 + 1 : Nat) : K)
    (q.1.posCol, coeff) :: (q.1.negCol.map fun col => (col, coeff)).toList

/-- The rank-weighted objective in place of a model's own. -/
def rankObjective (model : SolverModel K) (slacks : List (BlockSlackRef K)) : SolverModel K :=
  { model with columns := setObjective model.columns (rankTerms slacks), maximize := false }

/-- `BuildTieBreakModel`; `none` where the extra solve is skipped. -/
def buildTieBreakModel (model : SolverModel K) (slacks : List (BlockSlackRef K))
    (freezeObjective : Bool) (objectiveValue : K) : Option (SolverModel K) :=
  if (slacks.countP fun block => block.tier ≠ .dataOffset) < 2 &&
      (slacks.countP fun block => block.tier = .dataOffset) < 2 then none
  else if freezeObjective then
    let freeze := model.objective.filter fun e => e.2 ≠ 0
    if model.hasQuadraticObj || freeze.isEmpty then none
    else some (rankObjective
      { model with
        constraints := model.constraints ++
          [{ form := freeze, sense := if model.maximize then .ge else .le
             rhs := .fin objectiveValue, provenance := { kind := .structural } }] } slacks)
  else some (rankObjective model slacks)

/-! ## One candidate -/

/-- Why a candidate is not feasible. -/
inductive CandidateFailure where
  | infeasible
  | abort
  deriving DecidableEq, Repr

/-- What a pass of the ladder goes on with. -/
def acceptPass (input : InfeasibleDiagnosisInput K) (pass : SolverResult K) :
    Except CandidateFailure (List K) :=
  if pass.status = .infeasible then
    .error (if input.hasUnhandledUserBounds then .abort else .infeasible)
  else if pass.status ≠ .optimal || pass.solution.isEmpty then .error .abort
  else .ok pass.solution

/-- Stage 1 on its way: the model with the budgets so far and the last solution. -/
structure RepairLadder (K : Type*) where
  model : SolverModel K
  budgets : List (TierBudget K) := []
  solution : Option (List K) := none
  deriving DecidableEq

/-- One pass of stage 1. -/
def climbTier (input : InfeasibleDiagnosisInput K) (slacks : List (BlockSlackRef K))
    (ladder : RepairLadder K) (tier : ElasticRepairTier) :
    Except CandidateFailure (RepairLadder K) :=
  if !tierHasTerms slacks tier then .ok ladder
  else do
    let model := setTierObjective ladder.model slacks tier
    let solution ← acceptPass input (input.solveModel model)
    let budget := makeTierBudget solution slacks tier
    return { model := addTierBudgetRow model slacks budget
             budgets := ladder.budgets ++ [budget]
             solution := some solution }

/-- Stage 1: the tiers in order, or one plain solve when no tier has a slack. -/
def repairLadder (input : InfeasibleDiagnosisInput K) (elastic : ElasticModel K) :
    Except CandidateFailure (RepairLadder K × List K) := do
  let ladder ← [ElasticRepairTier.dataOffset, .editableLoosen].foldlM
    (climbTier input elastic.slacks) { model := elastic.model }
  match ladder.solution with
  | some solution => return (ladder, solution)
  | none =>
    let solution ← acceptPass input (input.solveModel ladder.model)
    return (ladder, solution)

/-- What stage 2 finds. -/
inductive ObjectiveOutcome (K : Type*) where
  | absent
  | optimal (solution : List K) (value : K)
  | unbounded

/-- Stage 2. -/
def solveObjective (input : InfeasibleDiagnosisInput K) (elastic : ElasticModel K)
    (candidateModel : SolverModel K) (ladder : RepairLadder K) :
    Except CandidateFailure (ObjectiveOutcome K) :=
  if !hasObjective candidateModel then .ok .absent
  else
    let stage2 := input.solveModel
      (buildStage2Model elastic.model elastic.slacks candidateModel ladder.budgets)
    if stage2.status = .optimal && !stage2.solution.isEmpty then
      .ok (.optimal stage2.solution stage2.objectiveValue)
    else if stage2.status = .unbounded then .ok .unbounded
    else .error .abort

/-- The tie-break model of a candidate. -/
def tieBreakModel (elastic : ElasticModel K) (candidateModel : SolverModel K)
    (ladder : RepairLadder K) : ObjectiveOutcome K → Option (SolverModel K)
  | .optimal _ value =>
    buildTieBreakModel (buildStage2Model elastic.model elastic.slacks candidateModel ladder.budgets)
      elastic.slacks true value
  | _ => buildTieBreakModel ladder.model elastic.slacks false 0

/-- The repair a tie-break refines. -/
def ObjectiveOutcome.refined (stage1 : List K) : ObjectiveOutcome K → List K
  | .optimal solution _ => solution
  | _ => stage1

/-- The repair after the tie-break. -/
def breakTies (input : InfeasibleDiagnosisInput K) (tieBreak : Option (SolverModel K))
    (repair : List K) : Except CandidateFailure (List K) :=
  match tieBreak with
  | none => .ok repair
  | some model =>
    let pass := input.solveModel model
    if pass.status ≠ .optimal || pass.solution.isEmpty then .error .abort else .ok pass.solution

end

/-! ## Display -/

section Display

variable {K : Type*} [Field K] [LinearOrder K] [IsStrictOrderedRing K] [FloorRing K]

/-- `std::round`: halves go away from zero. -/
def stdRound (x : K) : ℤ := if 0 ≤ x then ⌊x + 1 / 2⌋ else ⌈x - 1 / 2⌉

/-- `SnapDiagnosticValue`. -/
def snapDiagnosticValue (v : K) : K :=
  if v = 0 then v
  else if |v - stdRound v| ≤ 1 / 10 ^ 6 * max 1 |v| then stdRound v
  else stdRound (v * 10 ^ 6) / 10 ^ 6

/-- `SnapToPrecision`. -/
def snapToPrecision (v : K) : K :=
  if v = 0 then v
  else
    let decimals := -Int.clog 10 (1 / 10 ^ 6 * |v|)
    if decimals < 0 ∨ 15 < decimals then v
    else
      let scale : K := 10 ^ decimals.toNat
      let nearest : K := stdRound (|v| * scale)
      let ticks := if nearest / scale < |v| then nearest + 1 else nearest
      if v < 0 then -(ticks / scale) else ticks / scale

/-- The noise floor of an edit. -/
def editFloor : K := 1 / 10 ^ 5

/-- The amount of a block in a solution. -/
def blockAmount (block : BlockSlackRef K) (solution : List K) : K :=
  if block.sense = .eq then
    point solution block.posCol - point solution (block.negCol.getD invalidIndex)
  else point solution block.posCol

/-- One step of a repair. -/
inductive ClauseEdit (K : Type*) where
  | loosen (block : BlockSlackRef K) (amount : K)
  | drop (removalGroupId : Nat)

/-- `ReadElasticEdits`: one edit for every block whose slack clears the noise floor. -/
def readElasticEdits (slacks : List (BlockSlackRef K)) (solution : List K) (snap : Bool) :
    List (ClauseEdit K) :=
  slacks.filterMap fun block =>
    let amount := blockAmount block solution
    if |amount| ≤ editFloor then none
    else
      let amount := snapToPrecision amount
      if |amount| ≤ editFloor then none
      else if !snap then some (.loosen block amount)
      else
        let amount := snapDiagnosticValue amount
        if |amount| ≤ diagnosticRayEpsilon then none else some (.loosen block amount)

/-! ## Candidates -/

/-- A selection that can be repaired. -/
structure RemovalCandidate (K : Type*) where
  edits : List (ClauseEdit K)
  dataCost : K
  editableCost : K
  objectiveUnbounded : Bool
  hasObjective : Bool
  objectiveValue : K
  signature : List Nat
  /-- The solved columns the edits are read from. -/
  repairSolution : List K

/-- The removal groups of a selection. -/
def selectedGroups (groups selection : List Nat) : List Nat := selection.filterMap (groups[·]?)

/-- `SolveRemovalCandidate`. -/
def solveRemovalCandidate (input : InfeasibleDiagnosisInput K) (groups selection : List Nat) :
    Except CandidateFailure (RemovalCandidate K) := do
  let candidateModel := dropRemovalGroups input.model (selectedGroups groups selection)
  let elastic := buildElasticModel input.sqrt candidateModel input.foldData
  let (ladder, stage1) ← repairLadder input elastic
  let outcome ← solveObjective input elastic candidateModel ladder
  let repair ← breakTies input (tieBreakModel elastic candidateModel ladder outcome)
    (outcome.refined stage1)
  let unbounded := match outcome with | .unbounded => true | _ => false
  return {
    edits := readElasticEdits elastic.slacks repair (hasObjective candidateModel && !unbounded) ++
      (selectedGroups groups selection).map .drop
    dataCost := budgetValue ladder.budgets .dataOffset
    editableCost := budgetValue ladder.budgets .editableLoosen
    objectiveUnbounded := unbounded
    hasObjective := hasObjective candidateModel
    objectiveValue := match outcome with | .optimal _ value => value | _ => 0
    signature := selectedGroups groups selection
    repairSolution := repair }

/-- `CompareDisplayed`. -/
def compareDisplayed (lhs rhs : K) : Ordering := cmp (snapDiagnosticValue lhs) (snapDiagnosticValue rhs)

/-- `BetterCandidate`. -/
def betterCandidate (lhs rhs : RemovalCandidate K) (maximize : Bool) : Bool :=
  match compareDisplayed lhs.dataCost rhs.dataCost with
  | .lt => true
  | .gt => false
  | .eq =>
    match compareDisplayed lhs.editableCost rhs.editableCost with
    | .lt => true
    | .gt => false
    | .eq =>
      if lhs.objectiveUnbounded ≠ rhs.objectiveUnbounded then lhs.objectiveUnbounded
      else
        let objective :=
          if !lhs.objectiveUnbounded && lhs.hasObjective && rhs.hasObjective then
            compareDisplayed lhs.objectiveValue rhs.objectiveValue
          else .eq
        match objective with
        | .lt => !maximize
        | .gt => maximize
        | .eq => decide (lhs.signature < rhs.signature)

/-! ## The search -/

/-- What a layer of the search has found so far. -/
structure SearchState (K : Type*) where
  best : Option (RemovalCandidate K) := none
  aborted : Bool := false

/-- The visitor of a layer; it stops at an abort. -/
def examine (input : InfeasibleDiagnosisInput K) (groups : List Nat) (state : SearchState K)
    (selection : List Nat) : SearchState K × Bool :=
  match solveRemovalCandidate input groups selection with
  | .error .abort => ({ state with aborted := true }, false)
  | .error .infeasible => (state, true)
  | .ok candidate =>
    match state.best with
    | none => ({ state with best := some candidate }, true)
    | some best =>
      if betterCandidate candidate best input.model.maximize then
        ({ state with best := some candidate }, true)
      else (state, true)

/-- What the diagnosis reports. -/
inductive Diagnosis (K : Type*) where
  | undiagnosed
  | unreachableBounds
  | repair (best : RemovalCandidate K)
  | elasticInfeasible

/-- The layers of the search, one for every number of dropped groups. -/
def searchLayers (input : InfeasibleDiagnosisInput K) (groups : List Nat) : List Nat → Diagnosis K
  | [] => if input.hasUnhandledUserBounds then .undiagnosed else .elasticInfeasible
  | cardinality :: layers =>
    let state := (enumerateCombinations (examine input groups) cardinality groups.length 0 [] {}).1
    if state.aborted then .undiagnosed
    else
      match state.best with
      | none => searchLayers input groups layers
      | some best => if best.edits.isEmpty then .undiagnosed else .repair best

/-- `DiagnoseInfeasible`. -/
def diagnoseInfeasible (input : InfeasibleDiagnosisInput K) : Diagnosis K :=
  if hasUnreachableClause input.model then .unreachableBounds
  else
    let groups := collectRemovalGroups input.model
    if groups.isEmpty && (buildElasticModel input.sqrt input.model input.foldData).slacks.isEmpty then
      .undiagnosed
    else searchLayers input groups (List.range (groups.length + 1))

end Display

end Decidb
