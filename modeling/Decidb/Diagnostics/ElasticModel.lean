import Decidb.Solver.SolverModel

/-!
# The elastic program

To repair an infeasible model the diagnosis drops whole removal groups and loosens the bounds of the rows
a user may edit. `BuildElasticModel` gives every editable bound a slack column; the rows one bound fans
into share it. The function `sqrt` is a parameter, since the numbers are those of any ordered field.
-/

namespace Decidb

open Linear

/-- Which lexicographic tier a slack is paid in. -/
inductive ElasticRepairTier where
  | dataOffset
  | editableLoosen
  deriving DecidableEq, Repr

/-- A slack wired into one or more rows; `rows` index the quadratic rows when `quadratic` is set. -/
structure BlockSlackRef (K : Type*) where
  rows : List Nat
  posCol : Nat
  /-- Present for equalities. -/
  negCol : Option Nat := none
  sense : Sense
  tier : ElasticRepairTier := .editableLoosen
  weight : K
  quadratic : Bool := false
  deriving DecidableEq

/-- The elastic program with the wiring needed to read it back. -/
structure ElasticModel (K : Type*) where
  model : SolverModel K
  slacks : List (BlockSlackRef K)

section

variable {K : Type*}

/-! ## Dropping removal groups -/

/-- Whether `DropTaggedEntries` keeps an entry. -/
def ConstraintProvenance.isRetained (removalGroupIds : List Nat) (p : ConstraintProvenance) : Bool :=
  match p.removalGroupId with
  | none => true
  | some id => !removalGroupIds.contains id

variable [Field K] [LinearOrder K]

/-- The tolerance a row without variables is decided with. -/
def constantRowEpsilon : K := 1 / 10 ^ 9

/-- A coefficient-free row whose bound is violated. -/
def SolverRow.isViolatedConstant (row : SolverRow K) : Bool :=
  row.form.isEmpty &&
    match row.sense with
    | .le => decide (row.rhs < .fin (-constantRowEpsilon))
    | .ge => decide (SolverRhs.fin constantRowEpsilon < row.rhs)
    | .eq => decide (row.rhs < .fin (-constantRowEpsilon)) ||
        decide (SolverRhs.fin constantRowEpsilon < row.rhs)

/-- `DropRemovalGroups`. -/
def dropRemovalGroups (base : SolverModel K) (removalGroupIds : List Nat) : SolverModel K :=
  let constraints := base.constraints.filter fun row => row.provenance.isRetained removalGroupIds
  { base with
    constraints
    quadraticConstraints := base.quadraticConstraints.filter fun row =>
      row.provenance.isRetained removalGroupIds
    indicatorConstraints := base.indicatorConstraints.filter fun row =>
      row.provenance.isRetained removalGroupIds
    generalConstraints := base.generalConstraints.filter fun row =>
      row.provenance.isRetained removalGroupIds
    buildProvenInfeasible := constraints.any (·.isViolatedConstant) }

/-! ## Which rows share a slack -/

namespace ConstraintProvenance

/-- A row that gets a slack. -/
def isSlackable (p : ConstraintProvenance) : Bool :=
  p.removalGroupId.isNone && p.kind.isRelaxableForElastic

/-- A bound that is per-row data. -/
def isDataOffset (p : ConstraintProvenance) : Bool :=
  p.shape = .perRowData && p.repairGroupId.isSome

/-- Whether the row shares its slack with the rows of its block. -/
def folds (foldData : Bool) (p : ConstraintProvenance) : Bool :=
  p.repairGroupId.isSome && (p.shape = .sharedScalar || (foldData && p.shape = .perRowData))

/-- The key of the block of a row: the clause, and its group when data is not folded. -/
def blockKey (foldData : Bool) (p : ConstraintProvenance) : Option Nat × Option Nat :=
  if foldData then (p.repairGroupId, some 0) else (p.repairGroupId, p.groupKey)

def tier (p : ConstraintProvenance) : ElasticRepairTier :=
  if p.isDataOffset then .dataOffset else .editableLoosen

end ConstraintProvenance

/-- The rows of the block a row folds into. -/
def blockRows (foldData : Bool) (constraints : List (SolverRow K)) (p : ConstraintProvenance) :
    List Nat :=
  (constraints.zipIdx.filter fun q => q.1.provenance.isSlackable && q.1.provenance.folds foldData &&
    (q.1.provenance.blockKey foldData = p.blockKey foldData)).map (·.2)

/-! ## Weights -/

/-- `rms_norm`. -/
def rmsNorm (sqrt : K → K) (coefficients : List K) : K :=
  if coefficients.isEmpty then 0
  else sqrt ((coefficients.map fun v => v * v).sum / coefficients.length)

def SolverRow.norm (sqrt : K → K) (row : SolverRow K) : K := rmsNorm sqrt (row.form.map (·.2))

def SolverQuadraticRow.norm (sqrt : K → K) (row : SolverQuadraticRow K) : K :=
  rmsNorm sqrt (row.linear.map (·.2))

/-- The norms `consider_ref` is called with. -/
def editableNorms (sqrt : K → K) (base : SolverModel K) : List K :=
  ((base.constraints.filter fun row =>
    row.provenance.isSlackable && !row.provenance.isDataOffset).map (·.norm sqrt)) ++
  ((base.quadraticConstraints.filter fun row => row.provenance.isSlackable).map (·.norm sqrt))

/-- The smallest editable norm, or one when there is none. -/
def refNorm (sqrt : K → K) (base : SolverModel K) : K :=
  ((editableNorms sqrt base).filter fun n => 0 < n).min?.getD 1

/-- `editable_weight`. -/
def editableWeight (ref norm : K) : K := if 0 < norm then ref / norm else 1

/-! ## Blocks -/

/-- The slack of a linear row, its columns still to be allotted. -/
def linearBlock (sqrt : K → K) (ref : K) (row : SolverRow K) (rows : List Nat) : BlockSlackRef K where
  rows
  posCol := 0
  sense := row.sense
  tier := row.provenance.tier
  weight := if row.provenance.isDataOffset then 1 else editableWeight ref (row.norm sqrt)

/-- The blocks of the linear rows, each at its first row. -/
def linearBlocks (sqrt : K → K) (foldData : Bool) (base : SolverModel K) : List (BlockSlackRef K) :=
  base.constraints.zipIdx.filterMap fun q =>
    let p := q.1.provenance
    if !p.isSlackable then none
    else if p.folds foldData then
      let grp := blockRows foldData base.constraints p
      if grp.head? ≠ some q.2 then none else some (linearBlock sqrt (refNorm sqrt base) q.1 grp)
    else some (linearBlock sqrt (refNorm sqrt base) q.1 [q.2])

/-- The blocks of the quadratic rows. -/
def quadraticBlocks (sqrt : K → K) (base : SolverModel K) : List (BlockSlackRef K) :=
  base.quadraticConstraints.zipIdx.filterMap fun q =>
    if !q.1.provenance.isSlackable then none
    else some
      { rows := [q.2], posCol := 0, sense := q.1.sense
        weight := editableWeight (refNorm sqrt base) (q.1.norm sqrt), quadratic := true }

/-- How many columns a block takes. -/
def BlockSlackRef.width (block : BlockSlackRef K) : Nat := if block.sense = .eq then 2 else 1

/-- Every block with its columns, from `next` on. -/
def allotColumns : Nat → List (BlockSlackRef K) → List (BlockSlackRef K)
  | _, [] => []
  | next, block :: blocks =>
    { block with
      posCol := next
      negCol := if block.sense = .eq then some (next + 1) else none } ::
    allotColumns (next + block.width) blocks

/-! ## The elastic program -/

/-- What `wire` appends to a row. -/
def wireEntries (block : BlockSlackRef K) (sense : Sense) : Form Nat K :=
  match sense with
  | .ge => [(block.posCol, 1)]
  | .le => [(block.posCol, -1)]
  | .eq => [(block.posCol, -1), (block.negCol.getD invalidIndex, 1)]

/-- The slack entries of a row. -/
def slackEntries (slacks : List (BlockSlackRef K)) (quadratic : Bool) (r : Nat) (sense : Sense) :
    Form Nat K :=
  (slacks.filter fun block => block.quadratic = quadratic && block.rows.contains r).flatMap
    (wireEntries · sense)

/-- The column `add_slack` appends. -/
def slackColumn : SolverColumn K where
  lower := 0
  upper := 10 ^ 30
  objCoeff := 0

/-- `BuildElasticModel`; `foldData` is set in every slack scope but `"expanded"`. -/
def buildElasticModel (sqrt : K → K) (base : SolverModel K) (foldData : Bool) : ElasticModel K :=
  let slacks := allotColumns base.numVars (linearBlocks sqrt foldData base ++ quadraticBlocks sqrt base)
  { slacks
    model :=
      { base with
        columns := (base.columns.map fun column => { column with objCoeff := 0 }) ++
          List.replicate (slacks.map (·.width)).sum slackColumn
        constraints := base.constraints.mapIdx fun r row =>
          { row with form := row.form ++ slackEntries slacks false r row.sense }
        quadraticConstraints := base.quadraticConstraints.mapIdx fun r row =>
          { row with linear := row.linear ++ slackEntries slacks true r row.sense }
        quadraticObjective := []
        hasQuadraticObj := false
        maximize := false } }

/-! ## What a repair is -/

/-- How much of its two slacks every block spends. -/
abbrev RepairAmounts (K : Type*) := Nat → K × K

/-- A bound moved by an amount. -/
def SolverRhs.shift (rhs : SolverRhs K) (k : K) : SolverRhs K := WithBot.map (WithTop.map (· + k)) rhs

/-- How far a block moves the bound of a row. -/
def loosening (sense : Sense) (amount : K × K) : K :=
  match sense with
  | .ge => -amount.1
  | .le => amount.1
  | .eq => amount.1 - amount.2

/-- How far the bound of row `r` is moved. -/
def rowLoosening (slacks : List (BlockSlackRef K)) (amounts : RepairAmounts K) (quadratic : Bool)
    (r : Nat) (sense : Sense) : K :=
  ((slacks.zipIdx.filter fun q => q.1.quadratic = quadratic && q.1.rows.contains r).map fun q =>
    loosening sense (amounts q.2)).sum

/-- The model with the bounds of every block moved. -/
def SolverModel.loosen (model : SolverModel K) (slacks : List (BlockSlackRef K))
    (amounts : RepairAmounts K) : SolverModel K :=
  { model with
    constraints := model.constraints.mapIdx fun r row =>
      { row with rhs := row.rhs.shift (rowLoosening slacks amounts false r row.sense) }
    quadraticConstraints := model.quadraticConstraints.mapIdx fun r row =>
      { row with rhs := row.rhs.shift (rowLoosening slacks amounts true r row.sense) } }

/-- The coefficient of a slack in the objective of a tier. -/
def slackTierCoefficient (block : BlockSlackRef K) (tier : ElasticRepairTier) : K :=
  if block.tier ≠ tier then 0
  else if tier = .editableLoosen then block.weight
  else 1

/-- What a block spends; only an equality has two slacks. -/
def BlockSlackRef.spent (block : BlockSlackRef K) (amount : K × K) : K :=
  amount.1 + if block.sense = .eq then amount.2 else 0

/-- What a repair pays in a tier. -/
def tierTotal (slacks : List (BlockSlackRef K)) (tier : ElasticRepairTier) (amounts : RepairAmounts K) :
    K :=
  (slacks.zipIdx.map fun q => slackTierCoefficient q.1 tier * q.1.spent (amounts q.2)).sum

/-- The slacks spent are amounts, and the model loosened by them is feasible. -/
structure SolverModel.IsRepair (model : SolverModel K) (slacks : List (BlockSlackRef K))
    (amounts : RepairAmounts K) : Prop where
  nonneg : ∀ i, 0 ≤ (amounts i).1 ∧ 0 ≤ (amounts i).2
  isFeasible : (model.loosen slacks amounts).IsFeasible

/-- Every row of a block has the sense of the block. -/
def SolverModel.BlocksUniform (model : SolverModel K) (foldData : Bool) : Prop :=
  ∀ r ∈ model.constraints, ∀ s ∈ model.constraints,
    r.provenance.isSlackable = true → s.provenance.isSlackable = true →
    r.provenance.folds foldData = true → s.provenance.folds foldData = true →
    r.provenance.blockKey foldData = s.provenance.blockKey foldData → r.sense = s.sense

/-- Every column a row or construct mentions exists. -/
structure SolverModel.WellScoped (model : SolverModel K) : Prop where
  constraints : ∀ row ∈ model.constraints, ∀ e ∈ row.form, e.1 < model.numVars
  quadraticConstraints : ∀ row ∈ model.quadraticConstraints,
    (∀ e ∈ row.linear, e.1 < model.numVars) ∧
      ∀ e ∈ row.quad, e.1.1 < model.numVars ∧ e.1.2 < model.numVars
  indicatorConstraints : ∀ indicator ∈ model.indicatorConstraints,
    indicator.binaryColumn < model.numVars ∧ ∀ e ∈ indicator.form, e.1 < model.numVars
  generalConstraints : ∀ general ∈ model.generalConstraints,
    general.resultColumn < model.numVars ∧ ∀ c ∈ general.argumentColumns, c < model.numVars

end

end Decidb
