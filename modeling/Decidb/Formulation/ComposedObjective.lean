import Decidb.Formulation.ComposedMinMax
import Decidb.Optimizer.RewriteMinMax

/-!
# Composed MIN/MAX objectives

An additive objective with a MIN or MAX in it is taken apart at plan time. Its MIN/MAX terms become
pinned auxiliaries with a coefficient of their own, its SUM and AVG terms are written back as
coefficient columns, and the model builder reads those beside the reduction marks of the objective the
plan was prepared with, which is the placeholder the rewrite left.
-/

namespace Decidb

open Linear

/-- `DecideSense`. -/
inductive DecideSense where
  | minimize
  | maximize
  deriving DecidableEq, Repr

/-- A value no other value of the set improves on. -/
def DecideSense.IsBest (sense : DecideSense) (s : Set ℚ) (v : ℚ) : Prop :=
  match sense with
  | .minimize => IsLeast s v
  | .maximize => IsGreatest s v

/-- The linear objective of a `SolverInput`: parallel lists of terms, and the coefficients of the
global columns, zero where none is listed. -/
structure LinearObjective where
  objectiveVariableIndices : List (Option Nat) := []
  objectiveCoefficients : List (Nat → ℚ) := []
  objectiveTermReductions : List LinearTermReduction := []
  globalObjCoeffs : Form Nat ℚ := []

/-- The entries of one objective term. A query-wide decision that is not marked as reduced enters
once, with its coefficient on the first row. -/
def objectiveTermEntries (indexer : VarIndexer) (v : Nat) (col : Nat → ℚ) (isReduced : Bool) :
    Form Nat ℚ :=
  match indexer.varScope v with
  | .scalar _ =>
    if isReduced then (List.range indexer.numRows).map fun r => (indexer.get v r, col r)
    else [(indexer.get v 0, col 0)]
  | _ => (List.range indexer.numRows).map fun r => (indexer.get v r, col r)

/-- The linear objective `SolverModel::Build` gives the model. -/
def buildLinearObjective (indexer : VarIndexer) (obj : LinearObjective) : Form Nat ℚ :=
  obj.globalObjCoeffs ++ obj.objectiveVariableIndices.zipIdx.flatMap fun (v?, termIdx) =>
    match v?, obj.objectiveCoefficients[termIdx]? with
    | some v, some col =>
      objectiveTermEntries indexer v col (obj.objectiveTermReductions[termIdx]? = some .sum)
    | _, _ => []

/-! ## The rewrite of the objective -/

/-- A lone MIN/MAX that carries a factor. -/
def AggregateSum.isScaledLoneMinMax : AggregateSum → Bool
  | .reducer (some _) agg => agg.isDecideMinMax
  | _ => false

/-- `RewriteComposedMinMaxObjectiveTop`: the terms of a composed objective; `none` leaves the
objective to the other rewrites. -/
def rewriteComposedMinMaxObjectiveTop (sense : DecideSense) (wrapped : Bool) (obj : AggregateSum) :
    Except String (Option (List ComposedMinMaxTerm)) :=
  if wrapped then
    if obj.additiveContainsMinMax && (obj.isAddNode || obj.isSubNode) then
      .error ("Composed MIN/MAX in DECIDE v1 does not support outer WHEN/PER " ++
        "wrappers on the objective. Restructure the objective.")
    else .ok none
  else if obj.isScaledLoneMinMax || ((obj.isAddNode || obj.isSubNode) && obj.additiveContainsMinMax)
  then (walkComposedLhs (sense = .minimize) false obj 1).map some
  else .ok none

/-! ## The lowering -/

/-- One row of one inner term, as the column of its variable is added to. -/
def composedObjectiveColumn (ta : ComposedMinMaxTermData) (avgDivisor : ℚ) (inner : LhsTerm) :
    Nat → ℚ := fun row =>
  if ta.filterMask row then inner.rowCoefficients row * ta.sign * ta.scale / avgDivisor else 0

/-- Add one term's columns to the accumulator, keyed by decision variable. -/
def accumulateObjectiveTerm (numRows : Nat) (acc : Form Nat (Nat → ℚ)) (ta : ComposedMinMaxTermData) :
    Form Nat (Nat → ℚ) :=
  if ta.aggName.isMinMax then acc
  else
    let rows := ta.rows numRows
    if ta.aggName = .avg ∧ rows.length = 0 then acc
    else
      let avgDivisor : ℚ := if ta.aggName = .avg then rows.length else 1
      ta.innerTerms.foldl (fun acc inner =>
        match inner.variableIndex with
        | none => acc
        | some v => Form.addColumn acc v (composedObjectiveColumn ta avgDivisor inner)) acc

/-- The objective rewritten from its pinned terms. Its reduction marks stay as they are. -/
def LinearObjective.rebuild (obj : LinearObjective) (numRows : Nat)
    (terms : List ComposedMinMaxTermData) : LinearObjective :=
  let minmax := terms.filter fun ta => ta.aggName.isMinMax
  let accum := terms.foldl (accumulateObjectiveTerm numRows) []
  { obj with
    globalObjCoeffs := obj.globalObjCoeffs ++
      minmax.map fun ta => (ta.zIdx, (ta.sign : ℚ) * ta.scale)
    objectiveVariableIndices := accum.map fun p => some p.1
    objectiveCoefficients := accum.map (·.2) }

/-- `LinearizeComposedMinMaxObjective`. -/
def linearizeComposedMinMaxObjective (input : SolverInput) (indexer : VarIndexer)
    (obj : LinearObjective) (terms : List ComposedMinMaxTermData) (varNames : List String)
    (policy : NativeConstructPolicy) : Except String (SolverInput × LinearObjective) :=
  match emitComposedMinMaxAuxiliaries input indexer terms varNames policy with
  | .error e => .error e
  | .ok (linked, terms) => .ok (linked, obj.rebuild input.numRows terms)

/-- An objective on the composed path, from its expression to what the model builder reads; `none` off
that path. The placeholder it is replaced with prepares no term. -/
def lowerComposedObjective (input : SolverInput) (indexer : VarIndexer) (sense : DecideSense)
    (wrapped : Bool) (obj : AggregateSum) (varNames : List String) (policy : NativeConstructPolicy) :
    Except String (Option (SolverInput × LinearObjective)) :=
  match rewriteComposedMinMaxObjectiveTop sense wrapped obj with
  | .error e => .error e
  | .ok none => .ok none
  | .ok (some terms) =>
    match evaluateComposedClause "objective" input.numRows terms with
    | .error e => .error e
    | .ok evaluated =>
      (linearizeComposedMinMaxObjective input indexer {} evaluated varNames policy).map some

end Decidb
