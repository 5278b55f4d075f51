import Decidb.Formulation.SolverInput

/-!
# Implied upper bounds

`DecidePropagateImpliedBounds` derives upper bounds from the knapsack pattern: in a `<=` or `=` over
non-negative columns with non-negative coefficients, every variable is at most the bound over its
combined coefficient.
-/

namespace Decidb

/-- Whether a row is excluded from the constraint. -/
def EvaluatedConstraint.excludes (ec : EvaluatedConstraint) (row : Nat) : Bool :=
  (ec.groupOf row).isNone

/-- The constraints the pass reads: plain linear `<=` and `=` without excluded rows, all of whose
columns and coefficients are non-negative. -/
def readsImpliedBounds (ec : EvaluatedConstraint) (lower : List ℚ) (numRows : Nat) : Bool :=
  (ec.comparisonType = .le || ec.comparisonType = .eq) &&
  ec.bilinearTerms.isEmpty && ec.quadraticGroups.isEmpty &&
  ec.minmaxAggType.isNone && ec.neClauseIdx.isNone && ec.absAuxIdx.isNone &&
  (List.range numRows).all (fun r => !ec.excludes r) &&
  ec.lhsTerms.all (fun t => match t.variableIndex with
    | none => true
    | some v => decide (0 ≤ lower.getD v 0)) &&
  ec.lhsTerms.all fun t =>
    (List.range numRows).all fun r => decide (-coefficientCut ≤ t.rowCoefficients r)

/-- The coefficients of all terms that name a variable, together. -/
def combinedCoefficient (terms : List LhsTerm) (v row : Nat) : ℚ :=
  ((terms.filter fun t => t.variableIndex = some v).map fun t => t.rowCoefficients row).sum

/-- One row's share of the bound on `v`; `none` once a row leaves `v` unconstrained. -/
def impliedBoundStep (ec : EvaluatedConstraint) (v : Nat) (acc : Option Bound) (row : Nat) :
    Option Bound :=
  match acc with
  | none => none
  | some bound =>
    let a := combinedCoefficient ec.lhsTerms v row
    let k := ec.rhsValues row
    if ec.excludes row || a ≤ coefficientCut then none
    else if k < .fin 0 then none
    else some (max bound (k.map (· / a)))

/-- The bound a constraint implies on `v`, over all rows. -/
def impliedBound (ec : EvaluatedConstraint) (v numRows : Nat) : Option Bound :=
  (List.range numRows).foldl (impliedBoundStep ec v) (some (.fin 0))

/-- Write the bound of one variable, if it is one and tightens the column. -/
def writeImpliedBound (ec : EvaluatedConstraint) (lower : List ℚ) (numRows : Nat) (upper : List ℚ)
    (v : Nat) : List ℚ :=
  match impliedBound ec v numRows with
  | some (.fin bound) =>
    if bound < upper.getD v 0 ∧ lower.getD v 0 ≤ bound then upper.set v bound else upper
  | _ => upper

/-- The variables of a constraint, each once, in the order of their first terms. -/
def termVariables (terms : List LhsTerm) : List Nat :=
  (terms.filterMap fun t => t.variableIndex).reverse.dedup.reverse

/-- `DecidePropagateImpliedBounds`. -/
def decidePropagateImpliedBounds (constraints : List EvaluatedConstraint) (lower upper : List ℚ)
    (numRows : Nat) : List ℚ :=
  constraints.foldl
    (fun upper ec =>
      if readsImpliedBounds ec lower numRows then
        (termVariables ec.lhsTerms).foldl (writeImpliedBound ec lower numRows) upper
      else upper)
    upper

end Decidb
