import Decidb.Formulation.Bilinear

/-!
# ABS auxiliaries

An ABS auxiliary that neither the sense nor a clause pins from above gets a link. The formulation
derives the range of the argument from the column boxes, and pins the auxiliary by a sign indicator
with two Big-M rows a link or, natively, by one ABS construct a row.
-/

namespace Decidb

open Linear

/-- An auxiliary to pin. Only the lowering arm has a sign indicator. -/
structure AbsMaximizeLinkSpec where
  auxIdx : Nat
  yIdx : Option Nat := none
  absRange : ℚ := 0
  rangeUnbounded : Bool := false
  deriving DecidableEq, Repr

/-! ## The definitional rows -/

/-- The rows `aux >= inner` and `aux >= -inner`. -/
structure AbsConstraintPair where
  c1 : EvaluatedConstraint
  c2 : EvaluatedConstraint

/-- `BuildAbsTagMap` at one auxiliary: the last row of each tag. -/
def absConstraintPair (constraints : List EvaluatedConstraint) (aux : Nat) :
    Option AbsConstraintPair :=
  let tagged := fun isPos : Bool =>
    (constraints.filter fun ec => ec.absAuxIdx = some aux && ec.absIsPosBound = isPos).getLast?
  match tagged true, tagged false with
  | some c1, some c2 => some ⟨c1, c2⟩
  | _, _ => none

/-! ## The range of the argument -/

/-- One term's share of the unsigned reach, and whether an open column was met. -/
def termRangeStep (row : Nat) (lower upper : List ℚ) (skip : Option Nat) (acc : ℚ × Bool)
    (t : LhsTerm) : ℚ × Bool :=
  match t.variableIndex with
  | none => acc
  | some v =>
    if some v = skip then acc
    else
      let coef := |t.rowCoefficients row|
      if coef < coefficientCut then acc
      else
        let lb := lower.getD v 0
        let ub := upper.getD v 0
        if solverInfinity ≤ ub ∨ lb ≤ -solverInfinity then (acc.1, true)
        else (acc.1 + coef * max |lb| |ub|, acc.2)

/-- `DecideRowTermRange`. -/
def decideRowTermRange (terms : List LhsTerm) (row : Nat) (lower upper : List ℚ)
    (skip : Option Nat := none) : ℚ × Bool :=
  terms.foldl (termRangeStep row lower upper skip) (0, false)

/-- One row's share of the reach of the argument, and whether an open column was met. -/
def absReachStep (input : SolverInput) (c1 : EvaluatedConstraint) (aux : Nat) (acc : ℚ × Bool)
    (r : Nat) : Except String (ℚ × Bool) :=
  match c1.rhsValues r with
  | .fin linkRhs =>
    let range := decideRowTermRange c1.lhsTerms r input.lowerBounds input.upperBounds (some aux)
    .ok (max acc.1 (|linkRhs| + range.1), acc.2 || range.2)
  | _ => .error ("The expression inside ABS() evaluates to Infinity at row " ++ toString r ++
      ", so DECIDE cannot bound it. Check that column for an overflow, or exclude the row with " ++
      "WHERE.")

/-- The reach of the argument over all rows. -/
def absReach (input : SolverInput) (c1 : EvaluatedConstraint) (aux : Nat) :
    Except String (ℚ × Bool) :=
  (List.range input.numRows).foldlM (absReachStep input c1 aux) (0, false)

/-- The comparisons that ask the left-hand side to be large, and those that ask it to be small. -/
def Comparison.pushesUp : Comparison → Bool
  | .ge | .gt | .eq => true
  | _ => false

def Comparison.pushesDown : Comparison → Bool
  | .le | .lt | .eq => true
  | _ => false

/-- What one row of another clause asks of the auxiliary, `t` being its term there. -/
def rowDemand (input : SolverInput) (ec : EvaluatedConstraint) (aux : Nat) (t : LhsTerm)
    (demanded : ℚ) (r : Nat) : ℚ :=
  if (ec.groupOf r).isNone then demanded
  else
    let a := t.rowCoefficients r
    if |a| < coefficientCut then demanded
    else
      match decideRowEffectiveBound ec r with
      | .fin k =>
        let (lo, hi) :=
          decideRowSignedRange ec.lhsTerms r input.lowerBounds input.upperBounds (some aux)
        if 0 < a ∧ ec.comparisonType.pushesUp then
          match lo with
          | some lo => max demanded ((k - lo) / a)
          | none => demanded
        else if a < 0 ∧ ec.comparisonType.pushesDown then
          match hi with
          | some hi => max demanded ((k - hi) / a)
          | none => demanded
        else demanded
      | _ => demanded

/-- `DemandedAuxReach`: the floor of the auxiliary's own box counts, its definitional rows do not. -/
def demandedAuxReach (input : SolverInput) (aux : Nat) : ℚ :=
  let floor := match input.lowerBounds[aux]? with
    | some lb => if -solverInfinity < lb then max 0 lb else 0
    | none => 0
  input.constraints.foldl
    (fun demanded ec =>
      if ec.absAuxIdx = some aux then demanded
      else
        match ec.lhsTerms.find? fun t => t.variableIndex = some aux with
        | none => demanded
        | some t => (List.range input.numRows).foldl (rowDemand input ec aux t) demanded)
    floor

/-- The first open column of the argument, to be named in the refusal. -/
def findOpenArgument (input : SolverInput) (c1 : EvaluatedConstraint) (aux : Nat) : Option Nat :=
  c1.lhsTerms.findSome? fun t =>
    match t.variableIndex with
    | none => none
    | some v =>
      if v = aux then none
      else if solverInfinity ≤ input.upperBounds.getD v 0 ∨
          input.lowerBounds.getD v 0 ≤ -solverInfinity then some v
      else none

/-- Lower the ceiling of a column, never raise it. -/
def SolverInput.narrowUpper (input : SolverInput) (v : Nat) (M : ℚ) : SolverInput :=
  if M < input.upperBounds.getD v 0 then { input with upperBounds := input.upperBounds.set v M }
  else input

/-- Derive the range of one link and narrow the column of its auxiliary to it; the state carries the
links done so far. -/
def deriveAbsAuxiliaryBound (varNames : List String) (refuseWhenUnbounded : Bool)
    (state : SolverInput × List AbsMaximizeLinkSpec) (link : AbsMaximizeLinkSpec) :
    Except String (SolverInput × List AbsMaximizeLinkSpec) :=
  let input := state.1
  match absConstraintPair input.constraints link.auxIdx with
  | none => .error "ABS link without its definitional rows"
  | some pair =>
    match absReach input pair.c1 link.auxIdx with
    | .error e => .error e
    | .ok (reach, absUnbounded) =>
      if absUnbounded then
        if !refuseWhenUnbounded then
          .ok (input, state.2 ++ [{ link with rangeUnbounded := true }])
        else
          let name := ((findOpenArgument input pair.c1 link.auxIdx).bind (varNames[·]?)).getD ""
          .error ("ABS over decision variable requires a finite bound on '" ++ name ++
            "' for the Big-M sign-indicator linearization. Add constraints '" ++ name ++
            " >= <lower>' and '" ++ name ++ " <= <upper>'. (Triggered by MAXIMIZE SUM(ABS(...)) " ++
            "or by a hard-direction ABS constraint such as ABS(...) >= K or ABS(...) = K.)")
      else
        let M := max reach (demandedAuxReach input link.auxIdx)
        .ok (input.narrowUpper link.auxIdx M, state.2 ++ [{ link with absRange := M }])

/-- `DeriveAbsAuxiliaryBounds`. -/
def deriveAbsAuxiliaryBounds (varNames : List String) (refuseWhenUnbounded : Bool)
    (input : SolverInput) (links : List AbsMaximizeLinkSpec) :
    Except String (SolverInput × List AbsMaximizeLinkSpec) :=
  links.foldlM (deriveAbsAuxiliaryBound varNames refuseWhenUnbounded) (input, [])

/-! ## The two arms -/

/-- The Big-M rows `aux <= inner + 2M(1 - y)` and `aux <= -inner + 2M y` of one link. -/
def upperEnvelopeRows (pair : AbsConstraintPair) (y : Nat) (absRange : ℚ) :
    List EvaluatedConstraint :=
  let twoM := 2 * absRange
  [{ lhsTerms := pair.c1.lhsTerms ++ [scalarTerm y twoM]
     rhsValues := fun r => (pair.c1.rhsValues r).map (· + twoM)
     comparisonType := .le
     rowGroupIds := pair.c1.rowGroupIds
     numGroups := pair.c1.numGroups },
   { lhsTerms := pair.c2.lhsTerms ++ [scalarTerm y (-twoM)]
     rhsValues := pair.c2.rhsValues
     comparisonType := .le
     rowGroupIds := pair.c2.rowGroupIds
     numGroups := pair.c2.numGroups }]

/-- The rows a link gets on the lowering arm. -/
def linearizeAbsLink (constraints : List EvaluatedConstraint) (link : AbsMaximizeLinkSpec) :
    List EvaluatedConstraint :=
  match absConstraintPair constraints link.auxIdx, link.yIdx with
  | some pair, some y => upperEnvelopeRows pair y link.absRange
  | _, _ => []

/-- `LinearizeAbsMaximize`. -/
def linearizeAbsMaximize (input : SolverInput) (links : List AbsMaximizeLinkSpec) : SolverInput :=
  { input with
    constraints := input.constraints ++ links.flatMap (linearizeAbsLink input.constraints) }

/-- The variable entries of a row without those of the auxiliary. -/
def argumentEntries (indexer : VarIndexer) (c1 : EvaluatedConstraint) (aux r : Nat) :
    Form Nat ℚ :=
  c1.lhsTerms.filterMap fun t =>
    match t.variableIndex with
    | none => none
    | some v =>
      if v = aux ∨ t.rowCoefficients r = 0 then none
      else some (indexer.get v r, t.rowCoefficients r)

/-- The box of the argument column of one row: the reach of `k` less the variable part. -/
def argumentRange (input : SolverInput) (c1 : EvaluatedConstraint) (aux r : Nat) (k : ℚ) :
    AuxRange :=
  let (varsLo, varsHi) :=
    decideRowSignedRange c1.lhsTerms r input.lowerBounds input.upperBounds (some aux)
  ({} : AuxRange).coverRowSided (varsHi.map (k - ·)) (varsLo.map (k - ·)) none

/-- The column an ABS construct takes: the one the argument renames, or a fresh one pinned to it. -/
def absArgumentColumn (indexer : VarIndexer) (input : SolverInput) (c1 : EvaluatedConstraint)
    (aux r : Nat) (k : ℚ) : SolverInput × Nat :=
  let entries := argumentEntries indexer c1 aux r
  let fresh :=
    let (input, t) := input.addGlobalContinuousAux indexer (argumentRange input c1 aux r k)
    (input.pushRow ⟨(t, 1) :: entries, .eq, k⟩, t)
  match entries with
  | [(column, coefficient)] => if coefficient = -1 ∧ k = 0 then (input, column) else fresh
  | _ => fresh

/-- The construct of one row of a link; an excluded row has none. -/
def emitNativeAbsRow (indexer : VarIndexer) (c1 : EvaluatedConstraint) (aux : Nat)
    (input : SolverInput) (r : Nat) : SolverInput :=
  if (c1.groupOf r).isNone then input
  else
    match c1.rhsValues r with
    | .fin k =>
      let (input, t) := absArgumentColumn indexer input c1 aux r k
      input.pushGeneral ⟨.abs, indexer.get aux r, [t]⟩
    | _ => input -- an infinite constant was refused by `absReach`

/-- One link of `EmitNativeAbs`. -/
def emitNativeAbsLink (indexer : VarIndexer) (input : SolverInput) (link : AbsMaximizeLinkSpec) :
    SolverInput :=
  match absConstraintPair input.constraints link.auxIdx with
  | none => input
  | some pair =>
    (List.range input.numRows).foldl (emitNativeAbsRow indexer pair.c1 link.auxIdx) input

/-- `EmitNativeAbs`. -/
def emitNativeAbs (indexer : VarIndexer) (input : SolverInput) (links : List AbsMaximizeLinkSpec) :
    SolverInput :=
  links.foldl (emitNativeAbsLink indexer) input

/-! ## The order of the passes -/

/-- `FormulateModel`, as far as it concerns ABS and products: the products show their exact box while
the ranges are derived, then their declared boxes come back and their rows are emitted. -/
def formulateAbs (native : Bool) (indexer : VarIndexer) (input : SolverInput)
    (products : List BilinearLinkSpec) (links : List AbsMaximizeLinkSpec)
    (varNames : List String) : Except String (SolverInput × List AbsMaximizeLinkSpec) := do
  let box : FormulationBox := ⟨input.lowerBounds, input.upperBounds⟩
  let exposed ← deriveBilinearAuxiliaryBounds input box products varNames
  let (derived, links) ← deriveAbsAuxiliaryBounds varNames (!native) exposed links
  let encoded :=
    if native then emitNativeAbs indexer derived links else linearizeAbsMaximize derived links
  return (linearizeBilinear (restoreDeclaredBoxes input encoded products) box products, links)

end Decidb
