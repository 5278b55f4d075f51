import Decidb.Formulation.ImpliedBounds
import Decidb.Optimizer.BoundAbsorption

/-!
# Products of a BOOLEAN and another variable

From the absorbed boxes to the columns the model declares: assembly resolves the boxes and
propagates implied bounds, the formulation exposes the exact box of every product while other
constructs derive their ranges, restores the declared one, and emits the McCormick rows.
-/

namespace Decidb

open Linear

/-- A declared or auxiliary decision variable with its absorbed box. -/
structure DecideVariable where
  name : String
  type : VarType
  box : AbsorbedBox

/-- A product `aux = bool * other`. -/
structure BilinearLinkSpec where
  auxIdx : Nat
  boolVarIdx : Nat
  otherVarIdx : Nat
  deriving DecidableEq, Repr

/-- The box the formulation derives its constants from. -/
structure FormulationBox where
  lower : List ℚ
  upper : List ℚ

/-- An unset lower end is the default floor. -/
def resolveLower (lb : ℚ) : ℚ := if lb ≤ absorbedLowerUnset then 0 else lb

/-- The largest double. -/
def doubleMaximum : ℚ := (2 ^ 53 - 1) * 2 ^ 971

/-- A user bound that contradicts the domain of its variable is refused before anything is
formulated. -/
def checkIntrinsicDomain (v : DecideVariable) : Except String Unit :=
  let isBool := v.type = .boolean
  let L := resolveLower v.box.lower
  let U := v.box.upper
  if U < 0 ∧ 0 ≤ L then
    .error ("DECIDE optimization is infeasible: " ++ v.name ++ " <= " ++ toString U ++
      " cannot hold because " ++ v.name ++ " is " ++
      (if isBool then "BOOLEAN (0 or 1). Drop the bound or change the variable's type."
        else "non-negative (>= 0). Add an explicit lower bound if it may be negative."))
  else if isBool ∧ 1 < L then
    .error ("DECIDE optimization is infeasible: " ++ v.name ++ " >= " ++ toString L ++
      " cannot hold because " ++ v.name ++
      " is BOOLEAN (0 or 1). Drop the bound or change the variable's type.")
  else .ok ()

/-- The rigid ends of a variable: every user-absorbed direction re-opened. -/
def rigidLower (v : DecideVariable) : ℚ :=
  if v.box.lowerRecorded then if v.type = .boolean then 0 else -doubleMaximum
  else resolveLower v.box.lower

def rigidUpper (v : DecideVariable) : ℚ :=
  if v.box.upperRecorded then if v.type = .boolean then 1 else doubleMaximum
  else v.box.upper

/-- The input before implied bounds are propagated. -/
def assembledInput (numRows : Nat) (vars : List DecideVariable)
    (constraints : List EvaluatedConstraint) : SolverInput where
  numRows
  variableTypes := vars.map (·.type)
  lowerBounds := vars.map fun v => resolveLower v.box.lower
  upperBounds := vars.map (·.box.upper)
  rigidLowerBounds := vars.map rigidLower
  rigidUpperBounds := vars.map rigidUpper
  constraints

/-- `BuildSolverInput`, as far as boxes and constraints go. -/
def buildSolverInput (numRows : Nat) (vars : List DecideVariable)
    (constraints : List EvaluatedConstraint) : Except String SolverInput :=
  match vars.forM checkIntrinsicDomain with
  | .error e => .error e
  | .ok () =>
    let input := assembledInput numRows vars constraints
    .ok { input with
      upperBounds := decidePropagateImpliedBounds constraints input.lowerBounds input.upperBounds
        numRows }

/-- A box with both its ends written. -/
def SolverInput.setBox (input : SolverInput) (v : Nat) (lower upper : ℚ) : SolverInput :=
  { input with
    lowerBounds := input.lowerBounds.set v lower
    upperBounds := input.upperBounds.set v upper }

/-- Expose the exact box of one product. -/
def deriveBilinearAuxiliaryBound (box : FormulationBox) (varNames : List String)
    (input : SolverInput) (link : BilinearLinkSpec) : Except String SolverInput :=
  let U := box.upper.getD link.otherVarIdx 0
  let L := box.lower.getD link.otherVarIdx 0
  if solverInfinity ≤ U then
    let name := varNames.getD link.otherVarIdx ""
    .error ("Bilinear term requires a finite upper bound on variable '" ++ name ++
      "'. Add a constraint like '" ++ name ++ " <= <bound>' to provide one.")
  else .ok (input.setBox link.auxIdx (min 0 L) (max 0 U))

/-- `DeriveBilinearAuxiliaryBounds`. -/
def deriveBilinearAuxiliaryBounds (input : SolverInput) (box : FormulationBox)
    (links : List BilinearLinkSpec) (varNames : List String) : Except String SolverInput :=
  links.foldlM (deriveBilinearAuxiliaryBound box varNames) input

/-- A coefficient that is the same on every row. -/
def scalarTerm (v : Nat) (c : ℚ) : LhsTerm where
  variableIndex := some v
  rowCoefficients := fun _ => c

/-- The McCormick rows of one product. -/
def mcCormickRows (box : FormulationBox) (link : BilinearLinkSpec) : List EvaluatedConstraint :=
  let U := box.upper.getD link.otherVarIdx 0
  let L := box.lower.getD link.otherVarIdx 0
  let w := link.auxIdx
  let x := link.otherVarIdx
  let b := link.boolVarIdx
  let ec1 : EvaluatedConstraint :=
    { lhsTerms := [scalarTerm w 1, scalarTerm b (-U)]
      rhsValues := fun _ => .fin 0
      comparisonType := .le }
  let ec2 : EvaluatedConstraint :=
    { lhsTerms := [scalarTerm w 1, scalarTerm x (-1), scalarTerm b (-U)]
      rhsValues := fun _ => .fin (-U)
      comparisonType := .ge }
  let ec3 : EvaluatedConstraint :=
    if L < 0 then
      { lhsTerms := [scalarTerm w 1, scalarTerm x (-1), scalarTerm b (-L)]
        rhsValues := fun _ => .fin (-L)
        comparisonType := .le }
    else
      { lhsTerms := [scalarTerm w 1, scalarTerm x (-1)]
        rhsValues := fun _ => .fin 0
        comparisonType := .le }
  let ec4 : EvaluatedConstraint :=
    { lhsTerms := [scalarTerm w 1, scalarTerm b (-L)]
      rhsValues := fun _ => .fin 0
      comparisonType := .ge }
  if L < 0 then [ec1, ec2, ec3, ec4] else [ec1, ec2, ec3]

/-- One link of `LinearizeBilinear`. -/
def linearizeBilinearLink (box : FormulationBox) (input : SolverInput) (link : BilinearLinkSpec) :
    SolverInput :=
  let L := box.lower.getD link.otherVarIdx 0
  let input := { input with constraints := input.constraints ++ mcCormickRows box link }
  -- declares the column: it has to hold a negative product
  if L < 0 then
    { input with
      lowerBounds := input.lowerBounds.set link.auxIdx (min (input.lowerBounds.getD link.auxIdx 0) L) }
  else input

/-- `LinearizeBilinear`. -/
def linearizeBilinear (input : SolverInput) (box : FormulationBox) (links : List BilinearLinkSpec) :
    SolverInput :=
  links.foldl (linearizeBilinearLink box) input

/-- Write the saved boxes back. -/
def restoreDeclaredBoxes (declared : SolverInput) (input : SolverInput)
    (links : List BilinearLinkSpec) : SolverInput :=
  links.foldl
    (fun input link => input.setBox link.auxIdx (declared.lowerBounds.getD link.auxIdx 0)
      (declared.upperBounds.getD link.auxIdx 0))
    input

/-- `FormulateModel`, as far as it concerns products. -/
def formulateProducts (input : SolverInput) (links : List BilinearLinkSpec)
    (varNames : List String) : Except String SolverInput :=
  let box : FormulationBox := ⟨input.lowerBounds, input.upperBounds⟩
  match deriveBilinearAuxiliaryBounds input box links varNames with
  | .error e => .error e
  | .ok exposed => .ok (linearizeBilinear (restoreDeclaredBoxes input exposed links) box links)

/-- The column box `SolverModel::Build` declares for a decision variable; an inverted one is
refused. -/
def builtColumnBox (input : SolverInput) (v : Nat) : Except String ColumnBox :=
  let lower := input.lowerBounds.getD v 0
  let ceiling : ℚ := if input.variableTypes[v]? = some .boolean then 1 else openBound
  let upper := min ceiling (input.upperBounds.getD v openBound)
  if upper < lower then
    .error ("DECIDE optimization is infeasible: a decision variable has conflicting lower and " ++
      "upper bounds.")
  else .ok ⟨lower, upper, input.variableTypes[v]? ≠ some .real⟩

end Decidb
