import Decidb.Formulation.Bilinear
import Decidb.Formulation.ColumnLayout
import Decidb.Formulation.ExtremumLink

/-!
# Lowering conditional rows

`LowerDecideConstructs` is the last pass of the formulation. A backend that cannot state a condition
gets every conditional row as an ordinary one, relaxed by a constant derived from the column boxes
whenever the condition does not hold.
-/

namespace Decidb

open Linear

/-! ## The boxes the constants are derived from -/

/-- `FormulationBox`, globals included. -/
structure SolvedBox extends FormulationBox where
  globalLower : List ℚ
  globalUpper : List ℚ

/-- `FormulationBox::OfSolvedModel` refers to the vectors of the input, so it shows them as they are
when it is read. -/
def SolvedBox.ofSolvedModel (input : SolverInput) : SolvedBox where
  lower := input.lowerBounds
  upper := input.upperBounds
  globalLower := input.globalColumns.map (·.lower)
  globalUpper := input.globalColumns.map (·.upper)

/-- A global is BOOLEAN or continuous. -/
def SolverInput.isBooleanGlobal (input : SolverInput) (g : Nat) : Bool :=
  (input.globalColumns[g]?.map (·.isInteger)).getD false

/-- `FlatColumnBox`. -/
def flatColumnBox (input : SolverInput) (box : SolvedBox) (layout : ColumnLayout) (col : Nat) :
    ℚ × ℚ :=
  if layout.globalBlockStart ≤ col then
    let g := col - layout.globalBlockStart
    let lo := box.globalLower.getD g 0
    let hi := box.globalUpper.getD g 0
    if input.isBooleanGlobal g then (max lo 0, min hi 1) else (lo, hi)
  else
    let v := (layout.ownerOf col).getD 0
    let hi := box.upper.getD v openBound
    (box.lower.getD v 0, if input.variableTypes[v]? = some .boolean then min hi 1 else hi)

/-- The end of a column's box that an entry of a row reaches for. -/
def reachEnd (hiEnd : Bool) (c : ℚ) (box : ℚ × ℚ) : ℚ :=
  if decide (0 < c) = hiEnd then box.2 else box.1

/-- An end without a finite value. -/
def isOpenEnd (e : ℚ) : Bool := solverInfinity ≤ e || e ≤ -solverInfinity

/-- `FlatRowReach`: how far a left-hand side reaches toward the end its bound is on, or the first column
that is open there. -/
def flatRowReach (input : SolverInput) (box : SolvedBox) (layout : ColumnLayout) (hiEnd : Bool) :
    Form Nat ℚ → Except Nat ℚ
  | [] => .ok 0
  | t :: form =>
    if t.2 = 0 then flatRowReach input box layout hiEnd form
    else
      let e := reachEnd hiEnd t.2 (flatColumnBox input box layout t.1)
      if isOpenEnd e then .error t.1
      else (flatRowReach input box layout hiEnd form).map (t.2 * e + ·)

/-! ## The pass -/

/-- The ordinary row of a conditional one, relaxed by `M` when the condition does not hold. -/
def relaxedRow (ic : IndicatorConstraintSpec) (M : ℚ) : RawConstraint :=
  let hiEnd := ic.row.sense = .le
  if ic.binaryValue = 0 then
    { ic.row with form := ic.row.form ++ [(ic.binaryColumn, if hiEnd then -M else M)] }
  else
    { ic.row with
      form := ic.row.form ++ [(ic.binaryColumn, if hiEnd then M else -M)]
      rhs := ic.row.rhs + if hiEnd then M else -M }

/-- The row one conditional row is lowered to. -/
def lowerIndicator (input : SolverInput) (box : SolvedBox) (layout : ColumnLayout)
    (varNames : List String) (ic : IndicatorConstraintSpec) : Except String RawConstraint :=
  let hiEnd : Bool := ic.row.sense = .le
  match flatRowReach input box layout hiEnd ic.row.form with
  | .error blameCol => throwUnboundedBigMNaming (layout.ownerOf blameCol) varNames "<>"
  | .ok reach =>
    let M := if hiEnd then reach - ic.row.rhs else ic.row.rhs - reach
    .ok (relaxedRow ic (max M 0 + 1))

/-- `LowerDecideConstructs`. -/
def lowerDecideConstructs (input : SolverInput) (layout : ColumnLayout) (box : SolvedBox)
    (varNames : List String) (constructsNotEqual : Bool) : Except String SolverInput :=
  if constructsNotEqual || input.indicatorConstraints.isEmpty then .ok input
  else
    match input.indicatorConstraints.mapM (lowerIndicator input box layout varNames) with
    | .error e => .error e
    | .ok rows =>
      .ok { input with
        globalConstraints := input.globalConstraints ++ rows
        indicatorConstraints := [] }

/-! ## The columns the model declares -/

/-- One column of the model. -/
structure BuiltColumn where
  lower : ℚ
  upper : ℚ
  isInteger : Bool
  isBinary : Bool

namespace BuiltColumn

/-- The ends of the values a column may take; a binary column takes none outside the unit interval. -/
def lo (b : BuiltColumn) : ℚ := if b.isBinary then max b.lower 0 else b.lower

def hi (b : BuiltColumn) : ℚ := if b.isBinary then min b.upper 1 else b.upper

/-- The values a column may take. -/
structure Admits (b : BuiltColumn) (x : ℚ) : Prop where
  lo_le : b.lo ≤ -solverInfinity ∨ b.lo ≤ x
  le_hi : solverInfinity ≤ b.hi ∨ x ≤ b.hi
  integral : b.isInteger = true → x.den = 1

end BuiltColumn

/-- The configuration `SolverModel::Build` gives every column of a decision variable. -/
def builtVariableColumn (input : SolverInput) (v : Nat) : BuiltColumn :=
  let type := input.variableTypes[v]?
  let lower := input.lowerBounds.getD v 0
  let ceiling : ℚ := if type = some .boolean then 1 else openBound
  let upper := min ceiling (input.upperBounds.getD v openBound)
  { lower
    upper
    isInteger := type ≠ some .real
    -- a pin outside the unit interval makes the column a plain integer
    isBinary := type = some .boolean && !(decide (lower < 0) || decide (1 < upper)) }

/-- The column `SolverModel::Build` declares for a global. -/
def builtGlobalColumn (box : ColumnBox) : BuiltColumn where
  lower := box.lower
  upper := box.upper
  isInteger := box.isInteger
  isBinary := box.isInteger

/-- An assignment lies in the column boxes of the model: every instance of a variable in the
variable's, every global in its own. -/
structure InBuiltBoxes (input : SolverInput) (layout : ColumnLayout) (a : Nat → ℚ) : Prop where
  decisions : ∀ v inst, inst < layout.numInstances v →
    (builtVariableColumn input v).Admits (a (layout.instanceColumn v inst))
  globals : ∀ g box, input.globalColumns[g]? = some box →
    (builtGlobalColumn box).Admits (a (layout.globalBlockStart + g))

end Decidb
