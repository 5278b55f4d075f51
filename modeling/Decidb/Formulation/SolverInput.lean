import Decidb.Linear.System

/-!
# The input of the formulation stage

Execution fills a `SolverInput` with evaluated constraints, the lowering passes rewrite it, and the
model builder turns it into the model a backend sees. Doubles are exact rationals here; the two
infinities a right-hand side may carry are the ends of `Bound`. A column end whose magnitude reaches
`solverInfinity` is open, as it is for every backend.

Columns are flat: the decision columns come first, the global auxiliaries after `globalBlockStart`.
-/

namespace Decidb

open Linear

/-! ## Bounds and comparisons -/

/-- A right-hand side: a finite double or one of the infinities. -/
inductive Bound where
  | negInf
  | fin (k : ℚ)
  | posInf
  deriving DecidableEq, Repr

namespace Bound

/-- The place of a bound in the extended order. -/
def toExt : Bound → WithBot (WithTop ℚ)
  | negInf => ⊥
  | fin k => ((k : WithTop ℚ) : WithBot (WithTop ℚ))
  | posInf => ((⊤ : WithTop ℚ) : WithBot (WithTop ℚ))

theorem toExt_injective : Function.Injective toExt := by
  intro x y h
  cases x <;> cases y <;> simp_all [toExt]

instance : LinearOrder Bound := LinearOrder.lift' toExt toExt_injective

theorem le_def (x y : Bound) : x ≤ y ↔ x.toExt ≤ y.toExt := Iff.rfl

theorem lt_def (x y : Bound) : x < y ↔ x.toExt < y.toExt := Iff.rfl

@[simp] theorem fin_le_fin (x y : ℚ) : fin x ≤ fin y ↔ x ≤ y := by
  simp [le_def, toExt, WithBot.coe_le_coe]

@[simp] theorem fin_lt_fin (x y : ℚ) : fin x < fin y ↔ x < y := by
  simp [lt_def, toExt, WithBot.coe_lt_coe]

@[simp] theorem fin_lt_posInf (x : ℚ) : fin x < posInf :=
  (lt_def _ _).mpr (WithBot.coe_lt_coe.mpr (WithTop.coe_lt_top x))

@[simp] theorem fin_le_posInf (x : ℚ) : fin x ≤ posInf := (fin_lt_posInf x).le

@[simp] theorem negInf_le_fin (x : ℚ) : negInf ≤ fin x := by simp [le_def, toExt]

@[simp] theorem negInf_lt_fin (x : ℚ) : negInf < fin x := by simp [lt_def, toExt]

@[simp] theorem not_posInf_le_fin (x : ℚ) : ¬ posInf ≤ fin x := by
  rw [not_le]; exact fin_lt_posInf x

@[simp] theorem not_posInf_lt_fin (x : ℚ) : ¬ posInf < fin x := by
  rw [not_lt]; exact fin_le_posInf x

@[simp] theorem not_fin_le_negInf (x : ℚ) : ¬ fin x ≤ negInf := by
  rw [not_le]; exact negInf_lt_fin x

@[simp] theorem not_fin_lt_negInf (x : ℚ) : ¬ fin x < negInf := by
  rw [not_lt]; exact negInf_le_fin x

/-- Apply a function of doubles that leaves the infinities where they are. -/
def map (f : ℚ → ℚ) : Bound → Bound
  | negInf => negInf
  | fin k => fin (f k)
  | posInf => posInf

/-- A bound with a finite amount moved across. -/
def sub (k : Bound) (c : ℚ) : Bound := k.map (· - c)

end Bound

/-- The comparisons a constraint may carry. -/
inductive Comparison where
  | lt
  | le
  | eq
  | ne
  | ge
  | gt
  deriving DecidableEq, Repr

namespace Comparison

/-- `FlipComparisonExpression`. -/
def flip : Comparison → Comparison
  | lt => gt
  | le => ge
  | eq => eq
  | ne => ne
  | ge => le
  | gt => lt

/-- The comparison with its strictness dropped. -/
def relax : Comparison → Comparison
  | lt => le
  | gt => ge
  | c => c

/-- A value meets a comparison against a bound. -/
def Holds : Comparison → ℚ → Bound → Prop
  | lt, v, k => Bound.fin v < k
  | le, v, k => Bound.fin v ≤ k
  | eq, v, k => Bound.fin v = k
  | ne, v, k => Bound.fin v ≠ k
  | ge, v, k => k ≤ Bound.fin v
  | gt, v, k => k < Bound.fin v

instance (c : Comparison) (v : ℚ) (k : Bound) : Decidable (c.Holds v k) := by
  cases c <;> unfold Holds <;> infer_instance

@[simp] theorem holds_lt (v : ℚ) (k : Bound) : lt.Holds v k ↔ Bound.fin v < k := Iff.rfl

@[simp] theorem holds_le (v : ℚ) (k : Bound) : le.Holds v k ↔ Bound.fin v ≤ k := Iff.rfl

@[simp] theorem holds_eq (v : ℚ) (k : Bound) : eq.Holds v k ↔ Bound.fin v = k := Iff.rfl

@[simp] theorem holds_ne (v : ℚ) (k : Bound) : ne.Holds v k ↔ Bound.fin v ≠ k := Iff.rfl

@[simp] theorem holds_ge (v : ℚ) (k : Bound) : ge.Holds v k ↔ k ≤ Bound.fin v := Iff.rfl

@[simp] theorem holds_gt (v : ℚ) (k : Bound) : gt.Holds v k ↔ k < Bound.fin v := Iff.rfl

end Comparison

/-! ## Variables and columns -/

/-- The domains a decision variable may be declared over. -/
inductive VarType where
  | boolean
  | integer
  | real
  deriving DecidableEq, Repr

/-- Where the column of a decision variable at a row lies. -/
inductive DecideVarScope where
  /-- One column per row, at this offset within the row's slots. -/
  | row (offset : Nat)
  /-- One column per entity of a source table. -/
  | entity (base : Nat) (rowToEntity : Nat → Nat)
  /-- One column for the whole query. -/
  | scalar (column : Nat)

/-- The column of a scope at a row, with `numRowVars` slots per row. -/
def DecideVarScope.column (numRowVars : Nat) (row : Nat) : DecideVarScope → Nat
  | .row offset => row * numRowVars + offset
  | .entity base rowToEntity => base + rowToEntity row
  | .scalar column => column

/-- Maps a decision variable and a row to a flat column; every such column lies before the global
block. -/
structure VarIndexer where
  numRows : Nat
  numRowVars : Nat
  globalBlockStart : Nat
  varScope : Nat → DecideVarScope
  column_lt : ∀ v row, row < numRows → (varScope v).column numRowVars row < globalBlockStart

/-- The flat column of variable `v` at `row`. -/
def VarIndexer.get (indexer : VarIndexer) (v row : Nat) : Nat :=
  (indexer.varScope v).column indexer.numRowVars row

theorem VarIndexer.get_lt (indexer : VarIndexer) (v : Nat) {row : Nat}
    (h : row < indexer.numRows) : indexer.get v row < indexer.globalBlockStart :=
  indexer.column_lt v row h

/-- The indexer of a query whose variables are all row-scoped, with `k + 1` slots a row. -/
def VarIndexer.rowScoped (numRows k : Nat) : VarIndexer where
  numRows
  numRowVars := k + 1
  globalBlockStart := numRows * (k + 1)
  varScope := fun v => .row (min v k)
  column_lt := by
    intro v row h
    have h1 : (row + 1) * (k + 1) ≤ numRows * (k + 1) := Nat.mul_le_mul_right _ h
    have h2 : min v k ≤ k := Nat.min_le_right v k
    simp only [DecideVarScope.column]
    nlinarith

/-- The magnitude from which a backend reads a bound as open. -/
def solverInfinity : ℚ := 10 ^ 20

/-- The bound an open end of a column is declared with. -/
def openBound : ℚ := 10 ^ 30

/-- The box and kind of one solver column. -/
structure ColumnBox where
  lower : ℚ
  upper : ℚ
  isInteger : Bool
  deriving DecidableEq, Repr

/-- The values a column may take. -/
structure ColumnBox.Admits (b : ColumnBox) (x : ℚ) : Prop where
  lower_le : b.lower ≤ -solverInfinity ∨ b.lower ≤ x
  le_upper : solverInfinity ≤ b.upper ∨ x ≤ b.upper
  integral : b.isInteger = true → x.den = 1

/-! ## Rows and constructs -/

/-- Coefficients below this magnitude are dropped from a row. -/
def coefficientCut : ℚ := 1 / 10 ^ 15

/-- A row over flat columns, global ones included. -/
abbrev RawConstraint := Row Nat ℚ

/-- The constructs a backend may take whole. -/
inductive GeneralConstraintKind where
  | abs
  | min
  | max
  deriving DecidableEq, Repr

/-- `resultColumn = ABS/MIN/MAX(argumentColumns)`, stated natively. -/
structure GeneralConstraintSpec where
  kind : GeneralConstraintKind
  resultColumn : Nat
  argumentColumns : List Nat
  deriving DecidableEq, Repr

/-- What a backend makes of a general constraint. -/
def GeneralConstraintSpec.Holds (gc : GeneralConstraintSpec) (a : Nat → ℚ) : Prop :=
  match gc.kind with
  | .abs => gc.argumentColumns.map (fun c => |a c|) = [a gc.resultColumn]
  | .max => (gc.argumentColumns.map a).max? = some (a gc.resultColumn)
  | .min => (gc.argumentColumns.map a).min? = some (a gc.resultColumn)

/-- A row that holds whenever `binaryColumn` has the value `binaryValue`. -/
structure IndicatorConstraintSpec where
  binaryColumn : Nat
  binaryValue : ℚ
  row : RawConstraint

/-- What a backend makes of an indicator constraint. -/
def IndicatorConstraintSpec.Holds (ic : IndicatorConstraintSpec) (a : Nat → ℚ) : Prop :=
  a ic.binaryColumn = ic.binaryValue → ic.row.Holds a

/-! ## Evaluated constraints -/

/-- Which canonical reducer owns a term. -/
inductive LinearTermReduction where
  | none
  | sum
  deriving DecidableEq, Repr

/-- One evaluated term. No variable index marks a decision-free term, which is a summand of its own
unless a product left it behind. -/
structure LhsTerm where
  variableIndex : Option Nat
  rowCoefficients : Nat → ℚ
  reduction : LinearTermReduction := .none
  summand : Bool := true

/-- The constant part of a row: the terms with no variable. -/
def decideRowFixedLhsOffset (terms : List LhsTerm) (row : Nat) : ℚ :=
  ((terms.filter fun t => t.variableIndex.isNone).map fun t => t.rowCoefficients row).sum

/-- The variable part of a row, `x v` being the value of variable `v` there. -/
def rowVariablePart (terms : List LhsTerm) (row : Nat) (x : Nat → ℚ) : ℚ :=
  (terms.map fun t => match t.variableIndex with
    | none => 0
    | some v => t.rowCoefficients row * x v).sum

/-- The value of a row's left-hand side, constants included. -/
def rowValue (terms : List LhsTerm) (row : Nat) (x : Nat → ℚ) : ℚ :=
  rowVariablePart terms row x + decideRowFixedLhsOffset terms row

/-- One evaluated product of two decisions. -/
structure BilinearTerm where
  varA : Nat
  varB : Nat
  rowCoefficients : Nat → ℚ

/-- The two aggregates that take an extremum. -/
inductive Extremum where
  | min
  | max
  deriving DecidableEq, Repr

/-- One evaluated squared group, over its inner terms. -/
structure QuadraticGroup where
  sign : ℚ
  innerTerms : List LhsTerm

/-- A constraint with its coefficients evaluated per row. `rowGroupIds` is `none` when every row is
in one implicit group; a row mapped to `none` is excluded by WHEN or by a NULL key. -/
structure EvaluatedConstraint where
  lhsTerms : List LhsTerm
  rhsValues : Nat → Bound
  comparisonType : Comparison
  lhsIsAggregate : Bool := false
  /-- Set on a hard MIN/MAX, which reads as an ordinary SUM until it is linearized. -/
  minmaxAggType : Option Extremum := none
  /-- Set on a `<>`. -/
  neClauseIdx : Option Nat := none
  neAvgRhsScale : Bool := false
  /-- Set on the envelope rows of an ABS auxiliary. -/
  absAuxIdx : Option Nat := none
  /-- Of the two envelope rows, the one that says `aux >= inner`. -/
  absIsPosBound : Bool := false
  bilinearTerms : List BilinearTerm := []
  quadraticGroups : List QuadraticGroup := []
  rowGroupIds : Option (Nat → Option Nat) := none
  numGroups : Nat := 0

namespace EvaluatedConstraint

/-- The group of a row; `none` when the row is excluded. -/
def groupOf (ec : EvaluatedConstraint) (row : Nat) : Option Nat :=
  match ec.rowGroupIds with
  | none => some 0
  | some ids => ids row

/-- The value of the left-hand side at a row. -/
def lhsValue (ec : EvaluatedConstraint) (indexer : VarIndexer) (a : Nat → ℚ) (row : Nat) : ℚ :=
  rowValue ec.lhsTerms row fun v => a (indexer.get v row)

/-- What an ordinary per-row constraint asks: the comparison on every row that is not excluded. -/
def PerRowHolds (ec : EvaluatedConstraint) (indexer : VarIndexer) (numRows : Nat)
    (a : Nat → ℚ) : Prop :=
  ∀ row, row < numRows → (ec.groupOf row).isSome →
    ec.comparisonType.Holds (ec.lhsValue indexer a row) (ec.rhsValues row)

/-- How many groups the constraint has. -/
def groupCount (ec : EvaluatedConstraint) : Nat :=
  match ec.rowGroupIds with
  | none => 1
  | some _ => max ec.numGroups 1

end EvaluatedConstraint

/-- The rows of a group, in order. -/
def groupRows (ec : EvaluatedConstraint) (numRows g : Nat) : List Nat :=
  (List.range numRows).filter fun r => ec.groupOf r = some g

/-- The rows of every group share their bound. -/
def RhsUniform (ec : EvaluatedConstraint) (numRows : Nat) : Prop :=
  ∀ r r' g, r < numRows → r' < numRows → ec.groupOf r = some g → ec.groupOf r' = some g →
    ec.rhsValues r = ec.rhsValues r'

/-- The bound a row imposes on its variable part. -/
def decideRowEffectiveBound (ec : EvaluatedConstraint) (row : Nat) : Bound :=
  (ec.rhsValues row).sub (decideRowFixedLhsOffset ec.lhsTerms row)

/-- One term's share of the signed range; `none` is an open end. -/
def signedRangeStep (row : Nat) (lower upper : List ℚ) (skip : Option Nat)
    (acc : Option ℚ × Option ℚ) (t : LhsTerm) : Option ℚ × Option ℚ :=
  match t.variableIndex with
  | none => acc
  | some v =>
    if some v = skip then acc
    else
      let coef := t.rowCoefficients row
      if |coef| < coefficientCut then acc
      else
        match lower[v]?, upper[v]? with
        | some lb, some ub =>
          let lbOpen := lb ≤ -solverInfinity
          let ubOpen := solverInfinity ≤ ub
          -- a negative coefficient takes its low end from the column's high end
          let loFromUb := coef < 0
          (if (if loFromUb then ubOpen else lbOpen) then none
            else acc.1.map (· + coef * if loFromUb then ub else lb),
           if (if loFromUb then lbOpen else ubOpen) then none
            else acc.2.map (· + coef * if loFromUb then lb else ub))
        | _, _ => (none, none)

/-- The signed reach of the variable part of a row over a box; `none` is an infinite end. -/
def decideRowSignedRange (terms : List LhsTerm) (row : Nat) (lower upper : List ℚ)
    (skip : Option Nat := none) : Option ℚ × Option ℚ :=
  terms.foldl (signedRangeStep row lower upper skip) (some 0, some 0)

/-! ## The reach of an auxiliary -/

/-- The reach of a family of row expressions, constants included. Both ends start at zero; an end is
meaningful when its flag is off. -/
structure AuxRange where
  lo : ℚ := 0
  hi : ℚ := 0
  loUnbounded : Bool := false
  hiUnbounded : Bool := false
  unboundedVar : Option Nat := none
  deriving DecidableEq, Repr

namespace AuxRange

def unbounded (r : AuxRange) : Bool := r.loUnbounded || r.hiUnbounded

def span (r : AuxRange) : ℚ := r.hi - r.lo

def markLoUnbounded (r : AuxRange) (var : Option Nat) : AuxRange :=
  { r with
    loUnbounded := true
    unboundedVar := if r.unbounded then r.unboundedVar else var }

def markHiUnbounded (r : AuxRange) (var : Option Nat) : AuxRange :=
  { r with
    hiUnbounded := true
    unboundedVar := if r.unbounded then r.unboundedVar else var }

def markUnbounded (r : AuxRange) (var : Option Nat) : AuxRange :=
  (r.markLoUnbounded var).markHiUnbounded var

/-- Widen to also cover another range. -/
def cover (r other : AuxRange) : AuxRange where
  lo := min r.lo other.lo
  hi := max r.hi other.hi
  loUnbounded := r.loUnbounded || other.loUnbounded
  hiUnbounded := r.hiUnbounded || other.hiUnbounded
  unboundedVar := if !r.unbounded && other.unbounded then other.unboundedVar else r.unboundedVar

/-- Extend by one row expression, each end on its own. -/
def coverRowSided (r : AuxRange) (rowLo rowHi : Option ℚ) (var : Option Nat) : AuxRange :=
  let r' := match rowLo with
    | none => r.markLoUnbounded var
    | some l => { r with lo := min r.lo l }
  match rowHi with
  | none => r'.markHiUnbounded var
  | some h => { r' with hi := max r'.hi h }

/-- A value lies in the reach. -/
def Contains (r : AuxRange) (x : ℚ) : Prop :=
  (r.loUnbounded = true ∨ r.lo ≤ x) ∧ (r.hiUnbounded = true ∨ x ≤ r.hi)

end AuxRange

/-! ## The solver input -/

/-- The formulation under construction: decision boxes, evaluated constraints, and the global block
the passes append to. -/
structure SolverInput where
  numRows : Nat
  variableTypes : List VarType
  lowerBounds : List ℚ
  upperBounds : List ℚ
  rigidLowerBounds : List ℚ := []
  rigidUpperBounds : List ℚ := []
  constraints : List EvaluatedConstraint := []
  globalColumns : List ColumnBox := []
  globalConstraints : List RawConstraint := []
  generalConstraints : List GeneralConstraintSpec := []
  indicatorConstraints : List IndicatorConstraintSpec := []

namespace SolverInput

/-- The box of a decision variable; `none` past the declared variables. -/
def variableBox (input : SolverInput) (v : Nat) : Option ColumnBox :=
  match input.lowerBounds[v]?, input.upperBounds[v]? with
  | some lb, some ub => some ⟨lb, ub, input.variableTypes[v]? ≠ some .real⟩
  | _, _ => none

/-- Append a continuous auxiliary boxed by `range` and return its column. -/
def addGlobalContinuousAux (input : SolverInput) (indexer : VarIndexer) (range : AuxRange) :
    SolverInput × Nat :=
  ({ input with
      globalColumns := input.globalColumns ++
        [⟨if range.loUnbounded then -openBound else range.lo,
          if range.hiUnbounded then openBound else range.hi, false⟩] },
    indexer.globalBlockStart + input.globalColumns.length)

/-- Append a binary auxiliary and return its column. -/
def addGlobalBinaryAux (input : SolverInput) (indexer : VarIndexer) : SolverInput × Nat :=
  ({ input with globalColumns := input.globalColumns ++ [⟨0, 1, true⟩] },
    indexer.globalBlockStart + input.globalColumns.length)

/-- Append a row over flat columns. -/
def pushRow (input : SolverInput) (r : RawConstraint) : SolverInput :=
  { input with globalConstraints := input.globalConstraints ++ [r] }

/-- Append a construct for the backend. -/
def pushGeneral (input : SolverInput) (gc : GeneralConstraintSpec) : SolverInput :=
  { input with generalConstraints := input.generalConstraints ++ [gc] }

/-- Append an indicator row. -/
def pushIndicator (input : SolverInput) (ic : IndicatorConstraintSpec) : SolverInput :=
  { input with indicatorConstraints := input.indicatorConstraints ++ [ic] }

/-- The decision columns lie in their boxes. -/
def InBoxes (input : SolverInput) (indexer : VarIndexer) (a : Nat → ℚ) : Prop :=
  ∀ v (box : ColumnBox), input.variableBox v = some box → ∀ row, row < input.numRows →
    box.Admits (a (indexer.get v row))

/-- An assignment satisfies every box, row and construct of the flat block. -/
structure Holds (input : SolverInput) (indexer : VarIndexer) (a : Nat → ℚ) : Prop where
  inBoxes : input.InBoxes indexer a
  globals : ∀ i (box : ColumnBox), input.globalColumns[i]? = some box →
    box.Admits (a (indexer.globalBlockStart + i))
  rows : ∀ r ∈ input.globalConstraints, r.Holds a
  generals : ∀ gc ∈ input.generalConstraints, gc.Holds a
  indicators : ∀ ic ∈ input.indicatorConstraints, ic.Holds a

/-- The number of flat columns so far. -/
def width (input : SolverInput) (indexer : VarIndexer) : Nat :=
  indexer.globalBlockStart + input.globalColumns.length

/-- The input as a system over its flat columns. -/
def system (input : SolverInput) (indexer : VarIndexer) : System ℚ :=
  ⟨input.width indexer, input.Holds indexer⟩

/-- Everything in the flat block mentions only columns that exist. -/
structure WellScoped (input : SolverInput) (indexer : VarIndexer) : Prop where
  numRows_eq : input.numRows = indexer.numRows
  rows : ∀ r ∈ input.globalConstraints, ∀ t ∈ r.form, t.1 < input.width indexer
  generals : ∀ gc ∈ input.generalConstraints,
    gc.resultColumn < input.width indexer ∧ ∀ c ∈ gc.argumentColumns, c < input.width indexer
  indicators : ∀ ic ∈ input.indicatorConstraints,
    ic.binaryColumn < input.width indexer ∧ ∀ t ∈ ic.row.form, t.1 < input.width indexer

end SolverInput

end Decidb
