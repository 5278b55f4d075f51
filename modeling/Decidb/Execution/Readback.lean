import Decidb.Diagnostics.RepairSearch
import Decidb.Formulation.Proofs.ColumnLayoutProofs

/-!
# Reading a solution back

`GetData` puts the input rows out again, chunk by chunk, with one more column for every declared variable,
auxiliaries included. A value is cast by the type its variable was declared with: the declarations give a
user's variable its type, the rewrites of ABS, of products, of NORM and of IN that of an auxiliary.
-/

namespace Decidb

open Linear

/-! ## Declared types -/

/-- The SQL types of declared variables and of what is rewritten. -/
inductive LogicalType where
  | boolean
  | integer
  | bigint
  | hugeint
  | decimal
  | float
  | double
  deriving DecidableEq, Repr

def LogicalType.isIntegral : LogicalType → Bool
  | integer | bigint | hugeint => true
  | _ => false

/-- A declared variable with its type; `isBooleanVar` if its domain is `0/1`. -/
structure DeclaredVariable where
  name : String
  returnType : LogicalType
  isBooleanVar : Bool
  deriving DecidableEq, Repr

/-- What a user declares. -/
inductive TypeMarker where
  | boolVariable
  | intVariable
  | realVariable
  deriving DecidableEq, Repr

/-- A user's variable. -/
def TypeMarker.declare (name : String) : TypeMarker → DeclaredVariable
  | boolVariable => ⟨name, .integer, true⟩
  | intVariable => ⟨name, .bigint, false⟩
  | realVariable => ⟨name, .double, false⟩

/-- What the rewrites declare. -/
inductive AuxiliaryVariable where
  /-- `FindAndReplaceBilinear`: a product with a Boolean, of another one or of a factor of this type; none if
  the factor is not over one variable. -/
  | product (bothBool : Bool) (otherType : Option LogicalType)
  /-- `FindAndReplaceAbs`: the value of an ABS over an expression of this type. -/
  | abs (innerType : LogicalType)
  /-- The side an ABS is on. -/
  | absSide
  /-- The indicators of NORM and of IN. -/
  | indicator
  deriving DecidableEq, Repr

/-- An auxiliary variable. -/
def AuxiliaryVariable.declare (name : String) : AuxiliaryVariable → DeclaredVariable
  | product bothBool otherType =>
    let otherIsIntegerTyped := otherType.any fun rt => !(rt = .double || rt = .float)
    ⟨name, if bothBool || otherIsIntegerTyped then .integer else .double, bothBool⟩
  | abs innerType =>
    let innerIsInteger := innerType.isIntegral || innerType = .boolean
    ⟨name, if innerIsInteger then .integer else .double, false⟩
  | absSide => ⟨name, .boolean, true⟩
  | indicator => ⟨name, .integer, true⟩

/-! ## One value -/

/-- The variable that is refused, and the number it is refused for. -/
structure ReadbackError where
  varName : String
  rounded : ℤ
  deriving DecidableEq, Repr

/-- `lo` and `hi`: the 32-bit integers, or those a double counts one by one. -/
def integerRange (varType : LogicalType) : ℤ × ℤ :=
  if varType = .integer then (-2147483648, 2147483647) else (-9007199254740992, 9007199254740992)

section

variable {K : Type*} [Field K] [LinearOrder K] [FloorRing K]

/-- `DecideSolutionToInteger`. -/
def decideSolutionToInteger (solutionValue : K) (varType : LogicalType) (varName : String) :
    Except ReadbackError ℤ :=
  let rounded := stdRound solutionValue
  if (integerRange varType).1 ≤ rounded ∧ rounded ≤ (integerRange varType).2 then .ok rounded
  else .error ⟨varName, rounded⟩

/-- A value of an output column. -/
inductive OutputValue (K : Type*) where
  | integer (n : ℤ)
  | boolean (b : Bool)
  | double (v : K)
  deriving DecidableEq

/-- The cast of a solution value to the type of its variable. -/
def outputValue (decideVar : DeclaredVariable) (solutionValue : K) : Except ReadbackError (OutputValue K) :=
  match decideVar.returnType with
  | .integer | .bigint =>
    (decideSolutionToInteger solutionValue decideVar.returnType decideVar.name).map .integer
  | .boolean => .ok (.boolean (1 / 2 ≤ solutionValue))
  | .double => .ok (.double solutionValue)
  | _ => .ok (.integer (stdRound solutionValue))

/-! ## One chunk -/

/-- What the sink leaves for the source. -/
structure DecideSinkState (K : Type*) where
  decideVariables : List DeclaredVariable
  varIndexer : ColumnLayout
  ilpSolution : List K
  diagnosisOnly : Bool := false

/-- The buffered chunks not scanned yet, and how many rows came before them. -/
structure DecideSourceState (α : Type*) where
  unscanned : List (List α)
  currentRowOffset : Nat

/-- The input columns, and one column for every declared variable. -/
structure OutputChunk (K α : Type*) where
  input : List α
  decideColumns : List (List (OutputValue K))

variable {α : Type*}

/-- The column of a declared variable in a chunk. -/
def fillColumn (gstate : DecideSinkState K) (rowOffset chunkSize : Nat) (p : DeclaredVariable × Nat) :
    Except ReadbackError (List (OutputValue K)) :=
  (List.range chunkSize).mapM fun rowInChunk =>
    outputValue p.1 (gstate.ilpSolution.getD (gstate.varIndexer.get p.2 (rowOffset + rowInChunk)) 0)

/-- `GetData`; none when it is finished. -/
def getData (gstate : DecideSinkState K) (source : DecideSourceState α) :
    Except ReadbackError (Option (OutputChunk K α × DecideSourceState α)) :=
  if gstate.diagnosisOnly then .ok none
  else
    match source.unscanned with
    | [] => .ok none
    | scanChunk :: unscanned =>
      if scanChunk.isEmpty then .ok none
      else
        match gstate.decideVariables.zipIdx.mapM
          (fillColumn gstate source.currentRowOffset scanChunk.length) with
        | .error e => .error e
        | .ok columns =>
          .ok (some (⟨scanChunk, columns⟩, ⟨unscanned, source.currentRowOffset + scanChunk.length⟩))

/-- The chunks of so many calls; none if they do not reach the end. -/
def readAll (gstate : DecideSinkState K) :
    Nat → DecideSourceState α → Except ReadbackError (Option (List (OutputChunk K α)))
  | 0, _ => .ok none
  | calls + 1, source =>
    match getData gstate source with
    | .error e => .error e
    | .ok none => .ok (some [])
    | .ok (some (chunk, source)) =>
      match readAll gstate calls source with
      | .error e => .error e
      | .ok chunks => .ok (chunks.map (chunk :: ·))

/-! ## What is promised -/

/-- A query with a solution inside the column boxes: the variables as declared, the user's first, and the
buffered input. -/
structure SolvedQuery (K : Type*) [Field K] [LinearOrder K] (α : Type*) where
  userVariables : List (String × TypeMarker)
  auxiliaries : List (String × AuxiliaryVariable)
  varIndexer : ColumnLayout
  columns : List (SolverColumn K)
  ilpSolution : List K
  data : List (List α)
  numVars_eq : varIndexer.numVars = userVariables.length + auxiliaries.length
  numColumns_le : varIndexer.globalBlockStart ≤ columns.length
  solution_length : ilpSolution.length = columns.length
  inBoxes : ∀ (col : Nat) (box : SolverColumn K), columns[col]? = some box →
    box.lower ≤ ilpSolution.getD col 0 ∧ ilpSolution.getD col 0 ≤ box.upper
  data_nonempty : ∀ chunk ∈ data, chunk ≠ []
  numRows_eq : data.flatten.length = varIndexer.numRows

namespace SolvedQuery

/-- All variables, in the order of their indices. -/
def decideVariables (query : SolvedQuery K α) : List DeclaredVariable :=
  query.userVariables.map (fun p => p.2.declare p.1) ++ query.auxiliaries.map fun p => p.2.declare p.1

/-- What the solve leaves. -/
def sinkState (query : SolvedQuery K α) : DecideSinkState K where
  decideVariables := query.decideVariables
  varIndexer := query.varIndexer
  ilpSolution := query.ilpSolution

/-- Nothing is scanned yet. -/
def sourceState (query : SolvedQuery K α) : DecideSourceState α := ⟨query.data, 0⟩

/-- The value of an instance of a variable. -/
def instanceValue (query : SolvedQuery K α) (v inst : Nat) : K :=
  query.ilpSolution.getD (query.varIndexer.instanceColumn v inst) 0

/-- The value of the instance of a variable that a row is made of. -/
def rowValue (query : SolvedQuery K α) (v row : Nat) : K :=
  query.instanceValue v (query.varIndexer.rowInstance v row)

/-- Every column of a user's variable is in the range its type can return. -/
def UserInRange (query : SolvedQuery K α) : Prop :=
  ∀ (v : Nat) (p : String × TypeMarker), query.userVariables[v]? = some p → p.2 ≠ .realVariable →
    ∀ inst, inst < query.varIndexer.numInstances v →
      ((integerRange (p.2.declare p.1).returnType).1 : K) ≤ query.instanceValue v inst ∧
        query.instanceValue v inst ≤ ((integerRange (p.2.declare p.1).returnType).2 : K)

/-- Every auxiliary declared an integer is one of 32 bits at every row, once rounded. -/
def AuxiliariesInRange (query : SolvedQuery K α) : Prop :=
  ∀ (k : Nat) (p : String × AuxiliaryVariable), query.auxiliaries[k]? = some p →
    (p.2.declare p.1).returnType = .integer →
      ∀ row, row < query.varIndexer.numRows →
        -2147483648 - 1 / 2 < query.rowValue (query.userVariables.length + k) row ∧
          query.rowValue (query.userVariables.length + k) row < 2147483647 + 1 / 2

end SolvedQuery

/-- What a user is given for a value: the value itself for a REAL, and the nearest integer else. -/
def OutputValue.Returns (marker : TypeMarker) (value : K) : OutputValue K → Prop
  | .integer n => marker ≠ .realVariable ∧ |value - n| ≤ 1 / 2
  | .boolean _ => False
  | .double v => marker = .realVariable ∧ v = value

/-- The chunks hold the input, and in every row every user's variable has the value of its own column. -/
structure SolvedQuery.ReadsBack (query : SolvedQuery K α) (chunks : List (OutputChunk K α)) : Prop where
  input_eq : chunks.flatMap (·.input) = query.data.flatten
  returns : ∀ (v : Nat) (p : String × TypeMarker), query.userVariables[v]? = some p →
    ∀ row, row < query.varIndexer.numRows →
      ∃ cell, (chunks.flatMap fun chunk => chunk.decideColumns.getD v [])[row]? = some cell ∧
        cell.Returns p.2 (query.rowValue v row)

end

end Decidb
