import Decidb.Formulation.SolverInput

/-!
# The layout of the decision columns

`BuildVarIndexer` lays the columns out in blocks: the row-scoped variables row by row, the entities of
every entity-scoped variable, one column for every query-wide variable, and the globals after them.
`OwnerOf` goes back from a column to its variable.
-/

namespace Decidb

/-- The distinct tuples of a source table, and which of them a row of the input is made of. -/
structure EntityMapping where
  numEntities : Nat
  rowToEntity : Nat → Nat

/-- The scope a decision variable is declared with. -/
inductive VariableScope where
  | row
  | entity (mapping : EntityMapping)
  | scalar

namespace VariableScope

def isRow : VariableScope → Bool
  | row => true
  | _ => false

def isEntity : VariableScope → Bool
  | entity _ => true
  | _ => false

def isScalar : VariableScope → Bool
  | scalar => true
  | _ => false

/-- How many columns an entity-scoped variable takes. -/
def numEntities : VariableScope → Nat
  | entity mapping => mapping.numEntities
  | _ => 0

end VariableScope

/-- The variables the columns are laid out for; every row is made of a tuple of each source table. -/
structure ColumnLayout where
  numRows : Nat
  variableScopes : List VariableScope
  entity_lt : ∀ mapping, .entity mapping ∈ variableScopes → ∀ row, row < numRows →
    mapping.rowToEntity row < mapping.numEntities

namespace ColumnLayout

variable (layout : ColumnLayout)

def numVars : Nat := layout.variableScopes.length

/-- The variables of one kind of scope, in declaration order. -/
def varsWhere (p : VariableScope → Bool) : List Nat :=
  (List.range layout.numVars).filter fun v => (layout.variableScopes[v]?.map p).getD false

/-- The row-scoped variables: a row has one slot for each. -/
def rowOffsetVar : List Nat := layout.varsWhere VariableScope.isRow

def numRowVars : Nat := layout.rowOffsetVar.length

def entityBlockStart : Nat := layout.numRows * layout.numRowVars

def entityBlockVar : List Nat := layout.varsWhere VariableScope.isEntity

def entitiesOf (v : Nat) : Nat := (layout.variableScopes[v]?.map (·.numEntities)).getD 0

/-- Every entity-scoped variable with the first of its columns. -/
def entityBases : Nat → List Nat → List (Nat × Nat)
  | _, [] => []
  | base, v :: vs => (v, base) :: entityBases (base + layout.entitiesOf v) vs

def entityVarBase (v : Nat) : Nat :=
  ((layout.entityBases layout.entityBlockStart layout.entityBlockVar).lookup v).getD 0

def scalarBlockStart : Nat :=
  layout.entityBlockStart + (layout.entityBlockVar.map layout.entitiesOf).sum

def scalarSlotVar : List Nat := layout.varsWhere VariableScope.isScalar

def globalBlockStart : Nat := layout.scalarBlockStart + layout.scalarSlotVar.length

/-- `Get`: the column of a variable at a row. -/
def get (v row : Nat) : Nat :=
  match layout.variableScopes[v]? with
  | some .row => row * layout.numRowVars + layout.rowOffsetVar.idxOf v
  | some (.entity mapping) => layout.entityVarBase v + mapping.rowToEntity row
  | some .scalar => layout.scalarBlockStart + layout.scalarSlotVar.idxOf v
  | none => 0

/-- How many columns a variable has. -/
def numInstances (v : Nat) : Nat :=
  match layout.variableScopes[v]? with
  | some .row => layout.numRows
  | some (.entity mapping) => mapping.numEntities
  | some .scalar => 1
  | none => 0

/-- The column of an instance: of a row, of an entity, or the only one. -/
def instanceColumn (v inst : Nat) : Nat :=
  match layout.variableScopes[v]? with
  | some .row => inst * layout.numRowVars + layout.rowOffsetVar.idxOf v
  | some (.entity _) => layout.entityVarBase v + inst
  | some .scalar => layout.scalarBlockStart + layout.scalarSlotVar.idxOf v
  | none => 0

/-- The last entity-scoped variable whose columns begin no later than `col`. -/
def lastOwner (col : Nat) : Option Nat → List (Nat × Nat) → Option Nat
  | owner, [] => owner
  | owner, (v, base) :: rest => if col < base then owner else lastOwner col (some v) rest

/-- `OwnerOf`; no variable owns a global column. -/
def ownerOf (col : Nat) : Option Nat :=
  if layout.globalBlockStart ≤ col then none
  else if col < layout.entityBlockStart then
    if layout.numRowVars = 0 then none else layout.rowOffsetVar[col % layout.numRowVars]?
  else if col < layout.scalarBlockStart then
    lastOwner col none (layout.entityBases layout.entityBlockStart layout.entityBlockVar)
  else layout.scalarSlotVar[col - layout.scalarBlockStart]?

end ColumnLayout

end Decidb
