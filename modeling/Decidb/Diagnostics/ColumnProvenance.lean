import Decidb.Formulation.ColumnLayout

/-!
# Where a column comes from

A diagnosis reads a solution in columns and speaks of variables. `BuildColumnProvenance` inverts `Get` over
every variable and row: each decision column is told its variable and its instance, a global keeps the
default unless it has a label.
-/

namespace Decidb

/-- What a column is to the user. -/
inductive ColumnKind where
  | user
  | aux
  | globalAux
  deriving DecidableEq, Repr

/-- The source of one column. -/
structure ColumnProvenance where
  kind : ColumnKind := .globalAux
  label : String := ""
  /-- Of no variable for a global. -/
  decideVarIdx : Option Nat := none
  /-- The row, the entity, or zero for a query-wide variable. -/
  inst : Option Nat := none
  deriving DecidableEq, Repr

/-- The instance a column is recorded under. -/
def provenanceInstance (layout : ColumnLayout) (var row : Nat) : Nat :=
  match layout.variableScopes[var]? with
  | some (.entity _) => layout.get var row - layout.entityVarBase var
  | some .scalar => 0
  | _ => row

/-- What is written for a variable at a row. -/
def provenanceSlot (layout : ColumnLayout) (varLabels : List String) (varIsAux : List Bool)
    (var row : Nat) : ColumnProvenance where
  kind := if varIsAux.getD var false then .aux else .user
  label := varLabels.getD var ""
  decideVarIdx := some var
  inst := some (provenanceInstance layout var row)

/-- The variables and rows in the order they are visited. -/
def provenanceVisits (layout : ColumnLayout) (varLabels : List String) : List (Nat × Nat) :=
  (List.range varLabels.length).flatMap fun var => (List.range layout.numRows).map fun row => (var, row)

/-- Name one global. -/
def labelGlobal (layout : ColumnLayout) (slots : List ColumnProvenance) (q : String × Nat) :
    List ColumnProvenance :=
  if q.1 = "" then slots
  else slots.modify (layout.globalBlockStart + q.2) fun slot => { slot with label := q.1 }

/-- `BuildColumnProvenance`; a column past the end is skipped. -/
def buildColumnProvenance (layout : ColumnLayout) (numGlobalVars : Nat) (varLabels : List String)
    (varIsAux : List Bool) (globalVarLabels : List String) : List ColumnProvenance :=
  let slots := List.replicate (layout.globalBlockStart + numGlobalVars) ({} : ColumnProvenance)
  let slots := (provenanceVisits layout varLabels).foldl
    (fun slots q => slots.set (layout.get q.1 q.2) (provenanceSlot layout varLabels varIsAux q.1 q.2)) slots
  globalVarLabels.zipIdx.foldl (labelGlobal layout) slots

end Decidb
