import Decidb.Execution.EvaluateConstraint
import Decidb.Formulation.ColumnLayout
import Decidb.Relational.FirstOfKey

/-!
# Relation-qualified reducers

`SUM(D: e)` counts a tuple of `D` once however often the join repeats it. The rows of a reducer are those
its own WHEN keeps and a mask lets through that keeps the first row of every tuple in every group. The
mask is built over the groups at hand, which are not everywhere those the reducer is evaluated over.
-/

namespace Decidb

open Relational

/-! ## The mask -/

/-- The slot of a row: its group and its tuple, flattened. -/
def qualifierSlot (mapping : EntityMapping) (rowGroupIds : Option (Nat → Option Nat)) (row : Nat) :
    Option Nat :=
  match rowGroupIds with
  | none => some (mapping.rowToEntity row)
  | some ids => (ids row).map fun group => group * mapping.numEntities + mapping.rowToEntity row

/-- `BuildQualifierKeepMask`: the first row of every slot. -/
def buildQualifierKeepMask (mapping : EntityMapping) (rowGroupIds : Option (Nat → Option Nat))
    (numRows : Nat) : RowMask :=
  fun row => (firstRows (qualifierSlot mapping rowGroupIds) numRows).contains row

/-- `ApplyQualifierToFilter`: fold the mask into the reducer's own. -/
def applyQualifierToFilter (mapping : EntityMapping) (rowGroupIds : Option (Nat → Option Nat))
    (numRows : Nat) (filter : Option RowMask) : RowMask :=
  let keep := buildQualifierKeepMask mapping rowGroupIds numRows
  match filter with
  | none => keep
  | some mask => fun row => mask row && keep row

/-! ## Where a reducer stands -/

/-- The places of a clause a qualified reducer may stand in. -/
inductive ReducerSite where
  /-- The left-hand side of a constraint. -/
  | constraint
  /-- The right-hand side of a constraint. -/
  | bound
  | objective
  /-- An additive clause with a MIN or MAX in it. -/
  | composed
  deriving DecidableEq, Repr

/-- A qualified reducer over a join result. The value of its body is the same on all rows of a tuple. -/
structure QualifiedReducer where
  site : ReducerSite
  numRows : Nat
  mapping : EntityMapping
  entity_lt : ∀ row, row < numRows → mapping.rowToEntity row < mapping.numEntities
  /-- The WHEN and the PER of the constraint or objective. -/
  whenCondition : Option RowMask := none
  perColumns : Option RowKey := none
  /-- The reducer's own WHEN. -/
  filter : Option RowMask := none
  /-- The rows the WHENs of the left-hand side's or the objective's reducers keep between them. -/
  localRowActive : Option RowMask := none
  /-- Except on a right-hand side it is one of those reducers. -/
  filter_active : site ≠ .bound → ∀ row, admits filter row = true → admits localRowActive row = true
  /-- A composed clause has neither WHEN nor PER. -/
  composed_bare : site = .composed → whenCondition = none ∧ perColumns = none

namespace QualifiedReducer

/-- The groups of the clause. -/
def groups (q : QualifiedReducer) : RowGroups :=
  assignRowGroups q.whenCondition q.perColumns q.localRowActive q.numRows

/-- The groups the mask is built over. An objective without PER and a composed clause have none, so that
every row is in the one group there is. -/
def maskGroupIds (q : QualifiedReducer) : Option (Nat → Option Nat) :=
  match q.site with
  | .constraint => q.groups.rowGroupIds
  | .bound => q.groups.rhsRowGroupIds
  | .objective => if q.perColumns.isSome then q.groups.rowGroupIds else none
  | .composed => none

/-- The rows of the reducer, its own WHEN and the mask together. -/
def rowMask (q : QualifiedReducer) : RowMask :=
  applyQualifierToFilter q.mapping q.maskGroupIds q.numRows q.filter

/-- The group a row is reduced in; `none` for a row whose coefficient is zeroed or never read. -/
def groupOf (q : QualifiedReducer) (row : Nat) : Option Nat :=
  match q.site with
  | .constraint => q.groups.groupOf row
  | .bound => q.groups.rhsGroupOf row
  | .objective =>
    if q.perColumns.isSome then q.groups.groupOf row
    else if admits q.whenCondition row then some 0 else none
  | .composed => some 0

/-- The rows the reducer ranges over in the group of a row. -/
def reducedRows (q : QualifiedReducer) (row : Nat) : List Nat :=
  (List.range q.numRows).filter fun r => q.groupOf r = q.groupOf row && q.rowMask r

/-! ## What it should range over -/

/-- The rows of the group of a row that pass the WHEN of the clause and the reducer's own. -/
def survivors (q : QualifiedReducer) (row : Nat) : List Nat :=
  (groupMates q.whenCondition.toList q.perColumns.toList q.numRows row).filter (admits q.filter)

/-- The tuples among them. -/
def survivingTuples (q : QualifiedReducer) (row : Nat) : List Nat :=
  ((q.survivors row).map q.mapping.rowToEntity).dedup

/-- In every group and whatever its body, a reducer has the value it has over one row for every tuple
with a surviving row, and over no other row. -/
def CountsTuplesOnce (q : QualifiedReducer) : Prop :=
  ∀ row, row < q.numRows → (q.groupOf row).isSome → ∀ (name : AggregateName) (body : Nat → ℚ),
    name.reduce ((q.reducedRows row).map fun r => body (q.mapping.rowToEntity r)) =
      name.reduce ((q.survivingTuples row).map body)

/-- The same join result, its rows delivered in another order. -/
def deliver (q : QualifiedReducer) (σ : Equiv.Perm Nat) (hσ : ∀ row, σ row < q.numRows ↔ row < q.numRows) :
    QualifiedReducer where
  site := q.site
  numRows := q.numRows
  mapping := { q.mapping with rowToEntity := q.mapping.rowToEntity ∘ σ }
  entity_lt := fun row hrow => q.entity_lt (σ row) ((hσ row).mpr hrow)
  whenCondition := q.whenCondition.map (· ∘ σ)
  perColumns := q.perColumns.map (· ∘ σ)
  filter := q.filter.map (· ∘ σ)
  localRowActive := q.localRowActive.map (· ∘ σ)
  filter_active := by
    intro hsite row hrow
    have h := q.filter_active hsite (σ row)
    unfold admits at hrow h ⊢
    simp only [Option.map_map] at hrow ⊢
    exact h hrow
  composed_bare := by
    intro hsite
    obtain ⟨hw, hp⟩ := q.composed_bare hsite
    rw [hw, hp]
    exact ⟨rfl, rfl⟩

/-! ## When it does -/

/-- The group of a row under the WHEN and the PER of the clause. -/
def clauseGroup (q : QualifiedReducer) (row : Nat) : Option (List (Option Nat)) :=
  groupUnder q.whenCondition.toList q.perColumns.toList row

/-- The mask is built over all rows at once. -/
def masksWhole (q : QualifiedReducer) : Bool :=
  match q.site with
  | .objective => q.perColumns.isNone
  | .composed => true
  | _ => false

/-- A row has a group besides being selected. On a right-hand side under PER some row of its key must
reach the left-hand side. -/
def groupExists (q : QualifiedReducer) (row : Nat) : Bool :=
  match q.site with
  | .bound => q.perColumns.isNone || (List.range q.numRows).any fun r =>
      q.clauseGroup r = q.clauseGroup row && admits q.localRowActive r
  | _ => admits q.localRowActive row

/-- The mask sees a row. -/
def inMaskGroup (q : QualifiedReducer) (row : Nat) : Bool :=
  q.masksWhole || ((q.clauseGroup row).isSome && q.groupExists row)

/-- The group and the tuple of a row, as far as the mask tells rows apart. -/
def tupleKey (q : QualifiedReducer) (row : Nat) : Option (Option (List (Option Nat)) × Nat) :=
  if q.inMaskGroup row then
    some (if q.masksWhole then none else q.clauseGroup row, q.mapping.rowToEntity row)
  else none

/-- A row the reducer should range over. -/
def survives (q : QualifiedReducer) (row : Nat) : Bool :=
  q.inMaskGroup row && admits q.whenCondition row && admits q.filter row

/-- Where some row of a tuple survives, the first row of the tuple in the group the mask is built over
does. -/
def FirstRowsSurvive (q : QualifiedReducer) : Prop :=
  FirstSelected q.tupleKey q.survives q.numRows

/-- Where some row of a tuple survives, every row of the tuple in the group the mask is built over
does. -/
def TuplesSurviveWhole (q : QualifiedReducer) : Prop :=
  AllOrNone q.tupleKey q.survives q.numRows

end QualifiedReducer

end Decidb
