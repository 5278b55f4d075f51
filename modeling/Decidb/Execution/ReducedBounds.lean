import Decidb.Execution.EvaluateConstraint
import Decidb.Formulation.NotEqual

/-!
# Bounds that vary by row

A reduced constraint emits one row for a group while its bound may differ from row to row. What is
emitted for a group is read off the rows its own WHENs leave in it, the bound being brought down to one
value beforehand over all the rows of the group.
-/

namespace Decidb

/-- A clause whose bound may vary by row, and the rows it is asked of. -/
structure BoundedClause where
  whenCondition : Option RowMask := none
  perColumns : Option RowKey := none
  cmp : Comparison
  rhs : RhsExpr

/-- The rows of the group of a row that the WHEN and the PER of the clause select. -/
def BoundedClause.selected (q : BoundedClause) (numRows r : Nat) : List Nat :=
  groupMates q.whenCondition.toList q.perColumns.toList numRows r

/-- Whether the WHEN and the PER of a clause put a row in a group. -/
def BoundedClause.selects (q : BoundedClause) (r : Nat) : Bool :=
  (groupUnder q.whenCondition.toList q.perColumns.toList r).isSome

/-! ## Aggregates -/

/-- An aggregate constraint. Its left-hand side, linear or not, is a value over the rows of a group for
every assignment. -/
structure BoundedAggregate (α : Type) extends BoundedClause where
  /-- The rows some reducer's own WHEN keeps; none of them has one when absent. -/
  localRowActive : Option RowMask := none
  value : List Nat → α → ℚ

namespace BoundedAggregate

variable {α : Type}

def groups (q : BoundedAggregate α) (numRows : Nat) : RowGroups :=
  assignRowGroups q.whenCondition q.perColumns q.localRowActive numRows

/-- The bounds `EvaluateConstraints` leaves the constraint with. -/
def rhsValues (q : BoundedAggregate α) (numRows : Nat) : Except String (Nat → Bound) :=
  if (q.groups numRows).noRow numRows then .error (emptyAggregateMessage "aggregate" "constraint")
  else reduceAggregateRhsPerGroup q.cmp (q.groups numRows) numRows q.rhs.text fun r =>
    q.rhs.value ((q.groups numRows).rhsRows numRows r) r

/-- A row whose group emits a constraint. -/
def emits (q : BoundedAggregate α) (numRows r : Nat) : Bool :=
  ((q.groups numRows).groupOf r).isSome

/-- The rows of the group of a row that reach the left-hand side. -/
def leftRows (q : BoundedAggregate α) (numRows r : Nat) : List Nat :=
  (List.range numRows).filter fun i =>
    (q.groups numRows).groupOf i = (q.groups numRows).groupOf r

/-- The bounds the rows of a group are emitted with: that of the first row, or every one a `<>`
excludes. -/
def emittedBounds (cmp : Comparison) (rhsValues : Nat → Bound) (rows : List Nat) : List Bound :=
  match cmp with
  | .ne => (rows.map rhsValues).eraseDups
  | _ => (rows.head?.map rhsValues).toList

/-- In every group that emits a constraint, what is emitted holds exactly if the left-hand side meets
the bound of every row the WHEN and the PER select. -/
def BoundsConjoined (q : BoundedAggregate α) (numRows : Nat) : Prop :=
  ∀ bounds, q.rhsValues numRows = .ok bounds → ∀ r, r < numRows → q.emits numRows r = true →
    ∀ a, (∀ k ∈ emittedBounds q.cmp bounds (q.leftRows numRows r),
        q.cmp.Holds (q.value (q.leftRows numRows r) a) k) ↔
      ∀ i ∈ q.selected numRows r,
        q.cmp.Holds (q.value (q.leftRows numRows r) a) (q.rhs.value (q.selected numRows r) i)

/-- Once some group emits a constraint, a `=` is refused exactly if the bound takes two values on the
selected rows of such a group. -/
def RefusesVarying (q : BoundedAggregate α) (numRows : Nat) : Prop :=
  q.cmp = .eq → (∃ r, r < numRows ∧ q.emits numRows r = true) → ((∃ e, q.rhsValues numRows = .error e) ↔
    ∃ r, r < numRows ∧ q.emits numRows r = true ∧ ∃ i ∈ q.selected numRows r,
      ∃ j ∈ q.selected numRows r,
        q.rhs.value (q.selected numRows r) i ≠ q.rhs.value (q.selected numRows r) j)

/-- Every value a `<>` excludes on a selected row and the left-hand side can take is the bound of a row
that reaches the left-hand side. -/
def ExclusionsReachLeft (q : BoundedAggregate α) (numRows : Nat) : Prop :=
  q.cmp = .ne → ∀ r, r < numRows → q.emits numRows r = true → ∀ i ∈ q.selected numRows r, ∀ a,
    q.rhs.value (q.selected numRows r) i = .fin (q.value (q.leftRows numRows r) a) →
      ∃ j ∈ q.leftRows numRows r,
        q.rhs.value (q.selected numRows r) j = .fin (q.value (q.leftRows numRows r) a)

end BoundedAggregate

/-! ## Easy MIN/MAX -/

/-- A MIN or MAX that was written per row. `value` is its body at a row, under its factor. -/
structure EasyMinMax (α : Type) extends BoundedClause where
  isOrder : cmp.isOrder = true
  filter : Option RowMask := none
  /-- It is the half of an equality, which joins the tree outside every wrapper. -/
  generated : Bool := false
  /-- The data canonicalization moves to the bound of a generated half. -/
  crossed : Nat → ℚ := fun _ => 0
  value : Nat → α → ℚ

namespace EasyMinMax

variable {α : Type}

/-- The condition it is prepared under: the reducer's own WHEN stands where that of the clause did. -/
def preparedWhen (q : EasyMinMax α) : Option RowMask :=
  if q.generated then q.filter else q.filter.or q.whenCondition

/-- The groups it is prepared with: PER is stripped. -/
def groups (q : EasyMinMax α) (numRows : Nat) : RowGroups :=
  assignRowGroups q.preparedWhen none none numRows

/-- The bound it is prepared with. -/
def preparedRhs (q : EasyMinMax α) : RhsExpr :=
  .rowVarying q.rhs.text fun rows i => (q.rhs.value rows i).sub (q.crossed i)

/-- The bounds `EvaluateConstraints` leaves it with. -/
def rhsValues (q : EasyMinMax α) (numRows : Nat) : Except String (Nat → Bound) :=
  if (q.groups numRows).noRow numRows then .error (emptyAggregateMessage "aggregate" "constraint")
  else reduceAggregateRhsPerGroup q.cmp (q.groups numRows) numRows q.rhs.text fun r =>
    q.preparedRhs.value ((q.groups numRows).rhsRows numRows r) r

/-- Every row emits a constraint exactly if it is a row of the reducer, and the constraint says that it
meets the bound of every row of its group the WHEN and the PER select. -/
def BoundsConjoined (q : EasyMinMax α) (numRows : Nat) : Prop :=
  ∀ bounds, q.rhsValues numRows = .ok bounds → ∀ r, r < numRows → ∀ a,
    (((q.groups numRows).groupOf r).isSome → q.cmp.Holds (q.value r a - q.crossed r) (bounds r)) ↔
      (q.selects r = true → admits q.filter r = true → ∀ i ∈ q.selected numRows r,
        q.cmp.Holds (q.value r a) (q.rhs.value (q.selected numRows r) i))

/-- The rows it is prepared over. -/
def preparedRows (q : EasyMinMax α) (numRows : Nat) : List Nat :=
  (List.range numRows).filter (admits q.preparedWhen)

/-- The tightest bound over the rows it is prepared over, on those rows. -/
def preparedBound (q : EasyMinMax α) (numRows r : Nat) : Option Bound :=
  if admits q.preparedWhen r then
    some ((groupBound q.cmp q.preparedRhs (q.preparedRows numRows)).sub (-q.crossed r))
  else none

/-- The tightest bound over the selected rows of the group, on the rows of the reducer. -/
def writtenBound (q : EasyMinMax α) (numRows r : Nat) : Option Bound :=
  if q.selects r && admits q.filter r then some (groupBound q.cmp q.rhs (q.selected numRows r))
  else none

/-- Unless it is prepared over no row and so refused, no value of a row tells the tightest bound it is
prepared with from the tightest bound it was written with. -/
def SameTightest (q : EasyMinMax α) (numRows : Nat) : Prop :=
  q.preparedRows numRows ≠ [] → ∀ r, r < numRows → ∀ a,
    (∀ k ∈ q.preparedBound numRows r, q.cmp.Holds (q.value r a) k) ↔
      ∀ k ∈ q.writtenBound numRows r, q.cmp.Holds (q.value r a) k

end EasyMinMax

end Decidb
