import Decidb.Optimizer.RewriteMinMax

/-!
# What a clause says

The meaning of a comparison under WHEN conditions and PER columns: one instance for every group of
rows, each reducer over the rows of the group its own WHEN keeps, and against the bound of every row
of the group.
-/

namespace Decidb

/-- The rows of the group of `r₀`, in order. -/
def groupMates (whens : List RowMask) (pers : List RowKey) (numRows r₀ : Nat) : List Nat :=
  (List.range numRows).filter fun r => groupUnder whens pers r = groupUnder whens pers r₀

/-- Whether a row passes a reducer's own WHEN. -/
def Aggregate.keeps (agg : Aggregate) (r : Nat) : Bool :=
  (agg.filter.map fun m => m r).getD true

/-- The rows of a group a reducer ranges over. -/
def Aggregate.members (agg : Aggregate) (rows : List Nat) : List Nat :=
  rows.filter agg.keeps

/-- The value of an additive expression over the rows of a group. -/
def AggregateSum.valueIn (indexer : VarIndexer) (rows : List Nat) (a : Nat → ℚ) : AggregateSum → ℚ
  | .reducer scale agg =>
    scaleFactorValue scale * agg.valueOver indexer (agg.members rows) a
  | .constant k => k
  | .add l r => l.valueIn indexer rows a + r.valueIn indexer rows a
  | .sub l r => l.valueIn indexer rows a - r.valueIn indexer rows a
  | .neg e => -e.valueIn indexer rows a

/-- Every reducer of an expression has a row in the group. -/
def AggregateSum.Defined (rows : List Nat) : AggregateSum → Prop
  | .reducer _ agg => agg.members rows ≠ []
  | .constant _ => True
  | .add l r => l.Defined rows ∧ r.Defined rows
  | .sub l r => l.Defined rows ∧ r.Defined rows
  | .neg e => e.Defined rows

/-- What a comparison asks of one group of rows, the group of `r₀`. -/
def DecideComparison.HoldsIn (c : DecideComparison) (indexer : VarIndexer) (a : Nat → ℚ)
    (rows : List Nat) (r₀ : Nat) : Prop :=
  match c.lhs with
  | .reducers lhs =>
    lhs.Defined rows → ∀ i ∈ rows, c.cmp.Holds (lhs.valueIn indexer rows a) (c.rhs.value rows i)
  | .hardMinMax scale agg =>
    agg.members rows ≠ [] → ∀ i ∈ rows,
      c.cmp.Holds (scaleFactorValue scale * agg.valueOver indexer (agg.members rows) a)
        (c.rhs.value rows i)
  | .row scale body =>
    -- a comparison that was a reducer's keeps facing the bound of every row
    ∀ i ∈ (if c.wasMinmaxEasy then rows else [r₀]),
      c.cmp.Holds (scaleFactorValue scale * rowValue body r₀ fun v => a (indexer.get v r₀))
        (c.rhs.value rows i)

/-- What a comparison says under some conditions and columns. -/
def DecideComparison.HoldsUnder (c : DecideComparison) (indexer : VarIndexer) (whens : List RowMask)
    (pers : List RowKey) (a : Nat → ℚ) : Prop :=
  ∀ r₀, r₀ < indexer.numRows → (groupUnder whens pers r₀).isSome →
    c.HoldsIn indexer a (groupMates whens pers indexer.numRows r₀) r₀

/-- Every row of a group that is kept meets the bound of every row of the group. -/
def MeetsBounds (cmp : Comparison) (value : Nat → ℚ) (bound : List Nat → Nat → Bound)
    (kept : Nat → Bool) (numRows : Nat) (whens : List RowMask) (pers : List RowKey) : Prop :=
  ∀ r i, r < numRows → i < numRows → (groupUnder whens pers r).isSome →
    groupUnder whens pers i = groupUnder whens pers r → kept r = true →
      cmp.Holds (value r) (bound (groupMates whens pers numRows r) i)

/-- What a tree says: every comparison under everything that encloses it. -/
def ConstraintTree.Holds (t : ConstraintTree DecideComparison) (indexer : VarIndexer)
    (a : Nat → ℚ) : Prop :=
  ∀ leaf ∈ t.leaves [],
    leaf.1.HoldsUnder indexer (whenConditions leaf.2) (perColumnSets leaf.2) a

/-- What a lifted clause says: its expression over all rows, each reducer over those its own WHEN
keeps. -/
def ComposedMinMaxConstraint.Holds (clause : ComposedMinMaxConstraint) (indexer : VarIndexer)
    (a : Nat → ℚ) : Prop :=
  clause.lhs.Defined (List.range indexer.numRows) → ∀ k, composedRhs clause = .ok k →
    clause.cmp.Holds (clause.lhs.value indexer indexer.numRows a) (.fin k)

/-- A wrapper around a constraint. -/
abbrev Wrapper := RowMask ⊕ RowKey

/-- A comparison under a nest of wrappers, outermost first. -/
def nest (wrappers : List Wrapper) (t : ConstraintTree DecideComparison) :
    ConstraintTree DecideComparison :=
  wrappers.foldr
    (fun
      | .inl m, t => .when t m
      | .inr k, t => .per t k)
    t

/-- The WHEN conditions of a nest. -/
def nestWhens (wrappers : List Wrapper) : List RowMask := wrappers.filterMap Sum.getLeft?

/-- The PER columns of a nest. -/
def nestPers (wrappers : List Wrapper) : List RowKey := wrappers.filterMap Sum.getRight?

end Decidb
