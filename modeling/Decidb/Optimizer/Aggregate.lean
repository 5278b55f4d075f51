import Decidb.Formulation.SolverInput
import Decidb.Optimizer.ConstraintTree

/-!
# Reducers

The aggregates of a DECIDE clause, the factor a reducer may carry, and the additive expressions over
reducers that a left-hand side may be.
-/

namespace Decidb

/-- The reducers a clause may use. -/
inductive AggregateName where
  | sum
  | avg
  | min
  | max
  deriving DecidableEq, Repr

namespace AggregateName

def isMinMax : AggregateName → Bool
  | min => true
  | max => true
  | _ => false

/-- The name as the errors spell it. -/
def text : AggregateName → String
  | sum => "sum"
  | avg => "avg"
  | min => "min"
  | max => "max"

/-- The value of a reducer over the values of its rows. -/
def reduce : AggregateName → List ℚ → ℚ
  | sum, vs => vs.sum
  | avg, vs => vs.sum / vs.length
  | min, vs => vs.min?.getD 0
  | max, vs => vs.max?.getD 0

end AggregateName

/-- A factor peeled onto a reducer: one value for the whole query. A subquery factor is not
foldable: its value is known only when the query runs. -/
structure ScaleFactor where
  value : ℚ
  divides : Bool
  foldable : Bool
  deriving DecidableEq, Repr

/-- `ScaleSignAtPlanTime`: zero when the sign is not known. -/
def scaleSignAtPlanTime : Option ScaleFactor → ℤ
  | none => 1
  | some s =>
    if !s.foldable then 0
    else if s.value = 0 then if s.divides then 0 else 1
    else if s.value < 0 then -1 else 1

/-- What a factor multiplies its reducer by. -/
def scaleFactorValue : Option ScaleFactor → ℚ
  | none => 1
  | some s => if s.divides then 1 / s.value else s.value

/-- One reducer: its name, the terms of its body, and its own WHEN. -/
structure Aggregate where
  name : AggregateName
  child : List LhsTerm
  filter : Option RowMask := none

/-- The rows a filter admits, in order. -/
def filteredRows (filter : Option RowMask) (numRows : Nat) : List Nat :=
  (List.range numRows).filter fun r => (filter.map fun m => m r).getD true

/-- The value of a reducer over some rows. -/
def Aggregate.valueOver (agg : Aggregate) (indexer : VarIndexer) (rows : List Nat)
    (a : Nat → ℚ) : ℚ :=
  agg.name.reduce (rows.map fun r => rowValue agg.child r fun v => a (indexer.get v r))

/-- An additive expression over reducers. A constant is what a leading negation leaves behind. -/
inductive AggregateSum where
  | reducer (scale : Option ScaleFactor) (agg : Aggregate)
  | constant (k : ℚ)
  | add (left right : AggregateSum)
  | sub (left right : AggregateSum)
  | neg (child : AggregateSum)

/-- The value of an additive expression, each reducer over the rows its own WHEN admits. -/
def AggregateSum.value (indexer : VarIndexer) (numRows : Nat) (a : Nat → ℚ) : AggregateSum → ℚ
  | .reducer scale agg =>
    scaleFactorValue scale * agg.valueOver indexer (filteredRows agg.filter numRows) a
  | .constant k => k
  | .add l r => l.value indexer numRows a + r.value indexer numRows a
  | .sub l r => l.value indexer numRows a - r.value indexer numRows a
  | .neg e => -e.value indexer numRows a

/-- `RejectEmptyAggregate`. -/
def emptyAggregateMessage (what ctx : String) : String :=
  "DECIDE empty row set for " ++ what ++ " in " ++ ctx ++
    ". An empty aggregate has no well-defined value; check your WHEN clause."

end Decidb
