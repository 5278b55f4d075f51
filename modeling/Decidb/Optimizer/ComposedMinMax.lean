import Decidb.Optimizer.Aggregate

/-!
# Composed MIN/MAX clauses at plan time

`WalkComposedLhs` flattens an additive left-hand side into signed terms and decides, for each MIN or
MAX among them, whether the outer comparison presses its auxiliary against the envelope (easy) or
away from it.
-/

namespace Decidb

/-- One term of a composed clause. -/
structure ComposedMinMaxTerm where
  aggName : AggregateName
  sign : ℤ
  innerTerms : List LhsTerm
  filter : Option RowMask
  scale : Option ScaleFactor
  isEasy : Bool := false

/-- Whether the auxiliary of a MIN/MAX term is pressed against its envelope. -/
def composedIsEasy (name : AggregateName) (sign scaleSign : ℤ) (outerPushDown exactPin : Bool) :
    Bool :=
  if exactPin then false
  else if scaleSign = 0 then false
  else
    let zPushedDown := if sign * scaleSign > 0 then outerPushDown else !outerPushDown
    (name = .max && zPushedDown) || (name = .min && !zPushedDown)

/-- `WalkComposedLhs`. -/
def walkComposedLhs (outerPushDown exactPin : Bool) :
    AggregateSum → ℤ → Except String (List ComposedMinMaxTerm)
  | .add l r, sign =>
    match walkComposedLhs outerPushDown exactPin l sign with
    | .error e => .error e
    | .ok ls =>
      match walkComposedLhs outerPushDown exactPin r sign with
      | .error e => .error e
      | .ok rs => .ok (ls ++ rs)
  | .sub l r, sign =>
    match walkComposedLhs outerPushDown exactPin l sign with
    | .error e => .error e
    | .ok ls =>
      match walkComposedLhs outerPushDown exactPin r (-sign) with
      | .error e => .error e
      | .ok rs => .ok (ls ++ rs)
  | .neg e, sign => walkComposedLhs outerPushDown exactPin e (-sign)
  | .constant k, _ =>
    if k = 0 then .ok []
    else .error ("Composed MIN/MAX in DECIDE v1 supports only additive sums of SUM/AVG/MIN/MAX " ++
      "aggregates. Got non-aggregate term: " ++ toString k)
  | .reducer scale agg, sign =>
    .ok [{ aggName := agg.name
           sign
           innerTerms := agg.child
           filter := agg.filter
           scale
           isEasy := composedIsEasy agg.name sign (scaleSignAtPlanTime scale) outerPushDown
             exactPin }]

/-- The terms of a composed comparison. -/
def composedTerms (lhs : AggregateSum) (cmp : Comparison) :
    Except String (List ComposedMinMaxTerm) :=
  if cmp = .ne then
    .error ("Composed MIN/MAX in DECIDE v1 supports only the <, <=, =, >, >= and " ++
      "BETWEEN comparisons.")
  else walkComposedLhs (cmp = .lt || cmp = .le) (cmp = .eq) lhs 1

end Decidb
