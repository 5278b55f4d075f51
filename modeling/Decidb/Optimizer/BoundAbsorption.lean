import Decidb.Formulation.SolverInput
import Decidb.Optimizer.ConstraintTree

/-!
# Bound absorption

A comparison of one decision variable with a finite literal is a fact about its column, so it goes
into the column's box and never becomes a row. A strict comparison is normalized by one for an
INTEGER variable, which a declared BOOLEAN is bound as, and left as a row for a REAL.
-/

namespace Decidb

open Linear

/-- The lower end of a variable the query never lowered. -/
def absorbedLowerUnset : ℚ := -10 ^ 30

/-- The box absorption resolves for one variable, and which ends a user bound was recorded for. -/
structure AbsorbedBox where
  lower : ℚ := absorbedLowerUnset
  upper : ℚ := openBound
  lowerRecorded : Bool := false
  upperRecorded : Bool := false

/-- The box a variable starts with: a BOOLEAN carries its ceiling. -/
def AbsorbedBox.seed (type : VarType) : AbsorbedBox :=
  { upper := if type = .boolean then 1 else openBound }

/-- A restatement of a BOOLEAN's own box is not recorded. -/
def shouldRecord (type : VarType) (sense : Sense) (k : ℚ) : Bool :=
  if type ≠ .boolean then true
  else if sense = .le ∧ 1 ≤ k then false
  else if sense = .ge ∧ k ≤ 0 then false
  else true

/-- `AbsorptionTarget::Absorb`: tighten the box, and record the bound. -/
def AbsorbedBox.absorb (type : VarType) (box : AbsorbedBox) (sense : Sense) (k : ℚ) : AbsorbedBox where
  lower := if sense ≠ .le then max box.lower k else box.lower
  upper := if sense ≠ .ge then min box.upper k else box.upper
  lowerRecorded := box.lowerRecorded || (sense ≠ .le && shouldRecord type sense k)
  upperRecorded := box.upperRecorded || (sense ≠ .ge && shouldRecord type sense k)

/-- The comparison arm of `AbsorbBoundsInExpression`; `none` where the comparison stays a row. -/
def absorbComparison (type : VarType) (box : AbsorbedBox) (cmp : Comparison) (k : ℚ) :
    Option AbsorbedBox :=
  match cmp with
  | .le => some (box.absorb type .le k)
  | .ge => some (box.absorb type .ge k)
  | .eq => some (box.absorb type .eq k)
  | .lt => if type ≠ .real then some (box.absorb type .le (k - 1)) else none
  | .gt => if type ≠ .real then some (box.absorb type .ge (k + 1)) else none
  | .ne => none

/-- Whether a comparison is absorbed. -/
def isAbsorbed (type : VarType) (c : Comparison × ℚ) : Bool :=
  match c.1 with
  | .le | .ge | .eq => true
  | .lt | .gt => type ≠ .real
  | .ne => false

/-- Absorb the comparisons written on one variable, one after the other. -/
def absorbBounds (type : VarType) (cs : List (Comparison × ℚ)) : AbsorbedBox :=
  cs.foldl (fun box c => (absorbComparison type box c.1 c.2).getD box) (.seed type)

/-! ## The pass over a tree -/

/-- A comparison as the pass reads it: the decision that is its whole left-hand side, if any, and
the literal its right-hand side folds to, if any. -/
structure BoundComparison where
  target : Option Nat
  cmp : Comparison
  literal : Option Bound

/-- The bound of a comparison on a variable; a literal that is not finite is left to the rows. -/
def BoundComparison.boundOn (c : BoundComparison) (v : Nat) : Option (Comparison × ℚ) :=
  if c.target = some v then
    match c.literal with
    | some (.fin k) => some (c.cmp, k)
    | _ => none
  else none

/-- The comparison arm: the boxes after it, and whether it is tagged as absorbed. -/
def absorbBoundComparison (types : List VarType) (boxes : List AbsorbedBox) (c : BoundComparison) :
    List AbsorbedBox × Bool :=
  match c.target, c.literal with
  | some v, some (.fin k) =>
    match types[v]?, boxes[v]? with
    | some type, some box =>
      match absorbComparison type box c.cmp k with
      | some box => (boxes.set v box, true)
      | none => (boxes, false)
    | _, _ => (boxes, false)
  | _, _ => (boxes, false)

/-- `AbsorbBoundsInExpression`. A comparison under a WHEN is left alone, one under a PER is not. -/
def absorbBoundsInExpression (types : List VarType) :
    ConstraintTree BoundComparison → List AbsorbedBox →
      List AbsorbedBox × ConstraintTree (BoundComparison × Bool)
  | .per t columns, boxes =>
    let (boxes, t) := absorbBoundsInExpression types t boxes
    (boxes, .per t columns)
  | .when t condition, boxes => (boxes, .when (t.mapLeaves fun c => (c, false)) condition)
  | .conjunction l r, boxes =>
    let (boxes, l) := absorbBoundsInExpression types l boxes
    let (boxes, r) := absorbBoundsInExpression types r boxes
    (boxes, .conjunction l r)
  | .comparison c, boxes =>
    let (boxes, absorbed) := absorbBoundComparison types boxes c
    (boxes, .comparison (c, absorbed))
  | .placeholder, boxes => (boxes, .placeholder)

/-- `AbsorbVariableBounds`. -/
def absorbVariableBounds (types : List VarType) (t : ConstraintTree BoundComparison) :
    List AbsorbedBox × ConstraintTree (BoundComparison × Bool) :=
  absorbBoundsInExpression types t (types.map .seed)

end Decidb
