import Mathlib.Algebra.MvPolynomial.Degrees
import Mathlib.Data.Finset.Basic
import Mathlib.Data.Rat.Floor

/-!
# The degree of a bound expression

`DecideExpressionDegree` walks a bound tree once: degrees add in a product, are multiplied by a constant
exponent and are otherwise those of the operands; a shape that is no polynomial gets a degree above two.
The arithmetic is that of `idx_t`.
-/

namespace Decidb

/-! ## Bound expressions -/

/-- What a constant reads as, cast to DOUBLE. -/
inductive DoubleValue where
  | finite (value : ℚ)
  | infinite
  deriving DecidableEq, Repr

/-- The functions the walk tells apart, by their lower-cased names. -/
inductive FunctionKind where
  | plus
  | minus
  | times
  | divide
  /-- `pow`, `power`, `**` and `^`. -/
  | power
  | abs
  | named (name : String)
  deriving DecidableEq, Repr

/-- A bound expression, down to the classes `WalkDegree` switches on. -/
inductive BoundExpr where
  | decision (column : Nat)
  /-- A column of the data, or a reference to one. -/
  | data (column : Nat)
  /-- A constant; of no value when it is NULL, not a number or below every number. -/
  | constant (value : Option DoubleValue)
  | cast (child : BoundExpr)
  /-- A reducer, with its filter and orderings apart. -/
  | aggregate (name : String) (children rest : List BoundExpr)
  /-- A conjunction; a WHEN or PER wrapper if it is tagged. -/
  | conjunction (isWrapper : Bool) (children : List BoundExpr)
  | function (kind : FunctionKind) (children : List BoundExpr)
  /-- Comparisons, CASE, operators and every other class. -/
  | other (name : String) (children : List BoundExpr)

namespace BoundExpr

/-- What `EnumerateChildren` visits. -/
def children : BoundExpr → List BoundExpr
  | .decision _ => []
  | .data _ => []
  | .constant _ => []
  | .cast child => [child]
  | .aggregate _ children rest => children ++ rest
  | .conjunction _ children => children
  | .function _ children => children
  | .other _ children => children

mutual

/-- `ContainsDecision`. -/
def containsDecision : BoundExpr → Bool
  | .decision _ => true
  | .data _ => false
  | .constant _ => false
  | .cast child => child.containsDecision
  | .aggregate _ children rest => anyContainsDecision children || anyContainsDecision rest
  | .conjunction _ children => anyContainsDecision children
  | .function _ children => anyContainsDecision children
  | .other _ children => anyContainsDecision children

/-- Whether one of several does. -/
def anyContainsDecision : List BoundExpr → Bool
  | [] => false
  | child :: children => child.containsDecision || anyContainsDecision children

end

/-- `TryGetDecideConstantExponent`. -/
def constantExponent : BoundExpr → Option DoubleValue
  | .cast child => child.constantExponent
  | .constant value => value
  | _ => none

end BoundExpr

/-! ## The walk -/

/-- Degree plus the decision columns that produced it. -/
structure DegreeWalk where
  degree : Nat := 0
  isQuadraticForm : Bool := false
  vars : Finset Nat := ∅

/-- `DECIDE_UNCLASSIFIABLE_DEGREE`. -/
def unclassifiableDegree : Nat := 3

/-- `idx_t` counts modulo this. -/
def idxRange : Nat := 2 ^ 64

/-- `AbsorbAdditive`: the larger degree. -/
def absorbAdditive (into child : DegreeWalk) : DegreeWalk where
  degree := max into.degree child.degree
  isQuadraticForm := into.isQuadraticForm || child.isQuadraticForm
  vars := into.vars ∪ child.vars

/-- Whether two factors with a degree share a decision. -/
def factorsShare : List DegreeWalk → Bool
  | [] => false
  | walk :: walks =>
    (walk.degree != 0 && walks.any fun other => other.degree != 0 && decide (∃ v ∈ walk.vars, v ∈ other.vars)) ||
      factorsShare walks

/-- `WalkMultiplication`, of the walks of the factors. -/
def walkMultiplication (walks : List DegreeWalk) : DegreeWalk :=
  let degree := walks.foldl (fun degree walk => (degree + walk.degree) % idxRange) 0
  let isQuadraticForm := walks.any (·.isQuadraticForm)
  { degree := degree
    isQuadraticForm := isQuadraticForm || (degree == 2 && factorsShare walks)
    vars := walks.foldl (fun vars walk => vars ∪ walk.vars) ∅ }

/-- A shape the walk cannot classify, unless it holds no decision. -/
def walkUnclassifiable (holdsDecision : Bool) : DegreeWalk :=
  { degree := if holdsDecision then unclassifiableDegree else 0 }

/-- A whole exponent that is not negative. -/
def DoubleValue.isWhole : DoubleValue → Bool
  | .finite value => decide (0 ≤ value) && decide (value.den = 1)
  | .infinite => true

/-- `static_cast<idx_t>` of a whole exponent. C++ leaves the cast of one out of range undefined; it is
whatever `undefinedCast` says. -/
def exponentIndex (undefinedCast : DoubleValue → Nat) (exponent : DoubleValue) : Nat :=
  match exponent with
  | .finite value => if value < idxRange then value.num.toNat else undefinedCast exponent
  | .infinite => undefinedCast exponent

/-- The power of a base with a whole constant exponent. -/
def walkPower (undefinedCast : DoubleValue → Nat) (base : DegreeWalk) (exponent : DoubleValue) : DegreeWalk where
  degree := base.degree * exponentIndex undefinedCast exponent % idxRange
  isQuadraticForm := decide (1 ≤ base.degree) && (exponent == .finite 2 || base.isQuadraticForm)
  vars := base.vars

/-- The case of a function, given the walks of its arguments. -/
def walkFunction (undefinedCast : DoubleValue → Nat) (kind : FunctionKind) (children : List BoundExpr)
    (walks : List DegreeWalk) : DegreeWalk :=
  match kind, children, walks with
  | .plus, _, walks => walks.foldl absorbAdditive {}
  | .minus, _, walks => walks.foldl absorbAdditive {}
  | .times, _, walks => walkMultiplication walks
  | .divide, [_, divisor], [numerator, _] =>
    if divisor.containsDecision then { degree := unclassifiableDegree } else numerator
  | .power, [base, exponent], [baseWalk, _] =>
    match exponent.constantExponent with
    | some value =>
      if value.isWhole then walkPower undefinedCast baseWalk value
      else walkUnclassifiable (BoundExpr.anyContainsDecision [base, exponent])
    | none => walkUnclassifiable (BoundExpr.anyContainsDecision [base, exponent])
  | .abs, _, walks => walks.foldl absorbAdditive {}
  | _, children, _ => walkUnclassifiable (BoundExpr.anyContainsDecision children)

mutual

/-- `WalkDegree`. -/
def walkDegree (undefinedCast : DoubleValue → Nat) : BoundExpr → DegreeWalk
  | .decision column => { degree := 1, vars := {column} }
  | .data _ => {}
  | .constant _ => {}
  | .cast child => walkDegree undefinedCast child
  | .aggregate _ children _ => (walkDegrees undefinedCast children).foldl absorbAdditive {}
  | .conjunction isWrapper children =>
    if isWrapper then (walkDegrees undefinedCast children).headD {} else {}
  | .function kind children => walkFunction undefinedCast kind children (walkDegrees undefinedCast children)
  | .other _ children => walkUnclassifiable (BoundExpr.anyContainsDecision children)

/-- The walks of several expressions. -/
def walkDegrees (undefinedCast : DoubleValue → Nat) : List BoundExpr → List DegreeWalk
  | [] => []
  | child :: children => walkDegree undefinedCast child :: walkDegrees undefinedCast children

end

/-- `DecideDegree`. -/
structure DecideDegree where
  degree : Nat
  isQuadraticForm : Bool
  deriving DecidableEq, Repr

/-- `IsSupported`. -/
def DecideDegree.isSupported (degree : DecideDegree) : Bool := decide (degree.degree ≤ 2)

/-- `DecideExpressionDegree`. -/
def decideExpressionDegree (undefinedCast : DoubleValue → Nat) (expr : BoundExpr) : DecideDegree where
  degree := (walkDegree undefinedCast expr).degree
  isQuadraticForm := (walkDegree undefinedCast expr).isQuadraticForm

end Decidb
