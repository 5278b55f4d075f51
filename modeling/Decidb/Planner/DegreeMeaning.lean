import Decidb.Planner.Degree

/-!
# What a degree promises

The value of a bound expression at a data row as a function of the decisions, with ABS, casts, reducers and
wrappers read as what they are over, and the shapes a degree of two or less rules out.
-/

namespace Decidb

open MvPolynomial

/-! ## The value -/

/-- A data row: its columns, and what the functions that are not arithmetic make of their operands. A
missing value is one the expression is not defined on. -/
structure DataRow where
  column : Nat → Option ℚ
  apply : String → List (Option ℚ) → Option ℚ

/-- The sum of values that are all defined. -/
def sumValues : List (Option ℚ) → Option ℚ
  | [] => some 0
  | value :: values => Option.map₂ (· + ·) value (sumValues values)

/-- The product of values that are all defined. -/
def productValues : List (Option ℚ) → Option ℚ
  | [] => some 1
  | value :: values => Option.map₂ (· * ·) value (productValues values)

/-- A difference, or a negation. -/
def minusValues : List (Option ℚ) → Option ℚ
  | [] => some 0
  | [value] => value.map (- ·)
  | value :: values => Option.map₂ (· - ·) value (sumValues values)

/-- A quotient, where the divisor is not zero. -/
def quotient (value divisor : ℚ) : Option ℚ := if divisor = 0 then none else some (value / divisor)

/-- A power. Only one with a natural exponent is arithmetic. -/
def DataRow.power (row : DataRow) (base exponent : ℚ) : Option ℚ :=
  if 0 ≤ exponent ∧ exponent.den = 1 then some (base ^ exponent.num.toNat)
  else row.apply "power" [some base, some exponent]

/-- The value of a function, given those of its arguments. -/
def DataRow.function (row : DataRow) (kind : FunctionKind) (values : List (Option ℚ)) : Option ℚ :=
  match kind, values with
  | .plus, values => sumValues values
  | .minus, values => minusValues values
  | .times, values => productValues values
  | .divide, [value, divisor] => value.bind fun value => divisor.bind fun divisor => quotient value divisor
  | .divide, values => row.apply "/" values
  | .power, [base, exponent] => base.bind fun base => exponent.bind fun exponent => row.power base exponent
  | .power, values => row.apply "power" values
  | .abs, value :: _ => value
  | .abs, [] => row.apply "abs" []
  | .named name, values => row.apply name values

mutual

/-- The value of an expression in a row under an assignment of the decisions. -/
def BoundExpr.value (row : DataRow) (x : Nat → ℚ) : BoundExpr → Option ℚ
  | .decision column => some (x column)
  | .data column => row.column column
  | .constant (some (.finite value)) => some value
  | .constant _ => none
  | .cast child => child.value row x
  | .aggregate name children _ => (BoundExpr.values row x children).headD (row.apply name [])
  | .conjunction isWrapper children =>
    if isWrapper then (BoundExpr.values row x children).headD (row.apply "and" [])
    else row.apply "and" (BoundExpr.values row x children)
  | .function kind children => row.function kind (BoundExpr.values row x children)
  | .other name children => row.apply name (BoundExpr.values row x children)

/-- The values of several expressions. -/
def BoundExpr.values (row : DataRow) (x : Nat → ℚ) : List BoundExpr → List (Option ℚ)
  | [] => []
  | child :: children => child.value row x :: BoundExpr.values row x children

end

/-- Wherever the expression is defined, it is a polynomial in the decisions of at most this degree. -/
def BoundExpr.IsPolynomial (expr : BoundExpr) (degree : Nat) : Prop :=
  ∀ row : DataRow, ∃ p : MvPolynomial Nat ℚ, p.totalDegree ≤ degree ∧
    ∀ (x : Nat → ℚ) (value : ℚ), expr.value row x = some value → value = eval x p

/-! ## Parts and degrees -/

/-- The children that are terms of the expression: what a wrapper selects by, what a reducer filters by, a
divisor and an exponent are not. -/
def BoundExpr.terms : BoundExpr → List BoundExpr
  | .cast child => [child]
  | .aggregate _ children _ => children
  | .conjunction true (child :: _) => [child]
  | .function .plus children => children
  | .function .minus children => children
  | .function .times children => children
  | .function .abs children => children
  | .function .divide [numerator, _] => [numerator]
  | .function .power [base, _] => [base]
  | _ => []

/-- A term, a term of one, and so on. -/
inductive BoundExpr.Part (part : BoundExpr) : BoundExpr → Prop
  | self : part.Part part
  | term {child expr : BoundExpr} (hchild : child ∈ expr.terms) (h : part.Part child) : part.Part expr

/-- The expression has the decision in one of its terms. -/
def BoundExpr.Bears (column : Nat) (expr : BoundExpr) : Prop := (BoundExpr.decision column).Part expr

/-- A natural number an exponent is. -/
def BoundExpr.naturalExponent (exponent : BoundExpr) : Option Nat :=
  match exponent.constantExponent with
  | some (.finite value) => if 0 ≤ value ∧ value.den = 1 then some value.num.toNat else none
  | _ => none

/-- A node that is no polynomial of its terms: a decision in a divisor, in an exponent, under a power whose
exponent is no natural number, in another function or in a truth value. -/
def BoundExpr.RefusedShape : BoundExpr → Prop
  | .conjunction false children => BoundExpr.anyContainsDecision children = true
  | .function .divide [_, divisor] => divisor.containsDecision = true
  | .function .divide children => BoundExpr.anyContainsDecision children = true
  | .function .power [base, exponent] =>
    exponent.naturalExponent = none ∧ BoundExpr.anyContainsDecision [base, exponent] = true
  | .function .power children => BoundExpr.anyContainsDecision children = true
  | .function (.named _) children => BoundExpr.anyContainsDecision children = true
  | .other _ children => BoundExpr.anyContainsDecision children = true
  | _ => False

instance (expr : BoundExpr) : Decidable expr.RefusedShape := by
  unfold BoundExpr.RefusedShape
  split <;> infer_instance

/-- The degree of a function in whole numbers, given those of its arguments. -/
def unboundedFunction (kind : FunctionKind) (children : List BoundExpr) (degrees : List Nat) : Nat :=
  match kind, children, degrees with
  | .plus, _, degrees => degrees.foldl max 0
  | .minus, _, degrees => degrees.foldl max 0
  | .times, _, degrees => degrees.sum
  | .divide, [_, _], [degree, _] => degree
  | .power, [_, exponent], [degree, _] => degree * exponent.naturalExponent.getD 0
  | .abs, _, degrees => degrees.foldl max 0
  | _, _, _ => 0

mutual

/-- The degree in whole numbers, without a bound. A refused shape counts as three. -/
def BoundExpr.unboundedDegree : BoundExpr → Nat
  | .decision _ => 1
  | .data _ => 0
  | .constant _ => 0
  | .cast child => child.unboundedDegree
  | .aggregate _ children _ => (BoundExpr.unboundedDegrees children).foldl max 0
  | .conjunction isWrapper children =>
    if isWrapper then (BoundExpr.unboundedDegrees children).headD 0
    else if BoundExpr.anyContainsDecision children then 3 else 0
  | .function kind children =>
    if (BoundExpr.function kind children).RefusedShape then 3
    else unboundedFunction kind children (BoundExpr.unboundedDegrees children)
  | .other _ children => if BoundExpr.anyContainsDecision children then 3 else 0

/-- The degrees of several expressions. -/
def BoundExpr.unboundedDegrees : List BoundExpr → List Nat
  | [] => []
  | child :: children => child.unboundedDegree :: BoundExpr.unboundedDegrees children

end

/-- Two factors of a product share a decision. -/
def BoundExpr.SharesDecision : BoundExpr → Prop
  | .function .times children =>
    ¬ children.Pairwise fun a b => ¬ ∃ column, a.Bears column ∧ b.Bears column
  | _ => False

/-- The square of an expression with a decision. -/
def BoundExpr.SquaresDecision : BoundExpr → Prop
  | .function .power [base, exponent] =>
    exponent.constantExponent = some (.finite 2) ∧ ∃ column, base.Bears column
  | _ => False

/-! ## The gate -/

/-- What the gate promises of an expression it accepts. -/
structure GateSound (undefinedCast : DoubleValue → Nat) (expr : BoundExpr) : Prop where
  polynomial : expr.IsPolynomial (decideExpressionDegree undefinedCast expr).degree
  /-- No decision stands where no polynomial has one, and no degree wraps. -/
  refused : ∀ part : BoundExpr, part.Part expr → ¬ part.RefusedShape ∧ part.unboundedDegree < idxRange
  /-- A quadratic form is told from a bilinear one. -/
  quadratic : (decideExpressionDegree undefinedCast expr).degree = 2 →
    (decideExpressionDegree undefinedCast expr).isQuadraticForm = false →
      ∀ part : BoundExpr, part.Part expr → ¬ part.SharesDecision ∧ ¬ part.SquaresDecision

/-! ## Where the gate is sound -/

/-- A square, or a product of two factors with a decision in common, that has a degree of its own and over
which no power has a base of degree zero. -/
inductive BoundExpr.SeenSquare : BoundExpr → Prop
  | square {base exponent : BoundExpr} (htwo : exponent.constantExponent = some (.finite 2))
      (hbase : 1 ≤ base.unboundedDegree) : (BoundExpr.function .power [base, exponent]).SeenSquare
  | product {children : List BoundExpr}
      (hdegree : (BoundExpr.function .times children).unboundedDegree = 2)
      (hshare : ¬ children.Pairwise fun a b => ¬ (1 ≤ a.unboundedDegree ∧ 1 ≤ b.unboundedDegree ∧
        ∃ column, a.Bears column ∧ b.Bears column)) :
      (BoundExpr.function .times children).SeenSquare
  | base {base exponent : BoundExpr} (hbase : 1 ≤ base.unboundedDegree) (h : base.SeenSquare) :
      (BoundExpr.function .power [base, exponent]).SeenSquare
  | term {child expr : BoundExpr} (hchild : child ∈ expr.terms)
      (hpower : ∀ args, expr ≠ .function .power args) (h : child.SeenSquare) : expr.SeenSquare

/-- No degree of a part leaves the range of `idx_t`, and no decision is out of the count in one: in a truth
value, or under an exponent that is not finite. -/
structure BoundExpr.Counts (part : BoundExpr) : Prop where
  degree_lt : part.unboundedDegree < idxRange
  conjunction : ∀ children, part = .conjunction false children →
    BoundExpr.anyContainsDecision children = false
  infinite : ∀ base exponent, part = .function .power [base, exponent] →
    exponent.constantExponent = some .infinite → BoundExpr.anyContainsDecision [base, exponent] = false

/-- What the walk takes for granted. -/
structure BoundExpr.Counted (expr : BoundExpr) : Prop where
  counts : ∀ part : BoundExpr, part.Part expr → part.Counts
  /-- An exponent of zero stands over no refused shape. -/
  zero_power : ∀ base exponent : BoundExpr, (BoundExpr.function .power [base, exponent]).Part expr →
    exponent.naturalExponent = some 0 → ∀ part : BoundExpr, part.Part base → ¬ part.RefusedShape
  /-- Of the squares in an expression of degree two one is seen. -/
  seen : expr.unboundedDegree = 2 →
    (∃ part : BoundExpr, part.Part expr ∧ (part.SharesDecision ∨ part.SquaresDecision)) → expr.SeenSquare

end Decidb
