import Decidb.Planner.Degree
import Decidb.Planner.DecideTags

/-!
# The expressions of a bound clause

A bound clause is made of ordinary SQL expressions; the decision variables are the columns of one
table of their own. An expression has an exact value at each row, or none when it is NULL or no finite
number; a cast over an expression with a decision in it is only a matter of types and changes nothing.
-/

namespace Decidb

/-- A bound expression, down to what the canonical form is decided by. -/
inductive ClauseExpr where
  | columnRef (nodeAlias : NodeAlias) (tableIndex columnIndex : Nat)
  /-- A constant; of no value when it is NULL. -/
  | constant (nodeAlias : NodeAlias) (value : Option ℚ)
  | subquery (nodeAlias : NodeAlias) (id : Nat) (isScalar isCorrelated : Bool) (children : List ClauseExpr)
  | cast (nodeAlias : NodeAlias) (targetType : String) (child : ClauseExpr)
  /-- A scalar function; a volatile one never folds. -/
  | function (nodeAlias : NodeAlias) (isVolatile : Bool) (kind : FunctionKind) (children : List ClauseExpr)
  /-- A reducer, with its filter and orderings apart. -/
  | aggregate (nodeAlias : NodeAlias) (name : String) (children rest : List ClauseExpr)
  /-- CASE, operators, comparisons inside an expression, windows, parameters and every other class. -/
  | other (nodeAlias : NodeAlias) (name : String) (neverFolds : Bool) (children : List ClauseExpr)

namespace ClauseExpr

/-- `GetAlias`. -/
def getAlias : ClauseExpr → NodeAlias
  | columnRef nodeAlias _ _ => nodeAlias
  | constant nodeAlias _ => nodeAlias
  | subquery nodeAlias _ _ _ _ => nodeAlias
  | cast nodeAlias _ _ => nodeAlias
  | function nodeAlias _ _ _ => nodeAlias
  | aggregate nodeAlias _ _ _ => nodeAlias
  | other nodeAlias _ _ _ => nodeAlias

/-- `SetAlias`. -/
def setAlias (newAlias : NodeAlias) : ClauseExpr → ClauseExpr
  | columnRef _ tableIndex columnIndex => columnRef newAlias tableIndex columnIndex
  | constant _ value => constant newAlias value
  | subquery _ id isScalar isCorrelated children => subquery newAlias id isScalar isCorrelated children
  | cast _ targetType child => cast newAlias targetType child
  | function _ isVolatile kind children => function newAlias isVolatile kind children
  | aggregate _ name children rest => aggregate newAlias name children rest
  | other _ name neverFolds children => other newAlias name neverFolds children

/-- What `EnumerateChildren` visits. -/
def children : ClauseExpr → List ClauseExpr
  | columnRef _ _ _ => []
  | constant _ _ => []
  | subquery _ _ _ _ children => children
  | cast _ _ child => [child]
  | function _ _ _ children => children
  | aggregate _ _ children rest => children ++ rest
  | other _ _ _ children => children

mutual

/-- Whether a node of an expression passes a test of its own. -/
def anyNode (p : ClauseExpr → Bool) : ClauseExpr → Bool
  | columnRef nodeAlias tableIndex columnIndex => p (columnRef nodeAlias tableIndex columnIndex)
  | constant nodeAlias value => p (constant nodeAlias value)
  | subquery nodeAlias id isScalar isCorrelated children =>
    p (subquery nodeAlias id isScalar isCorrelated children) || anyNodeOf p children
  | cast nodeAlias targetType child => p (cast nodeAlias targetType child) || anyNode p child
  | function nodeAlias isVolatile kind children =>
    p (function nodeAlias isVolatile kind children) || anyNodeOf p children
  | aggregate nodeAlias name children rest =>
    p (aggregate nodeAlias name children rest) || anyNodeOf p children || anyNodeOf p rest
  | other nodeAlias name neverFolds children =>
    p (other nodeAlias name neverFolds children) || anyNodeOf p children

/-- Whether a node of one of several does. -/
def anyNodeOf (p : ClauseExpr → Bool) : List ClauseExpr → Bool
  | [] => false
  | child :: children => anyNode p child || anyNodeOf p children

end

/-- A column of the decision table. -/
def isDecisionRef (decideIndex : Nat) : ClauseExpr → Bool
  | columnRef _ tableIndex _ => tableIndex == decideIndex
  | _ => false

/-- `BoundExpressionReferencesDecide`. -/
def referencesDecide (decideIndex : Nat) (expr : ClauseExpr) : Bool :=
  expr.anyNode (isDecisionRef decideIndex)

def isAggregate : ClauseExpr → Bool
  | aggregate _ _ _ _ => true
  | _ => false

/-- `ContainsReducer`. -/
def containsReducer (expr : ClauseExpr) : Bool := expr.anyNode isAggregate

mutual

/-- `IsFoldable`. -/
def isFoldable : ClauseExpr → Bool
  | columnRef _ _ _ => false
  | constant _ _ => true
  | subquery _ _ _ _ _ => false
  | cast _ _ child => isFoldable child
  | function _ isVolatile _ children => !isVolatile && allFoldable children
  | aggregate _ _ _ _ => false
  | other _ _ neverFolds children => !neverFolds && allFoldable children

/-- Whether every one of several is. -/
def allFoldable : List ClauseExpr → Bool
  | [] => true
  | child :: children => isFoldable child && allFoldable children

end

/-! ## The cast policy -/

/-- `UnwrapDecideCasts`. -/
def unwrapDecideCasts (decideIndex : Nat) : ClauseExpr → ClauseExpr
  | cast nodeAlias targetType child =>
    if (cast nodeAlias targetType child).referencesDecide decideIndex then unwrapDecideCasts decideIndex child
    else cast nodeAlias targetType child
  | expr => expr

/-- `StripCastsForIdentity`. -/
def stripCastsForIdentity : ClauseExpr → ClauseExpr
  | cast _ _ child => stripCastsForIdentity child
  | expr => expr

end ClauseExpr

/-! ## The value of an expression -/

/-- What stands behind the columns, subqueries and functions of a clause. The rows are numbered. -/
structure ClauseEnv where
  column : Nat → Nat → Nat → Option ℚ
  subquery : Nat → Nat → Option ℚ
  function : String → List (Option ℚ) → Nat → Option ℚ
  convert : String → ℚ → Option ℚ
  aggregate : String → List (Nat → Option ℚ) → List (Nat → Option ℚ) → Nat → Option ℚ
  other : String → List (Nat → Option ℚ) → Nat → Option ℚ

/-- A quotient; a division by zero has no value. -/
def quotientValue (a b : ℚ) : Option ℚ := if b = 0 then none else some (a / b)

namespace ClauseEnv

variable (env : ClauseEnv)

/-- The value of a function at those of its arguments. -/
def functionValue (kind : FunctionKind) (row : Nat) (args : List (Option ℚ)) : Option ℚ :=
  match kind, args with
  | .plus, [a, b] => Option.map₂ (· + ·) a b
  | .minus, [a, b] => Option.map₂ (· - ·) a b
  | .minus, [a] => a.map (- ·)
  | .times, [a, b] => Option.map₂ (· * ·) a b
  | .divide, [a, b] => a.bind fun a => b.bind fun b => quotientValue a b
  | .plus, args => env.function "+" args row
  | .minus, args => env.function "-" args row
  | .times, args => env.function "*" args row
  | .divide, args => env.function "/" args row
  | .power, args => env.function "pow" args row
  | .abs, args => env.function "abs" args row
  | .named name, args => env.function name args row

mutual

/-- The value of an expression at a row. -/
def eval (decideIndex : Nat) : ClauseExpr → Nat → Option ℚ
  | .columnRef _ tableIndex columnIndex => env.column tableIndex columnIndex
  | .constant _ value => fun _ => value
  | .subquery _ id _ _ _ => env.subquery id
  | .cast _ targetType child =>
    -- a decision has no value a conversion could be applied to
    if child.referencesDecide decideIndex then eval decideIndex child
    else fun row => (eval decideIndex child row).bind (env.convert targetType)
  | .function _ _ kind children => fun row =>
    env.functionValue kind row ((evalAll decideIndex children).map fun value => value row)
  | .aggregate _ name children rest =>
    env.aggregate name (evalAll decideIndex children) (evalAll decideIndex rest)
  | .other _ name _ children => env.other name (evalAll decideIndex children)

/-- The values of several. -/
def evalAll (decideIndex : Nat) : List ClauseExpr → List (Nat → Option ℚ)
  | [] => []
  | child :: children => eval decideIndex child :: evalAll decideIndex children

end

end ClauseEnv

end Decidb
