import Decidb.Planner.ClauseExpr
import Decidb.Formulation.ColumnLayout
import Mathlib.Algebra.Group.Int.Units

/-!
# The canonical form of a clause

`DecideCanonicalizer` splits a side of a comparison into signed terms without opening one, takes the
query-wide factors off a reducer, and rebuilds the comparison with every term that references a decision
on the left and every other on the right. The checks after it decide whether what it built asks for one
row per input row or for one reduced row.
-/

namespace Decidb

/-! ## What the pass is given -/

/-- What `TryEvaluateScalar` makes of an expression it can evaluate. -/
inductive EvaluatedValue where
  | null
  | number (value : ℚ)
  | notNumeric

/-- The services of the client context. -/
structure ClientContext where
  /-- `BindScalarFunction`: the type each argument of a function is cast to, by its position, where its own
  type does not do; or why there is no such function. -/
  bindScalarFunction : FunctionKind → List ClauseExpr → Except String (Nat → Option String)
  tryEvaluateScalar : ClauseExpr → Option EvaluatedValue
  toSql : ClauseExpr → String

/-- `DecideCanonicalizer`. -/
structure DecideCanonicalizer where
  context : ClientContext
  decideIndex : Nat
  variableScopes : List VariableScope
  /-- The tables that uncorrelated scalar subqueries were flattened into; `none` where no such evidence
  was collected. -/
  queryWideTableIndexes : Option (List Nat) := none
  correlatedSubqueryTableIndexes : List Nat := []

/-- What the pass throws: an error of the user's or one of the engine's. -/
inductive CanonicalError where
  | binder (message : String)
  | internal (message : String)
  /-- `CanonicalInvariantFailure`, without the expression it prints. -/
  | invariant (rule detail : String)
  deriving DecidableEq

/-- Where a term has to stand. -/
inductive Placement where
  | left
  | right
  deriving DecidableEq

/-- The clause a term was written in. -/
inductive ClauseKind where
  | constraint
  | objective
  deriving DecidableEq

def ClauseKind.clauseName : ClauseKind → String
  | constraint => "DECIDE constraint"
  | objective => "DECIDE objective"

/-- A signed term with the factor that was taken off it. -/
structure Atom where
  sign : ℤˣ
  expr : ClauseExpr
  placement : Placement
  scale : Option ClauseExpr
  /-- Whether the term is `expr / scale` rather than `scale * expr`. -/
  scaleDivides : Bool

/-- The spelling of a function in a message. -/
def FunctionKind.spelling : FunctionKind → String
  | .plus => "+"
  | .minus => "-"
  | .times => "*"
  | .divide => "/"
  | .power => "pow"
  | .abs => "abs"
  | .named name => name

/-- An argument with the cast it was given, if it was. -/
def castArgument : Option String → ClauseExpr → ClauseExpr
  | none, expr => expr
  | some targetType, expr => .cast {} targetType expr

namespace DecideCanonicalizer

variable (c : DecideCanonicalizer)

/-! ## What a term is -/

def referencesDecideVar (expr : ClauseExpr) : Bool := expr.referencesDecide c.decideIndex

/-- `Classify`. -/
def classify (expr : ClauseExpr) : Placement := if c.referencesDecideVar expr then .left else .right

/-- Whether the table of a column is known to hold one value for the whole query. -/
def isQueryWideTable (tableIndex : Nat) : Bool :=
  match c.queryWideTableIndexes with
  | none => false
  | some tables => decide (tableIndex ∈ tables)

mutual

/-- `IsQueryWideConstant`. -/
def isQueryWideConstant : ClauseExpr → Bool
  | .columnRef nodeAlias tableIndex _ => nodeAlias.hasTag queryWideValueTag || c.isQueryWideTable tableIndex
  | .constant _ _ => true
  | .subquery nodeAlias _ isScalar isCorrelated _ =>
    nodeAlias.hasTag queryWideValueTag || (isScalar && !isCorrelated)
  | .cast nodeAlias targetType child =>
    nodeAlias.hasTag queryWideValueTag || (ClauseExpr.cast nodeAlias targetType child).isFoldable ||
      isQueryWideConstant child
  | .function nodeAlias isVolatile kind children =>
    nodeAlias.hasTag queryWideValueTag || (ClauseExpr.function nodeAlias isVolatile kind children).isFoldable ||
      (!children.isEmpty && allQueryWideConstant children)
  | .aggregate nodeAlias _ _ _ => nodeAlias.hasTag queryWideValueTag
  | .other nodeAlias name neverFolds children =>
    nodeAlias.hasTag queryWideValueTag || (ClauseExpr.other nodeAlias name neverFolds children).isFoldable

/-- Whether every one of several is. -/
def allQueryWideConstant : List ClauseExpr → Bool
  | [] => true
  | child :: children => isQueryWideConstant child && allQueryWideConstant children

end

/-- Whether a decision variable is declared query-wide. -/
def isScalarVariable (varIdx : Nat) : Bool := ((c.variableScopes[varIdx]?).map (·.isScalar)).getD false

mutual

/-- `IsQueryWideExpression`. -/
def isQueryWideExpression : ClauseExpr → Bool
  | .columnRef nodeAlias tableIndex columnIndex =>
    nodeAlias.hasTag queryWideValueTag ||
      if tableIndex == c.decideIndex then c.isScalarVariable columnIndex else c.isQueryWideTable tableIndex
  | .constant _ _ => true
  | .subquery nodeAlias _ isScalar isCorrelated _ =>
    nodeAlias.hasTag queryWideValueTag || (isScalar && !isCorrelated)
  | .cast nodeAlias targetType child =>
    nodeAlias.hasTag queryWideValueTag || (ClauseExpr.cast nodeAlias targetType child).isFoldable ||
      isQueryWideExpression child
  | .function nodeAlias isVolatile kind children =>
    nodeAlias.hasTag queryWideValueTag || (ClauseExpr.function nodeAlias isVolatile kind children).isFoldable ||
      (!children.isEmpty && allQueryWideExpression children)
  | .aggregate nodeAlias _ _ _ => nodeAlias.hasTag queryWideValueTag
  | .other nodeAlias name neverFolds children =>
    nodeAlias.hasTag queryWideValueTag || (ClauseExpr.other nodeAlias name neverFolds children).isFoldable ||
      (!children.isEmpty && allQueryWideExpression children)

/-- Whether every one of several is. -/
def allQueryWideExpression : List ClauseExpr → Bool
  | [] => true
  | child :: children => isQueryWideExpression child && allQueryWideExpression children

end

/-- `GetName`: the alias, or the SQL where there is none. -/
def getName (expr : ClauseExpr) : List Char :=
  if expr.getAlias.spelling.isEmpty then (c.context.toSql expr).toList else expr.getAlias.spelling

/-- `UserFacingName`. -/
def userFacingName : ClauseExpr → String
  | .cast _ _ child => userFacingName child
  | .aggregate _ name [child] _ => name.toUpper ++ "(" ++ userFacingName child ++ ")"
  | .aggregate _ name _ _ => name.toUpper ++ "(...)"
  | expr =>
    let name := stripDecideTags (c.getName expr)
    if name.isEmpty then c.context.toSql expr else String.ofList name

/-- `IsCorrelatedSubqueryRef`. -/
def isCorrelatedSubqueryRef (expr : ClauseExpr) : Bool :=
  match expr.stripCastsForIdentity with
  | .columnRef _ tableIndex _ => decide (tableIndex ∈ c.correlatedSubqueryTableIndexes)
  | _ => false

mutual

/-- `FindNonScalarDecideVar`: the variable and the reference to it. -/
def findNonScalarDecideVar : ClauseExpr → Option (Nat × ClauseExpr)
  | .columnRef nodeAlias tableIndex columnIndex =>
    if tableIndex == c.decideIndex && !c.isScalarVariable columnIndex then
      some (columnIndex, .columnRef nodeAlias tableIndex columnIndex)
    else none
  | .constant _ _ => none
  | .subquery _ _ _ _ children => findNonScalarIn children
  | .cast _ _ child => findNonScalarDecideVar child
  | .function _ _ _ children => findNonScalarIn children
  | .aggregate _ _ children rest => (findNonScalarIn children).or (findNonScalarIn rest)
  | .other _ _ _ children => findNonScalarIn children

/-- The first found in several. -/
def findNonScalarIn : List ClauseExpr → Option (Nat × ClauseExpr)
  | [] => none
  | child :: children => (findNonScalarDecideVar child).or (findNonScalarIn children)

end

/-! ## Factors on a reducer -/

/-- `BindOp`. -/
def bindOp (kind : FunctionKind) (children : List ClauseExpr) : Except CanonicalError ClauseExpr :=
  match c.context.bindScalarFunction kind children with
  | .ok casts => .ok (.function {} false kind (children.mapIdx fun i child => castArgument (casts i) child))
  | .error message =>
    .error (.internal ("DECIDE canonicalizer failed to bind '" ++ kind.spelling ++ "': " ++ message))

/-- A reducer over decisions; a factor is only taken off one of these. -/
def isScalable (expr : ClauseExpr) : Bool := expr.containsReducer && c.referencesDecideVar expr

/-- The judgement on a factor that multiplies or divides a term. -/
def judgeFactor (clause : ClauseKind) (divides : Bool) (factor term : ClauseExpr) : Except CanonicalError Unit :=
  let verb := if divides then "divide" else "multiply"
  let op := if divides then "/" else "*"
  if c.referencesDecideVar factor then
    .error (.binder (clause.clauseName ++ ": '" ++ c.userFacingName factor ++
      "' is a decision, so it cannot " ++ verb ++ " " ++ c.userFacingName term ++ ". " ++
      "Only constants and query-wide values can scale SUM/AVG/MIN/MAX."))
  else if c.isQueryWideConstant factor then .ok ()
  else if c.isCorrelatedSubqueryRef factor then
    .error (.binder (clause.clauseName ++ ": this subquery returns a different value for each row, " ++
      "so it cannot " ++ verb ++ " " ++ c.userFacingName term ++
      ". Move it inside the aggregate, e.g. " ++ "SUM(x " ++ op ++ " (SELECT ...))."))
  else
    .error (.binder (clause.clauseName ++ ": '" ++ c.userFacingName factor ++
      "' varies per row, so it cannot " ++ verb ++ " " ++ c.userFacingName term ++ ". " ++
      "Move it inside the aggregate, e.g. SUM(x " ++ op ++ " " ++ c.userFacingName factor ++ ")."))

/-- A term under its factors, outermost first. -/
structure PeeledFactors where
  term : ClauseExpr
  multipliers : List ClauseExpr := []
  divisors : List ClauseExpr := []

/-- The loop of `PeelScale`: each factor is judged before the walk goes on below it. -/
def peelFactors (clause : ClauseKind) : ClauseExpr → Except CanonicalError PeeledFactors
  | .cast nodeAlias targetType child =>
    if c.referencesDecideVar (.cast nodeAlias targetType child) then peelFactors clause child
    else .ok { term := .cast nodeAlias targetType child }
  | .function nodeAlias isVolatile .times [a, b] =>
    if c.isScalable a && !b.containsReducer then do
      c.judgeFactor clause false b a
      let peeled ← peelFactors clause a
      return { peeled with multipliers := b :: peeled.multipliers }
    else if c.isScalable b && !a.containsReducer then do
      c.judgeFactor clause false a b
      let peeled ← peelFactors clause b
      return { peeled with multipliers := a :: peeled.multipliers }
    -- two reducers multiplied, or no reducer at all
    else .ok { term := .function nodeAlias isVolatile .times [a, b] }
  | .function nodeAlias isVolatile .divide [a, b] =>
    if c.isScalable a && !b.containsReducer then do
      c.judgeFactor clause true b a
      let peeled ← peelFactors clause a
      return { peeled with divisors := b :: peeled.divisors }
    else .ok { term := .function nodeAlias isVolatile .divide [a, b] }
  | expr => .ok { term := expr }

/-- The product of some factors, in the order they were met. -/
def product : List ClauseExpr → Except CanonicalError (Option ClauseExpr)
  | [] => .ok none
  | factor :: factors => do
    let acc ← factors.foldlM (fun acc factor => c.bindOp .times [acc, factor]) factor
    return some acc

/-- The one factor that multipliers and divisors come to, and whether it divides. -/
def composeScale (multipliers divisors : List ClauseExpr) : Except CanonicalError (Option ClauseExpr × Bool) := do
  let multiplier ← c.product multipliers
  let divisor ← c.product divisors
  match multiplier, divisor with
  | multiplier, none => return (multiplier, false)
  | none, some divisor => return (some divisor, true)
  | some multiplier, some divisor => do
    let scale ← c.bindOp .divide [multiplier, divisor]
    return (some scale, false)

/-- `PeelScale`: the term, the factor on it and whether that divides. -/
def peelScale (clause : ClauseKind) (expr : ClauseExpr) :
    Except CanonicalError (ClauseExpr × Option ClauseExpr × Bool) := do
  let peeled ← c.peelFactors clause expr
  if peeled.multipliers.isEmpty && peeled.divisors.isEmpty then return (expr, none, false)
  else do
    let (scale, divides) ← c.composeScale peeled.multipliers peeled.divisors
    return (peeled.term, scale, divides)

/-! ## Terms -/

/-- A term boundary: one atom, of the bare term. -/
def atomOf (clause : ClauseKind) (sign : ℤˣ) (expr : ClauseExpr) : Except CanonicalError (List Atom) := do
  let (term, scale, divides) ← c.peelScale clause expr
  return [⟨sign, term, c.classify expr, scale, divides⟩]

/-- `Decompose`. -/
def decompose (clause : ClauseKind) : ClauseExpr → ℤˣ → Except CanonicalError (List Atom)
  | .function _ _ .plus [a, b], sign => do
    let left ← decompose clause a sign
    let right ← decompose clause b sign
    return left ++ right
  | .function _ _ .minus [a, b], sign => do
    let left ← decompose clause a sign
    let right ← decompose clause b (-sign)
    return left ++ right
  | .function _ _ .minus [a], sign => decompose clause a (-sign)
  | .cast nodeAlias targetType child, sign =>
    if c.referencesDecideVar (.cast nodeAlias targetType child) then decompose clause child sign
    else c.atomOf clause sign (.cast nodeAlias targetType child)
  | expr, sign => c.atomOf clause sign expr

/-- The term of an atom with its factor back on it. -/
def rescale (atom : Atom) : Except CanonicalError ClauseExpr :=
  match atom.scale with
  | none => .ok atom.expr
  | some scale => if atom.scaleDivides then c.bindOp .divide [atom.expr, scale] else c.bindOp .times [scale, atom.expr]

/-- One more term on the spine. A leading negative term is negated in place. -/
def appendTerm (acc : Option ClauseExpr) (atom : Atom) : Except CanonicalError (Option ClauseExpr) := do
  let term ← c.rescale atom
  match acc with
  | none => if 0 ≤ (atom.sign : ℤ) then return some term else return some (← c.bindOp .minus [term])
  | some acc =>
    if 0 ≤ (atom.sign : ℤ) then return some (← c.bindOp .plus [acc, term])
    else return some (← c.bindOp .minus [acc, term])

/-- `BuildAdditive`. -/
def buildAdditive (atoms : List Atom) : Except CanonicalError (Option ClauseExpr) :=
  atoms.foldlM c.appendTerm none

end DecideCanonicalizer

/-- A bound comparison. -/
structure ClauseComparison where
  nodeAlias : NodeAlias := {}
  type : Comparison
  left : ClauseExpr
  right : ClauseExpr

/-- The comparison read from its other side. -/
def ClauseComparison.swapped (comparison : ClauseComparison) : ClauseComparison :=
  { comparison with type := comparison.type.flip, left := comparison.right, right := comparison.left }

/-- Whether a term of some atoms has to stand on one side. -/
def hasPlacement (atoms : List Atom) (placement : Placement) : Bool := atoms.any (·.placement == placement)

/-- Whether a factor was taken off some atom. -/
def hasScale (atoms : List Atom) : Bool := atoms.any (·.scale.isSome)

/-- Crossing the relation flips the sign and nothing else. -/
def Atom.cross (atom : Atom) : Atom := { atom with sign := -atom.sign }

/-- The row shape of a canonical comparison. -/
inductive CanonicalConstraintClass where
  | perRow
  | aggregate
  | invalid
  deriving DecidableEq

namespace DecideCanonicalizer

variable (c : DecideCanonicalizer)

/-! ## Comparisons -/

/-- `FinalizeBoundProvenance`: whether the bound is query-wide is decided anew. -/
def finalizeBoundProvenance (comparison : ClauseComparison) : ClauseComparison :=
  let right := comparison.right.setAlias (comparison.right.getAlias.removeTag queryWideBoundTag)
  if c.isQueryWideConstant right then
    { comparison with right := right.setAlias (right.getAlias.addTag queryWideBoundTag) }
  else { comparison with right := right }

/-- The atoms of the two sides once every one stands where it has to. -/
def partitionAtoms (left right : List Atom) : List Atom × List Atom :=
  ((left.filter (·.placement == .left)) ++ (right.filter (·.placement == .left)).map Atom.cross,
    (left.filter (·.placement == .right)).map Atom.cross ++ right.filter (·.placement == .right))

/-- A comparison with a decision on its left: copied if it is canonical, rebuilt if it is not. -/
def canonicalizeOriented (comparison : ClauseComparison) : Except CanonicalError ClauseComparison := do
  let leftAtoms ← c.decompose .constraint comparison.left 1
  let rightAtoms ← c.decompose .constraint comparison.right 1
  if !hasPlacement rightAtoms .left && !hasPlacement leftAtoms .right && !hasScale leftAtoms then
    return c.finalizeBoundProvenance comparison
  else do
    let (newLeft, newRight) := partitionAtoms leftAtoms rightAtoms
    let left ← c.buildAdditive newLeft
    let right ← c.buildAdditive newRight
    return c.finalizeBoundProvenance
      { comparison with
        -- the left has a term: the comparison came with one
        left := left.getD comparison.left
        right := right.getD (.constant {} (some 0)) }

/-- `CanonicalizeComparison`. With decisions on its right only, the sides are swapped first. -/
def canonicalizeComparison (comparison : ClauseComparison) : Except CanonicalError ClauseComparison := do
  let leftAtoms ← c.decompose .constraint comparison.left 1
  let rightAtoms ← c.decompose .constraint comparison.right 1
  if hasPlacement leftAtoms .left then c.canonicalizeOriented comparison
  else if hasPlacement rightAtoms .left then c.canonicalizeOriented comparison.swapped
  -- no decision anywhere: left as it is
  else return comparison

/-- Whether an atom may stand beside a reducer. -/
def isReducedTerm (atom : Atom) : Bool :=
  atom.placement == .left &&
    if atom.expr.containsReducer then
      (atom.expr.unwrapDecideCasts c.decideIndex).isAggregate &&
        c.referencesDecideVar (atom.expr.unwrapDecideCasts c.decideIndex)
    else c.isQueryWideExpression atom.expr

/-- `ClassifyCanonicalComparison`. -/
def classifyCanonicalComparison (comparison : ClauseComparison) : Except CanonicalError CanonicalConstraintClass :=
  if c.referencesDecideVar comparison.right then .ok .invalid
  else if !comparison.left.containsReducer && !comparison.right.containsReducer then .ok .perRow
  else do
    let atoms ← c.decompose .constraint comparison.left 1
    return if atoms.all c.isReducedTerm then .aggregate else .invalid

/-! ## Trees -/

end DecideCanonicalizer

/-- The two wrappers of a constraint or an objective. -/
inductive WrapperKind where
  | when
  | per
  deriving DecidableEq

/-- A SUCH THAT tree. A wrapper holds a constraint, and beside it the condition or the PER columns. -/
inductive ClauseTree where
  | comparison (comparison : ClauseComparison)
  | conjunction (nodeAlias : NodeAlias) (isAnd : Bool) (children : List ClauseTree)
  | wrapper (nodeAlias : NodeAlias) (isAnd : Bool) (kind : WrapperKind) (constraint : ClauseTree)
      (metadata : List ClauseExpr)
  /-- What is neither a comparison nor a conjunction. -/
  | leaf (expr : ClauseExpr)

/-- An objective under its wrappers. -/
inductive ClauseObjective where
  | body (expr : ClauseExpr)
  | wrapper (nodeAlias : NodeAlias) (isAnd : Bool) (kind : WrapperKind) (objective : ClauseObjective)
      (metadata : List ClauseExpr)

namespace DecideCanonicalizer

variable (c : DecideCanonicalizer)

mutual

/-- The walk of `ClassifyCanonicalTree`, with the class seen so far; no class once it has stopped. -/
def classifyWalk : ClauseTree → Option CanonicalConstraintClass →
    Except CanonicalError (Option (Option CanonicalConstraintClass))
  | .comparison comparison, seen => do
    let childClass ← c.classifyCanonicalComparison comparison
    return if childClass == .invalid || (seen.isSome && seen != some childClass) then none else some (some childClass)
  | .conjunction _ _ children, seen => classifyWalkAll children seen
  | .wrapper _ _ _ constraint _, seen => classifyWalk constraint seen
  | .leaf _, _ => .ok none

/-- The walk over several. -/
def classifyWalkAll : List ClauseTree → Option CanonicalConstraintClass →
    Except CanonicalError (Option (Option CanonicalConstraintClass))
  | [], seen => .ok (some seen)
  | child :: children, seen => do
    match ← classifyWalk child seen with
    | none => return none
    | some seen => classifyWalkAll children seen

end

/-- `ClassifyCanonicalTree`. -/
def classifyCanonicalTree (tree : ClauseTree) : Except CanonicalError CanonicalConstraintClass := do
  match ← c.classifyWalk tree none with
  | some (some found) => return found
  | _ => return .invalid

/-- The message for the first term that cannot stand beside a reducer. -/
def misplacedMessage (atoms : List Atom) : String :=
  match atoms.find? fun atom => !atom.expr.containsReducer && !c.isQueryWideExpression atom.expr with
  | none =>
    "DECIDE constraint mixes aggregate and per-row decision expressions. " ++
      "Every row-varying decision term in an aggregate constraint must be inside " ++ "SUM/AVG/MIN/MAX."
  | some atom =>
    match c.findNonScalarDecideVar atom.expr with
    | some (varIdx, reference) =>
      let isEntity := ((c.variableScopes[varIdx]?).map (·.isEntity)).getD false
      "DECIDE constraint: " ++ (if isEntity then "entity-scoped" else "row-scoped") ++ " decision '" ++
        c.userFacingName reference ++ "' cannot appear outside a reducer in an " ++
        "aggregate constraint. Put it inside SUM/AVG/MIN/MAX, or use a scalar " ++
        "decision when one query-wide value is intended."
    | none =>
      "DECIDE constraint: '" ++ c.userFacingName atom.expr ++
        "' varies per row and cannot appear outside a reducer " ++
        "in an aggregate constraint. Move the row-varying expression inside " ++ "SUM/AVG/MIN/MAX."

/-- `ValidateCanonicalComparison`. -/
def validateCanonicalComparison (comparison : ClauseComparison) : Except CanonicalError Unit := do
  if (← c.classifyCanonicalComparison comparison) == .invalid then
    let atoms ← c.decompose .constraint comparison.left 1
    throw (.binder (c.misplacedMessage atoms))
  else if comparison.right.isFoldable then
    match c.context.tryEvaluateScalar comparison.right with
    | some .null =>
      throw (.binder
        "DECIDE constraint bound evaluates to NULL. Use COALESCE(...) to provide a numeric bound.")
    | _ => return ()
  else return ()

mutual

/-- `ValidateCanonicalTree`. -/
def validateCanonicalTree : ClauseTree → Except CanonicalError Unit
  | .comparison comparison => c.validateCanonicalComparison comparison
  | .conjunction _ _ children => validateCanonicalTrees children
  | .wrapper _ _ .when constraint _ => validateCanonicalTree constraint
  | .wrapper _ _ .per constraint _ => do
    if (← c.classifyCanonicalTree constraint) != .aggregate then
      throw (.binder ("PER can only be applied to aggregate (SUM) constraints. Per-row constraints " ++
        "already have one constraint per row."))
    else validateCanonicalTree constraint
  | .leaf _ => .ok ()

/-- The check of several. -/
def validateCanonicalTrees : List ClauseTree → Except CanonicalError Unit
  | [] => .ok ()
  | child :: children => do
    validateCanonicalTree child
    validateCanonicalTrees children

end

mutual

/-- `CanonicalizeTreeInternal`. -/
def canonicalizeTreeInternal : ClauseTree → Except CanonicalError ClauseTree
  | .comparison comparison => do return .comparison (← c.canonicalizeComparison comparison)
  | .conjunction nodeAlias isAnd children => do
    return .conjunction nodeAlias isAnd (← canonicalizeTreesInternal children)
  | .wrapper nodeAlias isAnd kind constraint metadata => do
    return .wrapper nodeAlias isAnd kind (← canonicalizeTreeInternal constraint) metadata
  | .leaf expr => .ok (.leaf expr)

/-- The trees of several. -/
def canonicalizeTreesInternal : List ClauseTree → Except CanonicalError (List ClauseTree)
  | [] => .ok []
  | child :: children => do return (← canonicalizeTreeInternal child) :: (← canonicalizeTreesInternal children)

end

/-- `CanonicalizeTree`. -/
def canonicalizeTree (constraints : ClauseTree) : Except CanonicalError ClauseTree := do
  let result ← c.canonicalizeTreeInternal constraints
  c.validateCanonicalTree result
  return result

/-! ## Objectives -/

/-- `TryEvaluateFoldableDouble`. -/
def tryEvaluateFoldableDouble (expr : ClauseExpr) : Option ℚ :=
  if expr.isFoldable then
    match c.context.tryEvaluateScalar expr with
    | some (.number value) => some value
    | _ => none
  else none

/-- The decision atoms kept so far and the offset, after one more atom. -/
def foldOffset (state : List Atom × ℚ) (atom : Atom) : Except CanonicalError (List Atom × ℚ) :=
  if atom.placement == .left then .ok (state.1 ++ [atom], state.2)
  else
    match c.tryEvaluateFoldableDouble atom.expr with
    | some value => .ok (state.1, state.2 + (atom.sign : ℤ) * value)
    | none =>
      .error (.binder ("MAXIMIZE/MINIMIZE: '" ++ c.userFacingName atom.expr ++
        "' does not reference a decision, so it cannot be part of " ++
        "the objective. Remove it, or move it to the SELECT list."))

/-- `CanonicalizeObjective`; the offset is added to. -/
def canonicalizeObjective : ClauseObjective → ℚ → Except CanonicalError (ClauseObjective × ℚ)
  | .wrapper nodeAlias isAnd kind objective metadata, offset => do
    let (result, offset) ← canonicalizeObjective objective offset
    return (.wrapper nodeAlias isAnd kind result metadata, offset)
  | .body expr, offset =>
    if c.referencesDecideVar expr then do
      let atoms ← c.decompose .objective expr 1
      let (decisionAtoms, offset) ← atoms.foldlM c.foldOffset ([], offset)
      match ← c.buildAdditive decisionAtoms with
      | some result => return (.body result, offset)
      | none =>
        throw (.internal ("DECIDE canonicalizer: objective references a decision but decomposed into no " ++
          "decision-bearing term"))
    else return (.body expr, offset)

/-! ## The verifier of debug builds -/

/-- `VerifyCanonicalComparison`. -/
def verifyCanonicalComparison (comparison : ClauseComparison) : Except CanonicalError Unit := do
  if !c.referencesDecideVar comparison.left then
    throw (.invariant "C1" "comparison has no decision-bearing left side")
  else if c.referencesDecideVar comparison.right then
    throw (.invariant "C2" "right side still references a DECIDE variable")
  else do
    let leftAtoms ← c.decompose .constraint comparison.left 1
    let rightAtoms ← c.decompose .constraint comparison.right 1
    if hasPlacement leftAtoms .right then
      throw (.invariant "C3" "decision-free additive term remains on the left")
    else if hasPlacement rightAtoms .left then
      throw (.invariant "C3" "decision-bearing additive term remains on the right")
    else if (← c.classifyCanonicalComparison comparison) == .invalid then
      throw (.invariant "C5" "comparison is neither a valid per-row nor aggregate constraint")
    else return ()

mutual

/-- `VerifyCanonicalTree`. -/
def verifyCanonicalTree : ClauseTree → Except CanonicalError Unit
  | .comparison comparison => c.verifyCanonicalComparison comparison
  | .conjunction _ isAnd children =>
    if isAnd then verifyCanonicalTrees children
    else throw (.invariant "C0" "constraint conjunction is not AND")
  | .wrapper _ isAnd .when constraint metadata =>
    if !isAnd then throw (.invariant "C0" "constraint conjunction is not AND")
    else if metadata.length ≠ 1 then
      throw (.invariant "C0" "WHEN wrapper must contain one constraint and one condition")
    else verifyCanonicalTree constraint
  | .wrapper _ isAnd .per constraint metadata =>
    if !isAnd then throw (.invariant "C0" "constraint conjunction is not AND")
    else if metadata.isEmpty then
      throw (.invariant "C0" "PER wrapper must contain a constraint and grouping column")
    else do
      if (← c.classifyCanonicalTree constraint) != .aggregate then
        throw (.invariant "C5" "PER wrapper does not contain an aggregate constraint")
      else verifyCanonicalTree constraint
  | .leaf _ => .ok ()

/-- The check of several. -/
def verifyCanonicalTrees : List ClauseTree → Except CanonicalError Unit
  | [] => .ok ()
  | child :: children => do
    verifyCanonicalTree child
    verifyCanonicalTrees children

end

/-- `VerifyCanonicalObjectiveBody`. -/
def verifyCanonicalObjectiveBody : ClauseObjective → Except CanonicalError Unit
  | .wrapper _ _ _ objective _ => verifyCanonicalObjectiveBody objective
  | .body expr =>
    if c.referencesDecideVar expr then do
      let atoms ← c.decompose .objective expr 1
      if hasPlacement atoms .right then
        throw (.invariant "O2" "canonical objective retains a decision-free additive term")
      else return ()
    else return ()

end DecideCanonicalizer

/-! ## Reading a scaled reducer back -/

/-- A reducer and the factor on it. -/
structure ScaledAggregateMatch where
  aggregate : ClauseExpr
  scale : ClauseExpr
  divides : Bool

/-- `TryMatchScaledAggregate`. -/
def tryMatchScaledAggregate (decideIndex : Nat) (expr : ClauseExpr) : Option ScaledAggregateMatch :=
  match expr.unwrapDecideCasts decideIndex with
  | .function _ _ .times [scale, term] =>
    if (term.unwrapDecideCasts decideIndex).isAggregate && !(scale.unwrapDecideCasts decideIndex).isAggregate then
      some ⟨term.unwrapDecideCasts decideIndex, scale, false⟩
    else none
  | .function _ _ .divide [term, scale] =>
    if (term.unwrapDecideCasts decideIndex).isAggregate && !(scale.unwrapDecideCasts decideIndex).isAggregate then
      some ⟨term.unwrapDecideCasts decideIndex, scale, true⟩
    else none
  | _ => none

end Decidb
