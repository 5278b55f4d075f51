import Decidb.Optimizer.ComposedMinMax

/-!
# The MIN/MAX rewrites of a constraint tree

`RewriteComposedMinMax` lifts additive compositions of reducers out of the tree into clauses of their
own. `RewriteMinMax` then takes a lone MIN or MAX apart: the direction in which every row has to meet
the bound becomes a per-row comparison (easy), the other one a tagged clause that keeps its reducer
(hard), and an equality one of each.
-/

namespace Decidb

/-! ## Comparisons -/

/-- The right-hand side of a comparison. Reducers on that side range over the rows of the group the
comparison is evaluated for. -/
inductive RhsExpr where
  | constant (k : ℚ)
  | rowVarying (text : String) (value : List Nat → Nat → Bound)

/-- The value of a right-hand side at a row of a group. -/
def RhsExpr.value : RhsExpr → List Nat → Nat → Bound
  | .constant k, _, _ => .fin k
  | .rowVarying _ value, rows, r => value rows r

/-- How a message quotes a right-hand side. -/
def RhsExpr.text : RhsExpr → String
  | .constant k => toString k
  | .rowVarying text _ => text

/-- The left-hand side of a comparison. -/
inductive DecideLhs where
  /-- An additive expression over reducers. -/
  | reducers (lhs : AggregateSum)
  /-- What is left of an easy MIN/MAX: its body, per row, with the factor. -/
  | row (scale : Option ScaleFactor) (body : List LhsTerm)
  /-- A hard MIN/MAX: a SUM over the body, tagged with the reducer it stands for. -/
  | hardMinMax (scale : Option ScaleFactor) (agg : Aggregate)

/-- A comparison of the tree. -/
structure DecideComparison where
  lhs : DecideLhs
  cmp : Comparison
  rhs : RhsExpr
  /-- The comparison was a MIN/MAX before it was written per row. -/
  wasMinmaxEasy : Bool := false

/-- Whether the body of a reducer mentions a decision. -/
def Aggregate.referencesDecide (agg : Aggregate) : Bool :=
  agg.child.any fun t => t.variableIndex.isSome

/-- Whether a reducer is a MIN or MAX over decisions. -/
def Aggregate.isDecideMinMax (agg : Aggregate) : Bool :=
  agg.name.isMinMax && agg.referencesDecide

/-! ## Compositions -/

namespace AggregateSum

/-- `IsAddNode`. -/
def isAddNode : AggregateSum → Bool
  | .add _ _ => true
  | _ => false

/-- `IsSubNode`, binary or unary. -/
def isSubNode : AggregateSum → Bool
  | .sub _ _ => true
  | .neg _ => true
  | _ => false

/-- `AdditiveContainsMinMax`. -/
def additiveContainsMinMax : AggregateSum → Bool
  | .reducer _ agg => agg.isDecideMinMax
  | .constant _ => false
  | .add l r => l.additiveContainsMinMax || r.additiveContainsMinMax
  | .sub l r => l.additiveContainsMinMax || r.additiveContainsMinMax
  | .neg e => e.additiveContainsMinMax

/-- A lone MIN/MAX whose factor has a sign nobody knows at plan time. -/
def unknownSignLoneMinMax : AggregateSum → Bool
  | .reducer (some s) agg => decide (scaleSignAtPlanTime (some s) = 0) && agg.isDecideMinMax
  | _ => false

/-- Whether a left-hand side is lifted as a composition. -/
def isComposed (lhs : AggregateSum) : Bool :=
  lhs.unknownSignLoneMinMax || ((lhs.isAddNode || lhs.isSubNode) && lhs.additiveContainsMinMax)

end AggregateSum

/-- A clause lifted out of the tree. -/
structure ComposedMinMaxConstraint where
  lhs : AggregateSum
  cmp : Comparison
  rhs : RhsExpr
  terms : List ComposedMinMaxTerm

/-- The clause a comparison is lifted as, if it is one. -/
def rewriteComposedComparison (c : DecideComparison) :
    Except String (Option ComposedMinMaxConstraint) :=
  match c.lhs with
  | .reducers lhs =>
    if lhs.isComposed then
      match composedTerms lhs c.cmp with
      | .error e => .error e
      | .ok terms => .ok (some ⟨lhs, c.cmp, c.rhs, terms⟩)
    else .ok none
  | _ => .ok none

/-- The one shape that is refused under a wrapper: a comparison of a sum directly below it. -/
def refusedUnderWrapper : ConstraintTree DecideComparison → Bool
  | .comparison c =>
    match c.lhs with
    | .reducers lhs => lhs.additiveContainsMinMax && lhs.isAddNode
    | _ => false
  | _ => false

def wrappedComposedMessage : String :=
  "Composed MIN/MAX in DECIDE v1 does not support outer WHEN/PER wrappers. " ++
    "Remove the WHEN/PER or restructure the constraint."

/-- `RewriteComposedMinMaxInConstraint`: the tree with placeholders, and the lifted clauses. -/
def rewriteComposedMinMaxInConstraint : ConstraintTree DecideComparison →
    Except String (ConstraintTree DecideComparison × List ComposedMinMaxConstraint)
  | .when t condition =>
    if refusedUnderWrapper t then .error wrappedComposedMessage
    else
      match rewriteComposedMinMaxInConstraint t with
      | .error e => .error e
      | .ok (t', clauses) => .ok (.when t' condition, clauses)
  | .per t columns =>
    if refusedUnderWrapper t then .error wrappedComposedMessage
    else
      match rewriteComposedMinMaxInConstraint t with
      | .error e => .error e
      | .ok (t', clauses) => .ok (.per t' columns, clauses)
  | .conjunction l r =>
    match rewriteComposedMinMaxInConstraint l with
    | .error e => .error e
    | .ok (l', ls) =>
      match rewriteComposedMinMaxInConstraint r with
      | .error e => .error e
      | .ok (r', rs) => .ok (.conjunction l' r', ls ++ rs)
  | .comparison c =>
    match rewriteComposedComparison c with
    | .error e => .error e
    | .ok none => .ok (.comparison c, [])
    | .ok (some clause) => .ok (.placeholder, [clause])
  | .placeholder => .ok (.placeholder, [])

/-- A lifted clause is evaluated with one bound for the whole query. -/
def composedRhs (clause : ComposedMinMaxConstraint) : Except String ℚ :=
  match clause.rhs with
  | .constant k => .ok k
  | .rowVarying text _ =>
    .error ("Composed MIN/MAX in DECIDE v1 requires a constant RHS; got '" ++ text ++ "'.")

/-! ## Lone MIN/MAX -/

/-- What the rewrite of a subtree leaves behind. -/
structure MinMaxRewrite where
  constraint : ConstraintTree DecideComparison
  generated : List (ConstraintTree DecideComparison) := []
  wasEasy : Bool := false

/-- Keep an aggregate-local WHEN as a wrapper around the per-row comparison. -/
def underFilter (filter : Option RowMask) (t : ConstraintTree DecideComparison) :
    ConstraintTree DecideComparison :=
  match filter with
  | none => t
  | some mask => .when t mask

/-- The direction in which every row has to meet the bound. -/
def isEasyMinMax (isMax : Bool) (effectiveCmp : Comparison) : Bool :=
  (isMax && (effectiveCmp = .le || effectiveCmp = .lt)) ||
    (!isMax && (effectiveCmp = .ge || effectiveCmp = .gt))

/-- A comparison flipped by a negative factor. -/
def flipBySign (scaleSign : ℤ) (cmp : Comparison) : Comparison :=
  if scaleSign < 0 then cmp.flip else cmp

/-- The per-row comparison of a MIN or MAX. -/
def easyComparison (scale : Option ScaleFactor) (agg : Aggregate) (cmp : Comparison)
    (rhs : RhsExpr) : DecideComparison where
  lhs := .row scale agg.child
  cmp
  rhs
  wasMinmaxEasy := true

/-- The tagged comparison of a MIN or MAX. -/
def hardComparison (scale : Option ScaleFactor) (agg : Aggregate) (cmp : Comparison)
    (rhs : RhsExpr) : DecideComparison where
  lhs := .hardMinMax scale agg
  cmp
  rhs

/-- The data summands of a body without a factor, which canonicalization moves to the right of a
generated comparison. -/
def crossingTerms (scale : Option ScaleFactor) (body : List LhsTerm) : List LhsTerm :=
  if scale.isSome then [] else body.filter fun t => t.variableIndex.isNone && t.summand

/-- The terms canonicalization leaves on the left. -/
def stayingTerms (scale : Option ScaleFactor) (body : List LhsTerm) : List LhsTerm :=
  if scale.isSome then body else body.filter fun t => !(t.variableIndex.isNone && t.summand)

/-- A bound with data moved across the relation. -/
def RhsExpr.cross (rhs : RhsExpr) (crossing : List LhsTerm) : RhsExpr :=
  if crossing.isEmpty then rhs
  else .rowVarying rhs.text fun rows r =>
    (rhs.value rows r).sub (decideRowFixedLhsOffset crossing r)

/-- The easy half of an equality, as it enters the tree: in canonical form. -/
def canonicalEasyHalf (scale : Option ScaleFactor) (agg : Aggregate) (cmp : Comparison)
    (rhs : RhsExpr) : DecideComparison :=
  easyComparison scale { agg with child := stayingTerms scale agg.child } cmp
    (rhs.cross (crossingTerms scale agg.child))

/-- The comparison arm of `RewriteMinMaxInConstraint`. -/
def rewriteMinMaxComparison (c : DecideComparison) : Except String MinMaxRewrite :=
  match c.lhs with
  | .reducers (.reducer scale agg) =>
    let scaleSign := scaleSignAtPlanTime scale
    if !agg.isDecideMinMax || scaleSign = 0 then .ok { constraint := .comparison c }
    else
      let isMax := agg.name = .max
      if c.cmp = .ne then
        .error "DECIDE does not support <> comparison with MIN/MAX aggregates."
      else if c.cmp = .eq then
        -- MAX(e) = K: every row e <= K, and MAX(e) >= K
        let easyCmp := flipBySign scaleSign (if isMax then .le else .ge)
        let hardCmp := flipBySign scaleSign (if isMax then .ge else .le)
        .ok { constraint := .comparison (hardComparison scale agg hardCmp c.rhs)
              generated :=
                [underFilter agg.filter (.comparison (canonicalEasyHalf scale agg easyCmp c.rhs))] }
      else if isEasyMinMax isMax (flipBySign scaleSign c.cmp) then
        -- the factor distributes over the per-row form, so the written relation stays
        .ok { constraint :=
                underFilter agg.filter (.comparison (easyComparison scale agg c.cmp c.rhs))
              wasEasy := true }
      else .ok { constraint := .comparison (hardComparison scale agg c.cmp c.rhs) }
  | _ => .ok { constraint := .comparison c }

/-- `RewriteMinMaxInConstraint`. -/
def rewriteMinMaxInConstraint : ConstraintTree DecideComparison → Except String MinMaxRewrite
  | .when t condition =>
    match rewriteMinMaxInConstraint t with
    | .error e => .error e
    | .ok r => .ok { r with constraint := .when r.constraint condition }
  | .per t columns =>
    match rewriteMinMaxInConstraint t with
    | .error e => .error e
    -- the easy case strips PER
    | .ok r => .ok (if r.wasEasy then r else { r with constraint := .per r.constraint columns })
  | .conjunction l r =>
    match rewriteMinMaxInConstraint l with
    | .error e => .error e
    | .ok l' =>
      match rewriteMinMaxInConstraint r with
      | .error e => .error e
      | .ok r' =>
        .ok { constraint := .conjunction l'.constraint r'.constraint
              generated := l'.generated ++ r'.generated }
  | .comparison c => rewriteMinMaxComparison c
  | .placeholder => .ok { constraint := .placeholder }

/-- `RewriteMinMaxConstraints`: the generated halves join the tree at the top. -/
def rewriteMinMaxConstraints (t : ConstraintTree DecideComparison) :
    Except String (ConstraintTree DecideComparison) :=
  match rewriteMinMaxInConstraint t with
  | .error e => .error e
  | .ok r => .ok (r.generated.foldl .conjunction r.constraint)

/-- Both rewrites, compositions first: the tree that is prepared, and the lifted clauses. -/
def rewriteMinMaxClauses (t : ConstraintTree DecideComparison) :
    Except String (ConstraintTree DecideComparison × List ComposedMinMaxConstraint) :=
  match rewriteComposedMinMaxInConstraint t with
  | .error e => .error e
  | .ok (t', clauses) =>
    match rewriteMinMaxConstraints t' with
    | .error e => .error e
    | .ok t'' => .ok (t'', clauses)

end Decidb
