import Decidb.Optimizer.BoundAbsorption

/-!
# IN domains

`x IN (v_1, ..., v_k)` over a decision variable becomes one indicator per member, exactly one of which
is on, and a row that sets the variable to the member chosen. One member is an equation, and `{0, 1}`
says nothing about a BOOLEAN. A domain of constants that reaches below zero also lowers the floor.
-/

namespace Decidb

open Linear

/-- A member of an IN list: a constant under casts, arithmetic that folds to a constant, or data. -/
inductive DomainMember where
  | literal (k : ℚ)
  | folded (k : ℚ)
  | data (values : Nat → ℚ)

namespace DomainMember

/-- The value of a member at a row. -/
def valueAt : DomainMember → Nat → ℚ
  | literal k, _ => k
  | folded k, _ => k
  | data values, row => values row

/-- `TryEvaluateFoldableDoubleNoThrow`. -/
def foldable? : DomainMember → Option ℚ
  | literal k => some k
  | folded k => some k
  | data _ => none

/-- The constant `IsCastWrappedConstant` finds. -/
def literal? : DomainMember → Option ℚ
  | literal k => some k
  | _ => none

end DomainMember

/-- An IN over a decision variable. -/
structure InDomain where
  target : Nat
  members : List DomainMember
  members_ne : members ≠ []

namespace InDomain

/-- The two members are the domain of a BOOLEAN. -/
def restatesBoolean (d : InDomain) : Bool :=
  match d.members with
  | [m, m'] =>
    match m.foldable?, m'.foldable? with
    | some a, some b => (a = 0 && b = 1) || (a = 1 && b = 0)
    | _, _ => false
  | _ => false

def allConstant (d : InDomain) : Bool := d.members.all fun m => m.foldable?.isSome

/-- The least of zero and the constant members. -/
def minValue (d : InDomain) : ℚ := (d.members.filterMap (·.foldable?)).foldl min 0

end InDomain

/-- A comparison the rewrite generates, with the WHEN condition it is wrapped in. -/
structure GeneratedRow where
  lhs : List (Nat × (Nat → ℚ))
  cmp : Comparison
  rhs : DomainMember
  condition : Option RowMask

namespace GeneratedRow

/-- The comparison as bound absorption reads it. -/
def boundComparison (g : GeneratedRow) : BoundComparison where
  target := match g.lhs with
    | [(v, _)] => some v
    | _ => none
  cmp := g.cmp
  literal := g.rhs.literal?.map .fin

/-- `WrapWithWhen`. -/
def tree (g : GeneratedRow) : ConstraintTree BoundComparison :=
  match g.condition with
  | none => .comparison g.boundComparison
  | some m => .when (.comparison g.boundComparison) m

/-- The value of the left-hand side at a row. -/
def lhsValue (g : GeneratedRow) (row : Nat) (y : Nat → ℚ) : ℚ :=
  (g.lhs.map fun t => t.2 row * y t.1).sum

/-- What the row asks at a row of the data its condition keeps. -/
def HoldsAt (g : GeneratedRow) (row : Nat) (y : Nat → ℚ) : Prop :=
  (∀ m, g.condition = some m → m row = true) →
    g.cmp.Holds (g.lhsValue row y) (.fin (g.rhs.valueAt row))

end GeneratedRow

/-- A comparison of one variable. -/
def boundRow (v : Nat) (cmp : Comparison) (rhs : DomainMember) (condition : Option RowMask) :
    GeneratedRow where
  lhs := [(v, fun _ => 1)]
  cmp
  rhs
  condition

/-- Exactly one indicator is on. -/
def cardinalityRow (d : InDomain) (base : Nat) (condition : Option RowMask) : GeneratedRow where
  lhs := (d.members.zipIdx base).map fun p => (p.2, fun _ => 1)
  cmp := .eq
  rhs := .literal 1
  condition

/-- The variable has the value of the member whose indicator is on. -/
def linkingRow (d : InDomain) (base : Nat) (condition : Option RowMask) : GeneratedRow where
  lhs := (d.target, fun _ => 1) ::
    (d.members.zipIdx base).map fun p => (p.2, fun row => 0 - p.1.valueAt row)
  cmp := .eq
  rhs := .literal 0
  condition

/-- The rows one IN turns into, with its indicators from `base` on. -/
def inDomainRows (isBoolean : Bool) (base : Nat) (condition : Option RowMask) (d : InDomain) :
    List GeneratedRow :=
  if isBoolean && d.restatesBoolean then [boundRow d.target .ge (.literal 0) condition]
  else
    match d.members with
    | [m] => [boundRow d.target .eq m condition]
    | _ =>
      [cardinalityRow d base condition, linkingRow d base condition] ++
        if d.allConstant && d.minValue < 0 then
          [boundRow d.target .ge (.literal d.minValue) condition]
        else []

/-- The indicators one IN declares. -/
def inDomainIndicators (isBoolean : Bool) (d : InDomain) (targetName : String) (counter : Nat) :
    List (String × VarType) :=
  if isBoolean && d.restatesBoolean then []
  else
    match d.members with
    | [_] => []
    | members => (List.range members.length).map fun i =>
        ("__in_ind_" ++ targetName ++ "_" ++ toString counter ++ "_" ++ toString i ++ "__", .boolean)

/-- A leaf of the clause tree: an IN over a decision, or anything else. -/
inductive DomainLeaf (α : Type) where
  | inDomain (d : InDomain)
  | other (c : α)

/-- The variables declared so far, and how many INs got indicators. -/
structure DomainState where
  declared : List (String × VarType)
  counter : Nat := 0

/-- One IN. -/
def rewriteIn (condition : Option RowMask) (s : DomainState) (d : InDomain) :
    DomainState × List GeneratedRow :=
  let isBoolean := (s.declared[d.target]?.map (·.2)) = some .boolean
  let name := ((s.declared[d.target]?).map (·.1)).getD ""
  let indicators := inDomainIndicators isBoolean d name s.counter
  (⟨s.declared ++ indicators, if indicators = [] then s.counter else s.counter + 1⟩,
    inDomainRows isBoolean s.declared.length condition d)

/-- The walk of `RewriteInDomain`. Only the innermost WHEN above an IN reaches its rows, which are
kept together by the IN they come from and stand without any other wrapper. -/
def rewriteInDomain {α : Type} : ConstraintTree (DomainLeaf α) → Option RowMask → DomainState →
    DomainState × List (List GeneratedRow) × ConstraintTree (DomainLeaf α)
  | .when t m, _, s =>
    let (s, rows, t') := rewriteInDomain t (some m) s
    (s, rows, match t' with
      | .placeholder => .placeholder
      | t' => .when t' m)
  | .conjunction l r, condition, s =>
    let (s, rows, l') := rewriteInDomain l condition s
    let (s, rows', r') := rewriteInDomain r condition s
    (s, rows ++ rows', .conjunction l' r')
  | .per t columns, condition, s =>
    let (s, rows, t') := rewriteInDomain t condition s
    (s, rows, .per t' columns)
  | .comparison (.inDomain d), condition, s =>
    let (s, rows) := rewriteIn condition s d
    (s, [rows], .placeholder)
  | .comparison (.other c), _, s => (s, [], .comparison (.other c))
  | .placeholder, _, s => (s, [], .placeholder)

/-- The rows of one IN as they are appended to the clause. -/
def generatedTree (rows : List GeneratedRow) : ConstraintTree BoundComparison :=
  rows.foldr (fun g t => .conjunction g.tree t) .placeholder

/-- Whether a generated row stays a row: one that is absorbed into a column does not. -/
def GeneratedRow.staysRow (types : List VarType) (g : GeneratedRow) : Bool :=
  !(g.condition.isNone && (absorbBoundComparison types (types.map .seed) g.boundComparison).2)

end Decidb
