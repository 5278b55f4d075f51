import Decidb.Diagnostics.ColumnProvenance
import Decidb.Diagnostics.Proofs.ColumnProvenanceProofs
import Decidb.Solver.PostSolve
import Mathlib.Algebra.Order.Field.Rat
import Mathlib.Data.List.Sort
import Mathlib.Data.Set.Card

/-!
# Which instances of a variable run away

From the ray of an unbounded model `DiagnoseUnbounded` learns which instances of a variable escape,
`CharacterizeEscape` finds values of categorical columns that explain them, and `PrescribeCap` writes a
bound for the user to paste. Rates are exact fractions.
-/

namespace Decidb

/-! ## Columns to explain an escape by -/

/-- The instances of a variable, grouped by the values of one column. -/
structure ColumnGrouping where
  column : String
  /-- The group of every instance; none if it is excluded. -/
  instanceToGroup : List (Option Nat)
  groupValue : List String
  clauseReferenced : Bool := false
  deriving DecidableEq, Repr

namespace ColumnGrouping

/-- The group of an instance. -/
def groupOf (cg : ColumnGrouping) (i : Nat) : Option Nat :=
  ((cg.instanceToGroup[i]?).getD none).filter (· < cg.groupValue.length)

/-- The instances of a group, in order. -/
def members (cg : ColumnGrouping) (g : Nat) : List Nat :=
  (List.range cg.instanceToGroup.length).filter fun i => cg.groupOf i = some g

/-- `esc_members`. -/
def escMembers (cg : ColumnGrouping) (escaping : Finset Nat) (g : Nat) : List Nat :=
  (cg.members g).filter (· ∈ escaping)

/-- The share of a group that escapes. -/
def escapeRate (cg : ColumnGrouping) (escaping : Finset Nat) (g : Nat) : ℚ :=
  (cg.escMembers escaping g).length / (cg.members g).length

end ColumnGrouping

/-! ## CharacterizeEscape -/

/-- Of the instances with a value, how many escape. -/
structure EscapeRule where
  column : String
  value : String
  escaping : Nat
  total : Nat
  coversScope : Bool := false
  deriving DecidableEq, Repr

def EscapeRule.rate (r : EscapeRule) : ℚ := r.escaping / r.total

/-- A rule with the escaping instances it holds of: `rules`, `rule_members` and `kept_clause_referenced`. -/
structure KeptRule where
  rule : EscapeRule
  members : List Nat
  clauseReferenced : Bool
  deriving DecidableEq, Repr

/-- A group that escapes, in a share not below the threshold. -/
def reachesThreshold (escaping : Finset Nat) (threshold : ℚ) (cg : ColumnGrouping) (g : Nat) : Bool :=
  !(cg.members g).isEmpty && !(cg.escMembers escaping g).isEmpty &&
    !decide (cg.escapeRate escaping g + 1 / 10 ^ 12 < threshold)

/-- The rule of a group. -/
def ruleOf (escaping : Finset Nat) (o : ColumnGrouping × Nat) : KeptRule where
  rule :=
    { column := o.1.column
      value := o.1.groupValue.getD o.2 ""
      escaping := (o.1.escMembers escaping o.2).length
      total := (o.1.members o.2).length }
  members := o.1.escMembers escaping o.2
  clauseReferenced := o.1.clauseReferenced

/-- The groups that make a rule, column by column. -/
def escapeGroups (escaping : Finset Nat) (candidates : List ColumnGrouping) (threshold : ℚ) :
    List (ColumnGrouping × Nat) :=
  candidates.flatMap fun cg =>
    ((List.range cg.groupValue.length).filter (reachesThreshold escaping threshold cg)).map fun g => (cg, g)

/-- Of the rules with the same escaping instances the first stays, unless its column is not in the clause and
that of a later one is. -/
def keepRule : List KeptRule → KeptRule → List KeptRule
  | [], r => [r]
  | k :: kept, r =>
    if k.members = r.members then
      if r.clauseReferenced && !k.clauseReferenced then r :: kept else k :: kept
    else k :: keepRule kept r

/-- The order of the report: the highest rate first. -/
def reportsBefore (a b : EscapeRule) : Bool :=
  if a.rate ≠ b.rate then b.rate < a.rate
  else if a.column ≠ b.column then a.column < b.column
  else a.value < b.value

/-- The order the cover is chosen in: the widest rule first. -/
def coversBefore (a b : EscapeRule) : Bool :=
  if a.escaping ≠ b.escaping then b.escaping < a.escaping
  else if a.column ≠ b.column then a.column < b.column
  else a.value < b.value

/-- The instances covered so far, and the rules that cover them. -/
structure ScopeCover where
  covered : Finset Nat := ∅
  cover : List Nat := []

/-- Take a rule whose value escapes wholly, if it adds an instance. -/
def ScopeCover.extend (s : ScopeCover) (p : KeptRule × Nat) : ScopeCover :=
  if p.1.rule.escaping ≠ p.1.rule.total then s
  else if p.1.members.all (· ∈ s.covered) then s
  else ⟨s.covered ∪ p.1.members.toFinset, s.cover ++ [p.2]⟩

/-- `CharacterizeEscape`. -/
def characterizeEscape (escaping : Finset Nat) (candidates : List ColumnGrouping) (threshold : ℚ) :
    List EscapeRule :=
  let kept := ((escapeGroups escaping candidates threshold).map (ruleOf escaping)).foldl keepRule []
  let order := kept.zipIdx.insertionSort fun a b => reportsBefore b.1.rule a.1.rule = false
  let coverOrder := order.insertionSort fun a b => coversBefore b.1.rule a.1.rule = false
  let s := coverOrder.foldl ScopeCover.extend {}
  order.map fun p =>
    { p.1.rule with coversScope := decide (s.covered.card = escaping.card) && s.cover.contains p.2 }

/-! ## The prescribed cap -/

/-- Which way a variable runs. -/
inductive EscapeDirection where
  | positive
  | negative
  deriving DecidableEq, Repr

/-- `VarEscape`. -/
structure VarEscape where
  name : String
  direction : EscapeDirection
  escaping : Nat
  total : Nat
  allEscape : Bool
  isAux : Bool
  isEntityScoped : Bool
  rules : List EscapeRule
  deriving DecidableEq, Repr

/-- A bound to paste: `variable <= <cap>`, on the instances with one of these values if there are any. -/
structure EscapeCap where
  variableName : String
  scope : List (String × String)
  deriving DecidableEq, Repr

/-- The text of a cap. -/
def EscapeCap.text (cap : EscapeCap) : String :=
  let bound := cap.variableName ++ " <= <cap>"
  match cap.scope.map fun s => s.1 ++ " = '" ++ s.2 ++ "'" with
  | [] => bound
  | [condition] => bound ++ " WHEN " ++ condition
  | conditions => bound ++ " WHEN (" ++ " OR ".intercalate conditions ++ ")"

/-- `PrescribeCap`. -/
def prescribeCap (ve : VarEscape) : EscapeCap where
  variableName := ve.name
  scope := (ve.rules.filter (·.coversScope)).map fun r => (r.column, r.value)

/-! ## DiagnoseUnbounded -/

/-- The ray of an unbounded model with what is needed to name its columns. An empty relation is never
solved. -/
structure UnboundedDiagnosisInput where
  ray : List ℚ
  indexer : ColumnLayout
  numGlobalVars : Nat
  varLabels : List String
  varIsAux : List Bool
  escapeRate : ℚ
  getCandidates : Option (Nat → Nat → List ColumnGrouping)
  numRows_pos : 0 < indexer.numRows
  entitiesOccur : indexer.EntitiesOccur
  varLabels_length : varLabels.length = indexer.numVars
  varLabels_nonempty : "" ∉ varLabels
  escapeRate_pos : 0 < escapeRate
  escapeRate_le : escapeRate ≤ 1

namespace UnboundedDiagnosisInput

/-- The entries of the ray that move a named column. -/
def escapingColumns (input : UnboundedDiagnosisInput) : List (ℚ × ColumnProvenance) :=
  (input.ray.zip (buildColumnProvenance input.indexer input.numGlobalVars input.varLabels input.varIsAux
    [])).filter fun p =>
      !decide (|p.1| ≤ diagnosticRayEpsilon) &&
        !(p.2.kind = .globalAux || p.2.label.isEmpty || p.2.decideVarIdx.isNone)

/-- The entries of one variable: what `by_var` gathers under it. -/
def entriesOf (input : UnboundedDiagnosisInput) (v : Nat) : List (ℚ × ColumnProvenance) :=
  input.escapingColumns.filter fun p => p.2.decideVarIdx = some v

/-- The candidates asked for a variable. -/
def candidates (input : UnboundedDiagnosisInput) (v : Nat) : List ColumnGrouping :=
  match input.getCandidates with
  | none => []
  | some getCandidates => getCandidates v (input.indexer.numInstances v)

/-- `agg.instances`. -/
def instances (input : UnboundedDiagnosisInput) (v : Nat) : Finset Nat :=
  ((input.entriesOf v).filterMap fun p => p.2.inst).toFinset

/-- What is said of a variable; its direction is that of its first column. -/
def varEscape (input : UnboundedDiagnosisInput) (v : Nat) : Option VarEscape :=
  match input.entriesOf v with
  | [] => none
  | first :: _ =>
    let total := input.indexer.numInstances v
    let escaping := (input.instances v).card
    let isAux : Bool := first.2.kind = .aux
    some
      { name := first.2.label
        direction := if 0 < first.1 then .positive else .negative
        escaping := escaping
        total := total
        allEscape := total ≤ escaping
        isAux := isAux
        isEntityScoped := (input.indexer.variableScopes[v]?.map (·.isEntity)).getD false
        rules :=
          if !isAux && decide (escaping < total) && decide (1 < total) && input.getCandidates.isSome then
            characterizeEscape (input.instances v) (input.candidates v) input.escapeRate
          else [] }

/-- `DiagnoseUnbounded`, up to the rendering of its findings. -/
def diagnoseUnbounded (input : UnboundedDiagnosisInput) : List VarEscape :=
  if input.ray.isEmpty then [] else (List.range input.indexer.numVars).filterMap input.varEscape

/-- The ray at an instance of a variable. -/
def rayAt (input : UnboundedDiagnosisInput) (v inst : Nat) : ℚ :=
  input.ray.getD (input.indexer.instanceColumn v inst) 0

/-- An instance the ray moves. -/
def Escapes (input : UnboundedDiagnosisInput) (v inst : Nat) : Prop :=
  inst < input.indexer.numInstances v ∧ diagnosticRayEpsilon < |input.rayAt v inst|

/-- Where to an instance escapes. -/
def directionOf (input : UnboundedDiagnosisInput) (v inst : Nat) : EscapeDirection :=
  if 0 < input.rayAt v inst then .positive else .negative

end UnboundedDiagnosisInput

/-! ## What is promised -/

/-- An instance has a value in a column of this name. -/
def HasValue (candidates : List ColumnGrouping) (column value : String) (i : Nat) : Prop :=
  ∃ cg ∈ candidates, cg.column = column ∧ ∃ g, cg.groupOf i = some g ∧ cg.groupValue[g]? = some value

/-- A rule counts the instances of its value, and its rate is high enough. -/
structure EscapeRule.IsTrue (escaping : Finset Nat) (candidates : List ColumnGrouping) (threshold : ℚ)
    (r : EscapeRule) : Prop where
  escaping_eq : r.escaping = {i | HasValue candidates r.column r.value i ∧ i ∈ escaping}.ncard
  total_eq : r.total = {i | HasValue candidates r.column r.value i}.ncard
  threshold_le : threshold ≤ r.rate

/-- Every instance of the group escapes. -/
def ColumnGrouping.Whole (cg : ColumnGrouping) (escaping : Finset Nat) (g : Nat) : Prop :=
  ∀ i, cg.groupOf i = some g → i ∈ escaping

/-- Every escaping instance is in a whole group. -/
def WholeGroupsCover (escaping : Finset Nat) (candidates : List ColumnGrouping) : Prop :=
  ∀ i ∈ escaping, ∃ cg ∈ candidates, ∃ g, cg.groupOf i = some g ∧ cg.Whole escaping g

/-- The rules are true, those marked cover what escapes and nothing else, and they are marked where the whole
groups cover what escapes. -/
structure RulesTruthful (escaping : Finset Nat) (candidates : List ColumnGrouping) (threshold : ℚ)
    (rules : List EscapeRule) : Prop where
  isTrue : ∀ r ∈ rules, r.IsTrue escaping candidates threshold
  cover : (∃ r ∈ rules, r.coversScope = true) → ∀ i, i ∈ escaping ↔
    ∃ r ∈ rules, r.coversScope = true ∧ HasValue candidates r.column r.value i
  marked : WholeGroupsCover escaping candidates → ∃ r ∈ rules, r.coversScope = true

/-- A cap bounds an instance in this direction: it is an upper bound, on the instances of its scope. -/
def EscapeCap.Restricts (cap : EscapeCap) (candidates : List ColumnGrouping) (i : Nat)
    (direction : EscapeDirection) : Prop :=
  direction = .positive ∧ (cap.scope = [] ∨ ∃ s ∈ cap.scope, HasValue candidates s.1 s.2 i)

/-! ## When it is kept -/

/-- A group stands for those with its escaping instances: it is the first of them in a column the clause
names, or the first if there is none. -/
def IsKeptGroup (escaping : Finset Nat) (candidates : List ColumnGrouping) (threshold : ℚ)
    (o : ColumnGrouping × Nat) : Prop :=
  let same := (escapeGroups escaping candidates threshold).filter fun o' =>
    o'.1.escMembers escaping o'.2 = o.1.escMembers escaping o.2
  (same.find? fun o' => o'.1.clauseReferenced).or same.head? = some o

/-- Of the groups that are kept none is below the threshold by less than the tolerance, none shares its value
with an instance outside, and the whole ones cover what all whole groups cover. -/
structure EscapeGroupsSeparate (escaping : Finset Nat) (candidates : List ColumnGrouping) (threshold : ℚ) :
    Prop where
  rate_ge : ∀ o, IsKeptGroup escaping candidates threshold o → threshold ≤ o.1.escapeRate escaping o.2
  value_own : ∀ o, IsKeptGroup escaping candidates threshold o →
    ∀ i, HasValue candidates o.1.column (o.1.groupValue.getD o.2 "") i → o.1.groupOf i = some o.2
  whole_kept : WholeGroupsCover escaping candidates → ∀ i ∈ escaping,
    ∃ o, IsKeptGroup escaping candidates threshold o ∧ o.1.groupOf i = some o.2 ∧ o.1.Whole escaping o.2

end Decidb
