import Decidb.Formulation.AbsLink
import Decidb.Formulation.LowerConstructs
import Decidb.Formulation.MinMaxConstraint
import Decidb.Formulation.MinMaxObjective
import Decidb.Formulation.NormCount
import Decidb.Formulation.NotEqual
import Decidb.Formulation.QuadraticRow
import Decidb.Formulation.Proofs.ColumnLayoutProofs

/-!
# The formulation as a run of passes

`FormulateModel` takes the assembled input through its passes in a fixed order. Each pass reads the
boxes as the passes before it left them, rewrites the evaluated constraints, and appends to the global
block: columns, rows, conditional rows and native constructs.
-/

namespace Decidb

open Linear

/-! ## Passes -/

/-- What the formulation is handed besides the input: the column space, and which constructs are stated
natively. -/
structure FormulationContext where
  layout : ColumnLayout
  numVars_pos : 0 < layout.numVars
  varNames : List String := []
  products : List BilinearLinkSpec := []
  products_lt : ∀ link ∈ products, link.auxIdx < layout.numVars ∧ link.boolVarIdx < layout.numVars ∧
    link.otherVarIdx < layout.numVars := by simp
  nativeAbs : Bool := false
  nativeMinMax : NativeConstructPolicy := {}
  nativeNotEqual : Bool := false

def FormulationContext.indexer (ctx : FormulationContext) : VarIndexer :=
  ctx.layout.indexer ctx.numVars_pos

/-- What one pass leaves to the next. `declared` holds the boxes the products are restored to. -/
structure FormulationState where
  input : SolverInput
  absLinks : List AbsMaximizeLinkSpec := []
  objective : QuadraticObjective := {}
  declared : SolverInput := input

/-- Terms read variables below `n`. -/
def TermsBelow (n : Nat) (terms : List LhsTerm) : Prop :=
  ∀ t ∈ terms, ∀ v, t.variableIndex = some v → v < n

/-- What `BuildSolverInput` hands over: the rows of the layout, a global block with nothing in it, and
constraints over declared variables. -/
structure FormulationState.Assembled (ctx : FormulationContext) (s : FormulationState) : Prop where
  numRows_eq : s.input.numRows = ctx.layout.numRows
  columns : s.input.globalColumns = []
  rows : s.input.globalConstraints = []
  generals : s.input.generalConstraints = []
  indicators : s.input.indicatorConstraints = []
  terms_lt : ∀ ec ∈ s.input.constraints, TermsBelow ctx.layout.numVars ec.lhsTerms
  links_lt : ∀ link ∈ s.absLinks, link.auxIdx < ctx.layout.numVars ∧
    ∀ y, link.yIdx = some y → y < ctx.layout.numVars

/-- `FormulationBox::OfSolvedModel` shows the boxes as they are when it is read. -/
def SolverInput.formulationBox (input : SolverInput) : FormulationBox :=
  ⟨input.lowerBounds, input.upperBounds⟩

/-- A composed clause with its data evaluated. -/
structure EvaluatedComposedClause where
  terms : List ComposedMinMaxTermData
  rhs : ℚ
  outerCmp : Comparison

/-- The passes of `FormulateModel`. -/
inductive FormulationPass where
  | fillAutoBounds
  | deriveBilinearAuxiliaryBounds
  | deriveAbsAuxiliaryBounds
  | encodeAbs
  | linearizeMinMaxConstraints
  | linearizeNotEqual
  | linearizeBilinear
  | linearizeMinMaxObjective (spec : MinMaxObjectiveSpec) (groups : ObjectiveGroups)
  | linearizeComposedMinMaxConstraint (clause : EvaluatedComposedClause)
  | linearizeComposedMinMaxObjective (terms : List ComposedMinMaxTermData)
  | lowerDecideConstructs

/-- One pass. -/
def FormulationPass.run (ctx : FormulationContext) (s : FormulationState) :
    FormulationPass → Except String FormulationState
  | .fillAutoBounds =>
    match Decidb.fillAutoBounds ctx.varNames s.input.formulationBox s.input.numRows
        s.input.constraints with
    | .error e => .error e
    | .ok constraints => .ok { s with input := { s.input with constraints } }
  | .deriveBilinearAuxiliaryBounds =>
    match ctx.products.foldlM
        (fun input link =>
          deriveBilinearAuxiliaryBound input.formulationBox ctx.varNames input link) s.input with
    | .error e => .error e
    | .ok input => .ok { s with input, declared := s.input }
  | .deriveAbsAuxiliaryBounds =>
    match Decidb.deriveAbsAuxiliaryBounds ctx.varNames (!ctx.nativeAbs) s.input s.absLinks with
    | .error e => .error e
    | .ok (input, absLinks) => .ok { s with input, absLinks }
  | .encodeAbs =>
    .ok { s with
      input := if ctx.nativeAbs then emitNativeAbs ctx.indexer s.input s.absLinks
        else linearizeAbsMaximize s.input s.absLinks }
  | .linearizeMinMaxConstraints =>
    match Decidb.linearizeMinMaxConstraints s.input ctx.indexer ctx.varNames ctx.nativeMinMax with
    | .error e => .error e
    | .ok input => .ok { s with input }
  | .linearizeNotEqual =>
    match Decidb.linearizeNotEqual s.input ctx.indexer with
    | .error e => .error e
    | .ok input => .ok { s with input }
  | .linearizeBilinear =>
    .ok { s with
      input := ctx.products.foldl
        (fun input link => linearizeBilinearLink input.formulationBox input link)
        (restoreDeclaredBoxes s.declared s.input ctx.products) }
  | .linearizeMinMaxObjective spec groups =>
    match Decidb.linearizeMinMaxObjective s.input ctx.indexer spec groups
        s.objective.toLinearObjective ctx.varNames ctx.nativeMinMax with
    | .error e => .error e
    | .ok (input, obj) =>
      .ok { s with input, objective := { s.objective with toLinearObjective := obj } }
  | .linearizeComposedMinMaxConstraint clause =>
    match Decidb.linearizeComposedMinMaxConstraint s.input ctx.indexer clause.terms clause.rhs
        clause.outerCmp ctx.varNames ctx.nativeMinMax with
    | .error e => .error e
    | .ok input => .ok { s with input }
  | .linearizeComposedMinMaxObjective terms =>
    match Decidb.linearizeComposedMinMaxObjective s.input ctx.indexer
        s.objective.toLinearObjective terms ctx.varNames ctx.nativeMinMax with
    | .error e => .error e
    | .ok (input, obj) =>
      .ok { s with input, objective := { s.objective with toLinearObjective := obj } }
  | .lowerDecideConstructs =>
    match Decidb.lowerDecideConstructs s.input ctx.layout (.ofSolvedModel s.input) ctx.varNames
        ctx.nativeNotEqual with
    | .error e => .error e
    | .ok input => .ok { s with input }

/-- The passes in turn. -/
def runPasses (ctx : FormulationContext) (s : FormulationState) :
    List FormulationPass → Except String FormulationState
  | [] => .ok s
  | p :: ps =>
    match p.run ctx s with
    | .error e => .error e
    | .ok s' => runPasses ctx s' ps

/-- The clauses evaluated before the formulation. -/
structure EvaluatedClauses where
  minMaxObjectiveSpec : MinMaxObjectiveSpec := {}
  objectiveGroups : ObjectiveGroups := {}
  composedConstraints : List EvaluatedComposedClause := []
  composedObjectiveTerms : List ComposedMinMaxTermData := []

/-- The order of the passes. -/
def formulationPasses (evaluated : EvaluatedClauses) : List FormulationPass :=
  [.fillAutoBounds, .deriveBilinearAuxiliaryBounds, .deriveAbsAuxiliaryBounds, .encodeAbs,
    .linearizeMinMaxConstraints, .linearizeNotEqual, .linearizeBilinear,
    .linearizeMinMaxObjective evaluated.minMaxObjectiveSpec evaluated.objectiveGroups] ++
  evaluated.composedConstraints.map .linearizeComposedMinMaxConstraint ++
  (if evaluated.composedObjectiveTerms.isEmpty then []
    else [.linearizeComposedMinMaxObjective evaluated.composedObjectiveTerms]) ++
  [.lowerDecideConstructs]

/-- `FormulateModel`. -/
def formulateModel (ctx : FormulationContext) (evaluated : EvaluatedClauses) (s : FormulationState) :
    Except String FormulationState :=
  runPasses ctx s (formulationPasses evaluated)

/-! ## What a pass emits without merging

Most rows are accumulated column by column. The passes below write some of theirs term by term, or
leave a row out of the check for rows without variables. -/

/-- The terms with a coefficient at a row read distinct columns. -/
def DistinctColumns (indexer : VarIndexer) (terms : List LhsTerm) (r : Nat) : Prop :=
  (terms.filterMap fun t =>
    if t.rowCoefficients r = 0 then none else t.variableIndex.map fun v => indexer.get v r).Nodup

/-- No two members rename one column. -/
def RenamesDistinct (members : List ExtremumMember) : Prop :=
  (members.filterMap fun m => m.link.soleColumn?).Nodup

/-- The native arm of a link lists no column twice. -/
def LinkClean (policy : NativeConstructPolicy) (needClosing underivable : Bool)
    (members : List ExtremumMember) : Prop :=
  needClosing = true → policy.use underivable = true → RenamesDistinct members

/-- One plain row stands for both halves of an exclusion. -/
def NECollapse.isOneRow : NECollapse → Bool
  | .lowerOnly | .upperOnly => true
  | _ => false

/-- The rows of a per-row `<>`. -/
def RowNotEqualClean (indexer : VarIndexer) (input : SolverInput) (ec : EvaluatedConstraint) : Prop :=
  let rows := notEqualRows ec input.numRows
  let collapse := classifyNEConstraint ec rows input.rigidLowerBounds input.rigidUpperBounds
  collapse ≠ .alwaysTrue → ∀ r ∈ rows, DistinctColumns indexer ec.lhsTerms r ∧
    (collapse.isOneRow = true → ∃ t ∈ ec.lhsTerms, t.variableIndex.isSome ∧ t.rowCoefficients r ≠ 0)

/-- Some column keeps a coefficient in the row of a group. -/
def GroupKeepsColumn (indexer : VarIndexer) (terms : List LhsTerm) (rows : List Nat) : Prop :=
  ∃ c, Form.coefficient (notEqualEntries indexer terms rows) c ≠ 0

/-- The verdict on one excluded value of a group. -/
def groupCollapse (input : SolverInput) (ec : EvaluatedConstraint) (rows : List Nat) (k : ℚ) :
    NECollapse :=
  if ec.bilinearTerms.isEmpty && ec.quadraticGroups.isEmpty then
    classifyReach (groupReach ec rows input.rigidLowerBounds input.rigidUpperBounds) k
  else .disjunction

/-- The rows of an aggregate `<>`. -/
def GroupNotEqualClean (indexer : VarIndexer) (input : SolverInput) (ec : EvaluatedConstraint) : Prop :=
  ∀ rows ∈ aggregateGroups ec input.numRows, rows ≠ [] →
    ∀ offset, sumFixedAggregateLhsOffset ec.lhsTerms rows = .ok offset →
      ∀ bound ∈ (distinctRhs ec rows).map (excludedBound ec rows offset),
        neIsIntegerValuedRhs bound = true → ∀ k, bound = .fin k →
          (groupCollapse input ec rows k).isOneRow = true → GroupKeepsColumn indexer ec.lhsTerms rows

/-- The rows of every `<>`. -/
def NotEqualClean (indexer : VarIndexer) (input : SolverInput) : Prop :=
  ∀ ec ∈ notEqualConstraints input,
    if ec.lhsIsAggregate then GroupNotEqualClean indexer input ec else RowNotEqualClean indexer input ec

/-- The rows that pin the arguments of native ABS constructs. -/
def NativeAbsClean (indexer : VarIndexer) (input : SolverInput) (link : AbsMaximizeLinkSpec) : Prop :=
  ∀ pair, absConstraintPair input.constraints link.auxIdx = some pair →
    ∀ r, r < input.numRows → (pair.c1.groupOf r).isSome → (∃ k, pair.c1.rhsValues r = .fin k) →
      DistinctColumns indexer
        (pair.c1.lhsTerms.filter fun t => t.variableIndex ≠ some link.auxIdx) r

/-- The native constructs of one hard MIN/MAX. -/
def MinMaxConstraintClean (indexer : VarIndexer) (policy : NativeConstructPolicy) (input : SolverInput)
    (ec : EvaluatedConstraint) : Prop :=
  ∀ agg, ec.minmaxAggType = some agg →
    ∀ ec', (classifyMinMaxGroups ec input.numRows (agg = .max)).1 = some ec' →
      ∀ group ∈ buildMinMaxGroups input indexer ec',
        (∃ r k, group.firstRow = some r ∧ ec'.rhsValues r = .fin k) →
          LinkClean policy true group.family.unbounded group.members

/-- The native constructs of a MIN/MAX objective. -/
def MinMaxObjectiveClean (indexer : VarIndexer) (policy : NativeConstructPolicy) (input : SolverInput)
    (spec : MinMaxObjectiveSpec) (groups : ObjectiveGroups) (obj : LinearObjective) : Prop :=
  let terms := obj.savedTerms
  let family := rowFamily input terms
  obj.objectiveVariableIndices ≠ [] →
    if spec.perInnerAgg ≠ .none ∧ 0 < groups.numGroups then
      if spec.perInnerAgg.isMinMax then
        ∀ g, g < groups.numGroups → LinkClean policy (!spec.perInnerIsEasy) family.unbounded
          (((groups.rows input.numRows g).filter (isActiveRow terms)).map
            (objectiveMember input indexer terms))
      else
        spec.perOuterAgg.isMinMax = true → LinkClean policy (!spec.perOuterIsEasy)
          (groupSumFamily input groups spec.perInnerWasAvg terms).unbounded
          (groupSumMembers input indexer spec groups terms)
    else
      spec.flatAgg ≠ .none → LinkClean policy (!spec.flatIsEasy) family.unbounded
        ((flatActiveRows spec input.numRows terms).map (objectiveMember input indexer terms))

/-- The native constructs of composed terms. -/
def ComposedTermsClean (indexer : VarIndexer) (policy : NativeConstructPolicy) (input : SolverInput)
    (terms : List ComposedMinMaxTermData) : Prop :=
  ∀ ta ∈ terms, ta.aggName.isMinMax = true →
    LinkClean policy (!ta.isEasy) (composedTermRange input ta).unbounded
      (composedMembers input indexer ta)

/-- Some column keeps a coefficient in the outer row of a composed clause. -/
def OuterRowKeepsColumn (indexer : VarIndexer) (numRows : Nat) (terms : List ComposedMinMaxTermData) :
    Prop :=
  (∃ ta ∈ terms, ta.aggName.isMinMax = true ∧ (ta.sign : ℚ) * ta.scale ≠ 0) ∨
    ∃ c, Form.coefficient ((terms.filter fun ta => !ta.aggName.isMinMax).foldl
      (addOuterTerm indexer numRows) ([], 0)).1 c ≠ 0

/-- A pass lists no column twice in what it emits, and emits no row without variables. -/
def FormulationPass.Clean (ctx : FormulationContext) (s : FormulationState) : FormulationPass → Prop
  | .encodeAbs =>
    ctx.nativeAbs = true → ∀ link ∈ s.absLinks, NativeAbsClean ctx.indexer s.input link
  | .linearizeMinMaxConstraints =>
    ∀ ec ∈ s.input.constraints, MinMaxConstraintClean ctx.indexer ctx.nativeMinMax s.input ec
  | .linearizeNotEqual => NotEqualClean ctx.indexer s.input
  | .linearizeMinMaxObjective spec groups =>
    MinMaxObjectiveClean ctx.indexer ctx.nativeMinMax s.input spec groups
      s.objective.toLinearObjective
  | .linearizeComposedMinMaxConstraint clause =>
    ComposedTermsClean ctx.indexer ctx.nativeMinMax s.input clause.terms ∧
      OuterRowKeepsColumn ctx.indexer s.input.numRows clause.terms
  | .linearizeComposedMinMaxObjective terms =>
    ComposedTermsClean ctx.indexer ctx.nativeMinMax s.input terms
  | _ => True

/-- Every pass of a run is clean where it runs. -/
def CleanRun (ctx : FormulationContext) : FormulationState → List FormulationPass → Prop
  | _, [] => True
  | s, p :: ps => p.Clean ctx s ∧ ∀ s', p.run ctx s = .ok s' → CleanRun ctx s' ps

end Decidb
