import Decidb.Formulation.Proofs.ModelMeaningProofs

/-!
# The formulation preserves the query

The passes refine one another, from the assembled input to the one the builder reads. So the model of a
query accepts the decisions the query does, and its optima are those of the query.
-/

namespace Decidb

open Linear SolverInput

variable {ctx : FormulationContext} {evaluated : EvaluatedClauses} {s t u : FormulationState}
  {sense : DecideSense} {a b : Nat → ℚ} {value : (Nat → ℚ) → ℚ} {model : BuiltModel}

/-! ## The objective of a query -/

/-- What the constants of the squares add up to. -/
def squaresConstant (indexer : VarIndexer) (obj : QuadraticObjective) : ℚ :=
  (obj.powerGroups.map fun qg => ((List.range indexer.numRows).map fun r =>
    qg.sign * quadraticRowConstant qg r * quadraticRowConstant qg r).sum).sum

/-- The objective with every row weighted by its group, as a nested SUM or AVG has it. -/
def LinearObjective.weightedByGroups (numRows : Nat) (spec : MinMaxObjectiveSpec)
    (groups : ObjectiveGroups) (obj : LinearObjective) : LinearObjective :=
  if spec.perInnerAgg ≠ .none ∧ 0 < groups.numGroups then
    { obj with
      objectiveCoefficients := obj.objectiveCoefficients.map fun col r =>
        match groups.rowGroupIds r with
        | none => col r
        | some g => col r * groups.scale numRows spec.perInnerWasAvg g }
  else obj

theorem LinearObjective.weightedByGroups_globals (numRows : Nat) (spec : MinMaxObjectiveSpec)
    (groups : ObjectiveGroups) (obj : LinearObjective) :
    (obj.weightedByGroups numRows spec groups).globalObjCoeffs = obj.globalObjCoeffs := by
  unfold weightedByGroups
  split <;> rfl

instance (spec : MinMaxObjectiveSpec) (groups : ObjectiveGroups) :
    Decidable (spec.HasAuxiliary groups) :=
  inferInstanceAs (Decidable (if spec.perInnerAgg ≠ .none ∧ 0 < groups.numGroups then
    spec.perInnerAgg.isMinMax = true ∨ spec.perOuterAgg.isMinMax = true else spec.flatAgg ≠ .none))

/-- What a query optimizes, less the constants of its terms. -/
def queryObjectiveValue (ctx : FormulationContext) (evaluated : EvaluatedClauses) (input : SolverInput)
    (obj : QuadraticObjective) (a : Nat → ℚ) : ℚ :=
  let spec := evaluated.minMaxObjectiveSpec
  let groups := evaluated.objectiveGroups
  if evaluated.composedObjectiveTerms ≠ [] then
    composedObjectiveValue ctx.indexer evaluated.composedObjectiveTerms a
  else if obj.objectiveVariableIndices ≠ [] ∧ spec.HasAuxiliary groups then
    minMaxObjectiveValue input ctx.indexer spec groups obj.savedTerms a +
      (writtenQuadraticValue ctx.indexer obj.bilinearObjectiveTerms obj.powerGroups
        (List.range ctx.indexer.numRows) a - squaresConstant ctx.indexer obj)
  else
    let linear := obj.toLinearObjective.weightedByGroups input.numRows spec groups
    writtenObjectiveValue ctx.indexer { obj with toLinearObjective := linear } a -
      (objectiveConstant ctx.indexer linear + squaresConstant ctx.indexer obj)

theorem quadraticObjectiveValue_eq (indexer : VarIndexer) (obj : QuadraticObjective) (a : Nat → ℚ) :
    quadraticObjectiveValue indexer obj a =
      writtenQuadraticValue indexer obj.bilinearObjectiveTerms obj.powerGroups
        (List.range indexer.numRows) a - squaresConstant indexer obj := by
  unfold quadraticObjectiveValue QuadraticObjective.buildQuad squaresConstant writtenQuadraticValue
  dsimp only
  rw [eval_mergeQEntries, Form.eval_append, eval_bilinearEntries, ← eval_powerGroups]
  ring

theorem quadraticObjectiveValue_readOff (indexer : VarIndexer) (obj : QuadraticObjective) :
    ReadOff indexer.globalBlockStart (quadraticObjectiveValue indexer obj) := by
  intro a b hab
  rw [quadraticObjectiveValue_eq, quadraticObjectiveValue_eq,
    writtenQuadraticValue_congr (fun r hr => List.mem_range.mp hr) hab]

/-- A linear objective adds nothing to its linear part. -/
theorem quadraticObjectiveValue_linear (indexer : VarIndexer) (linear : LinearObjective) (a : Nat → ℚ) :
    quadraticObjectiveValue indexer { toLinearObjective := linear } a = 0 := by
  simp [quadraticObjectiveValue, QuadraticObjective.buildQuad, QuadraticObjective.powerGroups,
    quadraticCrossEntries, bilinearEntries, mergeQEntries]

/-- The value of an objective reads the columns its coefficients are on. -/
theorem objective_readOff {n : Nat} {obj : QuadraticObjective} (hpos : 0 < ctx.indexer.numRows)
    (hn : ctx.indexer.globalBlockStart ≤ n) (hglobals : ∀ e ∈ obj.globalObjCoeffs, e.1 < n) :
    ReadOff n (obj.value ctx.indexer) := by
  intro a b hab
  rw [objective_value_eq, objective_value_eq,
    quadraticObjectiveValue_readOff ctx.indexer obj a b (hab.mono hn)]
  congr 1
  exact Form.eval_congr fun e he => hab _ (buildLinear_lt hpos hn hglobals e (List.mem_append_left _ he))

/-! ## Plain runs -/

/-- A query without products, ABS links and derived norm indicators. -/
structure FormulationState.Plain (ctx : FormulationContext) (s : FormulationState) : Prop where
  products : ctx.products = []
  absLinks : s.absLinks = []
  indicators : ∀ v, hasNamePrefix ctx.varNames autoIndicatorPrefix v = false

theorem runPasses_cons_ok {p : FormulationPass} {ps : List FormulationPass}
    (h : runPasses ctx s (p :: ps) = .ok t) : ∃ u, p.run ctx s = .ok u ∧ runPasses ctx u ps = .ok t := by
  unfold runPasses at h
  cases hp : p.run ctx s with
  | error e =>
    rw [hp] at h
    cases h
  | ok u =>
    rw [hp] at h
    exact ⟨u, rfl, h⟩

theorem runPasses_append_ok (qs : List FormulationPass) (ps : List FormulationPass) :
    ∀ {s : FormulationState}, runPasses ctx s (ps ++ qs) = .ok t →
      ∃ u, runPasses ctx s ps = .ok u ∧ runPasses ctx u qs = .ok t := by
  induction ps with
  | nil => exact fun h => ⟨_, rfl, h⟩
  | cons p ps ih =>
    intro s h
    obtain ⟨u, hp, hrest⟩ := runPasses_cons_ok h
    obtain ⟨v, hv, hqs⟩ := ih hrest
    refine ⟨v, ?_, hqs⟩
    unfold runPasses
    rw [hp]
    exact hv

theorem run_minMaxObjective_ok {spec : MinMaxObjectiveSpec} {groups : ObjectiveGroups}
    (h : (FormulationPass.linearizeMinMaxObjective spec groups).run ctx s = .ok t) :
    ∃ res, linearizeMinMaxObjective s.input ctx.indexer spec groups s.objective.toLinearObjective
        ctx.varNames ctx.nativeMinMax = .ok res ∧
      t.input = res.1 ∧ t.objective = { s.objective with toLinearObjective := res.2 } := by
  unfold FormulationPass.run at h
  dsimp only at h
  split at h
  · cases h
  rename_i input obj hpass
  obtain rfl := Except.ok.inj h
  exact ⟨(input, obj), hpass, rfl, rfl⟩

theorem run_composedObjective_ok {terms : List ComposedMinMaxTermData}
    (h : (FormulationPass.linearizeComposedMinMaxObjective terms).run ctx s = .ok t) :
    ∃ res, linearizeComposedMinMaxObjective s.input ctx.indexer s.objective.toLinearObjective terms
        ctx.varNames ctx.nativeMinMax = .ok res ∧
      t.input = res.1 ∧ t.objective = { s.objective with toLinearObjective := res.2 } := by
  unfold FormulationPass.run at h
  dsimp only at h
  split at h
  · cases h
  rename_i input obj hpass
  obtain rfl := Except.ok.inj h
  exact ⟨(input, obj), hpass, rfl, rfl⟩

/-- Without an indicator whose bound is derived no row is filled in. -/
theorem fillAutoBounds_plain {varNames : List String} {box : FormulationBox} {numRows : Nat}
    (h : ∀ v, hasNamePrefix varNames autoIndicatorPrefix v = false)
    (constraints : List EvaluatedConstraint) :
    fillAutoBounds varNames box numRows constraints = .ok constraints := by
  have hone : ∀ ec : EvaluatedConstraint, fillAutoBound varNames box numRows ec = .ok ec := by
    intro ec
    have hscan : (scanAutoIndicator varNames ec.lhsTerms).1 = none := by
      unfold scanAutoIndicator
      refine List.foldlRecOn _ _ (motive := fun acc : Option Nat × Bool => acc.1 = none) rfl
        fun acc hacc p _ => ?_
      cases p.1.variableIndex with
      | none => exact hacc
      | some v =>
        dsimp only
        rw [h v, if_neg Bool.false_ne_true]
        split <;> exact hacc
    unfold fillAutoBound
    split
    · rename_i t heq
      rw [heq] at hscan
      cases hscan
    · rfl
  unfold fillAutoBounds
  induction constraints with
  | nil => rfl
  | cons ec constraints ih =>
    rw [List.mapM_cons, hone, ih]
    rfl

/-- The passes of a plain run that change anything. -/
theorem formulateModel_plain (hplain : s.Plain ctx) (hok : formulateModel ctx evaluated s = .ok t) :
    ∃ u₁ u₂, linearizeMinMaxConstraints s.input ctx.indexer ctx.varNames ctx.nativeMinMax = .ok u₁ ∧
      linearizeNotEqual u₁ ctx.indexer = .ok u₂ ∧
      runPasses ctx { s with input := u₂, declared := s.input }
        (.linearizeMinMaxObjective evaluated.minMaxObjectiveSpec evaluated.objectiveGroups ::
          (evaluated.composedConstraints.map .linearizeComposedMinMaxConstraint ++
            ((if evaluated.composedObjectiveTerms.isEmpty then []
              else [.linearizeComposedMinMaxObjective evaluated.composedObjectiveTerms]) ++
            [.lowerDecideConstructs]))) = .ok t := by
  unfold formulateModel formulationPasses at hok
  simp only [List.append_assoc, List.cons_append, List.nil_append] at hok
  obtain ⟨s₁, h₁, hok₁⟩ := runPasses_cons_ok hok
  have hs₁ : s₁ = s := by
    unfold FormulationPass.run at h₁
    dsimp only at h₁
    rw [fillAutoBounds_plain hplain.indicators] at h₁
    exact (Except.ok.inj h₁).symm
  rw [hs₁] at hok₁
  obtain ⟨s₂, h₂, hok₂⟩ := runPasses_cons_ok hok₁
  have hs₂ : s₂ = { s with declared := s.input } := by
    unfold FormulationPass.run at h₂
    dsimp only at h₂
    rw [hplain.products] at h₂
    exact (Except.ok.inj h₂).symm
  rw [hs₂] at hok₂
  obtain ⟨s₃, h₃, hok₃⟩ := runPasses_cons_ok hok₂
  have hs₃ : s₃ = { s with declared := s.input } := by
    unfold FormulationPass.run deriveAbsAuxiliaryBounds at h₃
    dsimp only at h₃
    rw [hplain.absLinks] at h₃
    rw [← Except.ok.inj h₃, ← hplain.absLinks]
  rw [hs₃] at hok₃
  obtain ⟨s₄, h₄, hok₄⟩ := runPasses_cons_ok hok₃
  have hs₄ : s₄ = { s with declared := s.input } := by
    rw [← Except.ok.inj h₄]
    cases hnative : ctx.nativeAbs with
    | true => simp [emitNativeAbs, hplain.absLinks]
    | false => simp [linearizeAbsMaximize, hplain.absLinks]
  rw [hs₄] at hok₄
  obtain ⟨s₅, h₅, hok₅⟩ := runPasses_cons_ok hok₄
  obtain ⟨s₆, h₆, hok₆⟩ := runPasses_cons_ok hok₅
  obtain ⟨s₇, h₇, hok₇⟩ := runPasses_cons_ok hok₆
  unfold FormulationPass.run at h₅ h₆ h₇
  dsimp only at h₅ h₆ h₇
  split at h₅
  · cases h₅
  rename_i u₁ hminmax
  rw [← Except.ok.inj h₅] at h₆
  split at h₆
  · cases h₆
  rename_i u₂ hne
  rw [← Except.ok.inj h₆, hplain.products] at h₇
  rw [← Except.ok.inj h₇] at hok₇
  exact ⟨u₁, u₂, hminmax, hne, hok₇⟩

/-! ## One pass after the other -/

namespace SameBoxes

variable {input out : SolverInput}

/-- What the passes leave alone is left as it was. -/
theorem frame (h : SameBoxes input out) : out = { input with
    constraints := out.constraints
    globalColumns := out.globalColumns
    globalConstraints := out.globalConstraints
    generalConstraints := out.generalConstraints
    indicatorConstraints := out.indicatorConstraints } := by
  cases out
  simp only [SolverInput.mk.injEq, and_true]
  exact ⟨h.numRows_eq, h.types_eq, h.lower_eq, h.upper_eq, h.rigidLower_eq, h.rigidUpper_eq⟩

theorem integralOperands (h : SameBoxes input out) {ec : EvaluatedConstraint}
    (hec : IntegralOperands input ec) : IntegralOperands out ec := by
  rw [h.frame]
  exact ⟨hec.boxed, hec.constants, hec.bounds⟩

theorem rigidContains (h : SameBoxes input out) (hinput : RigidContains input) : RigidContains out := by
  rw [h.frame]
  exact ⟨hinput.lower, hinput.upper⟩

variable {spec : MinMaxObjectiveSpec} {groups : ObjectiveGroups} {terms : List LhsTerm}
  {indexer : VarIndexer}

theorem objectiveKeepsCoefficients (h : SameBoxes input out)
    (hinput : ObjectiveKeepsCoefficients input indexer spec groups terms) :
    ObjectiveKeepsCoefficients out indexer spec groups terms := by
  unfold ObjectiveKeepsCoefficients at hinput ⊢
  split
  · rename_i hper
    rw [if_pos hper] at hinput
    split
    · rename_i hmm
      rw [if_pos hmm] at hinput
      rw [h.frame]
      exact ⟨hinput.tiny, hinput.merged, hinput.lower, hinput.upper⟩
    · rename_i hmm
      rw [if_neg hmm] at hinput
      rw [h.frame]
      exact ⟨hinput.tiny, hinput.merged⟩
  · rename_i hper
    rw [if_neg hper] at hinput
    rw [h.frame]
    exact ⟨hinput.tiny, hinput.merged⟩

theorem minMaxObjectiveValue_eq (h : SameBoxes input out) :
    minMaxObjectiveValue out indexer spec groups terms = minMaxObjectiveValue input indexer spec groups terms := by
  rw [h.frame]
  rfl

end SameBoxes

/-- An objective without an auxiliary keeps its terms, weighted by their groups. -/
theorem linearizeMinMaxObjective_plain {input : SolverInput} {indexer : VarIndexer}
    {spec : MinMaxObjectiveSpec} {groups : ObjectiveGroups} {obj : LinearObjective}
    {varNames : List String} {policy : NativeConstructPolicy} {res : SolverInput × LinearObjective}
    (hfits : spec.Fits sense)
    (hplain : ¬ (obj.objectiveVariableIndices ≠ [] ∧ spec.HasAuxiliary groups))
    (hok : linearizeMinMaxObjective input indexer spec groups obj varNames policy = .ok res) :
    res.1 = input ∧ buildLinearObjective indexer res.2 =
      buildLinearObjective indexer (obj.weightedByGroups input.numRows spec groups) ∧
      res.2.globalObjCoeffs = obj.globalObjCoeffs := by
  unfold linearizeMinMaxObjective at hok
  unfold LinearObjective.weightedByGroups
  by_cases hvars : obj.objectiveVariableIndices = []
  · rw [if_pos (by rw [hvars]; rfl)] at hok
    obtain rfl := Except.ok.inj hok
    refine ⟨rfl, ?_, rfl⟩
    unfold buildLinearObjective
    split <;> simp [hvars]
  have haux : ¬ spec.HasAuxiliary groups := fun h => hplain ⟨hvars, h⟩
  unfold MinMaxObjectiveSpec.HasAuxiliary at haux
  rw [if_neg (by simpa using hvars)] at hok
  by_cases hper : spec.perInnerAgg ≠ .none ∧ 0 < groups.numGroups
  · rw [if_pos hper] at hok haux ⊢
    obtain ⟨hinner, houter⟩ := not_or.mp haux
    rw [if_neg hinner] at hok
    have hsum : spec.perOuterAgg = .sum := by
      have hne := hfits.outer_ne_none hper.1
      cases hagg : spec.perOuterAgg with
      | none => exact absurd hagg hne
      | sum => rfl
      | min | max => exact absurd (by rw [hagg]; rfl) houter
    unfold linearizeInnerSum at hok
    dsimp only at hok
    rw [hsum] at hok
    obtain rfl := Except.ok.inj hok
    exact ⟨rfl, rfl, rfl⟩
  · rw [if_neg hper] at hok haux ⊢
    rw [if_neg haux] at hok
    obtain rfl := Except.ok.inj hok
    exact ⟨rfl, rfl, rfl⟩

/-- What the objective of a query has to be for the passes to read it right. -/
structure ObjectiveReadable (ctx : FormulationContext) (sense : DecideSense)
    (evaluated : EvaluatedClauses) (s : FormulationState) : Prop where
  globals : s.objective.globalObjCoeffs = []
  fits : evaluated.minMaxObjectiveSpec.Fits sense
  minMax : s.objective.objectiveVariableIndices ≠ [] →
    evaluated.minMaxObjectiveSpec.HasAuxiliary evaluated.objectiveGroups →
      TermsBoxed s.input s.objective.savedTerms ∧
        ObjectiveKeepsCoefficients s.input ctx.indexer evaluated.minMaxObjectiveSpec
          evaluated.objectiveGroups s.objective.savedTerms
  composed : evaluated.composedObjectiveTerms ≠ [] → s.objective = {} ∧
    (∀ t ∈ evaluated.composedObjectiveTerms, t.rows ctx.indexer.numRows ≠ []) ∧
      ComposedReadable ctx.indexer sense.pressure evaluated.composedObjectiveTerms

/-- **The objective pass of an objective that is not composed.** -/
theorem objectivePass_refines {input : SolverInput} {res : SolverInput × LinearObjective}
    (hs : input.WellScoped ctx.indexer) (hpos : 0 < ctx.indexer.numRows)
    (hboxes : SameBoxes s.input input) (hobj : ObjectiveReadable ctx sense evaluated s)
    (hterms : evaluated.composedObjectiveTerms = [])
    (hok : linearizeMinMaxObjective input ctx.indexer evaluated.minMaxObjectiveSpec
      evaluated.objectiveGroups s.objective.toLinearObjective ctx.varNames ctx.nativeMinMax = .ok res) :
    Program.Refines sense.Dominates
        (input.program ctx (queryObjectiveValue ctx evaluated s.input s.objective))
        (res.1.program ctx
          (({ s.objective with toLinearObjective := res.2 } : QuadraticObjective).value ctx.indexer))
        (fun _ => True) ∧
      ∀ e ∈ res.2.globalObjCoeffs, e.1 < res.1.width ctx.indexer := by
  have hvalue : ({ s.objective with toLinearObjective := res.2 } : QuadraticObjective).value
      ctx.indexer = fun a => (buildLinearObjective ctx.indexer res.2).eval a +
        quadraticObjectiveValue ctx.indexer s.objective a := by
    funext a
    rw [objective_value_eq]
    rfl
  by_cases haux : s.objective.objectiveVariableIndices ≠ [] ∧
    evaluated.minMaxObjectiveSpec.HasAuxiliary evaluated.objectiveGroups
  · obtain ⟨hboxed, hclean⟩ := hobj.minMax haux.1 haux.2
    have hquery : queryObjectiveValue ctx evaluated s.input s.objective = fun a =>
        minMaxObjectiveValue input ctx.indexer evaluated.minMaxObjectiveSpec evaluated.objectiveGroups
          s.objective.savedTerms a + quadraticObjectiveValue ctx.indexer s.objective a := by
      funext a
      unfold queryObjectiveValue
      dsimp only
      rw [if_neg (not_not.mpr hterms), if_pos haux, hboxes.minMaxObjectiveValue_eq,
        quadraticObjectiveValue_eq]
    rw [hquery, hvalue]
    refine minMaxObjective_refines hs hpos (quadraticObjectiveValue_readOff _ _) hobj.fits haux.2 haux.1
      hobj.globals (fun t ht v hv => ?_) (hboxes.objectiveKeepsCoefficients hclean) hok
    rw [hboxes.lower_eq, hboxes.upper_eq]
    exact hboxed t ht v hv
  · obtain ⟨hinput, hlinear, hglobals⟩ := linearizeMinMaxObjective_plain hobj.fits haux hok
    have hquery : queryObjectiveValue ctx evaluated s.input s.objective = fun a =>
        (buildLinearObjective ctx.indexer res.2).eval a +
          quadraticObjectiveValue ctx.indexer s.objective a := by
      funext a
      unfold queryObjectiveValue
      dsimp only
      rw [if_neg (not_not.mpr hterms), if_neg haux, hlinear, hboxes.numRows_eq]
      exact (quadraticObjective_value { s.objective with toLinearObjective := _ }).symm.trans
        (objective_value_eq ctx.indexer _ a)
    rw [hquery, hvalue, hinput]
    refine ⟨.refl _, fun e he => ?_⟩
    rw [hglobals, hobj.globals] at he
    cases he

/-- **Composed constraints**, by induction on their list. -/
theorem composedConstraints_refines (sense : DecideSense) (hpos : 0 < ctx.indexer.numRows)
    (clauses : List EvaluatedComposedClause) : ∀ {s : FormulationState},
    s.input.WellScoped ctx.indexer → ReadOff (s.input.width ctx.indexer) value →
    (∀ clause ∈ clauses, ComposedReadable ctx.indexer clause.outerCmp clause.terms) →
    runPasses ctx s (clauses.map .linearizeComposedMinMaxConstraint) = .ok t →
      Program.Refines sense.Dominates (s.input.program ctx value) (t.input.program ctx value)
          (fun a => ∀ clause ∈ clauses, clause.Asks ctx.indexer a) ∧
        Grown ctx.indexer s.input t.input ∧ KeepsBinaries s.input t.input ∧
          t.objective = s.objective := by
  induction clauses with
  | nil =>
    intro s hs _ _ hok
    obtain rfl : s = t := Except.ok.inj hok
    exact ⟨(Program.Refines.refl _).congr fun a _ => by simp, .refl hs, .refl _, rfl⟩
  | cons clause clauses ih =>
    intro s hs hvalue hreadable hok
    obtain ⟨u, hpass, hrest⟩ := runPasses_cons_ok hok
    unfold FormulationPass.run at hpass
    dsimp only at hpass
    split at hpass
    · cases hpass
    rename_i input hclause
    obtain rfl := Except.ok.inj hpass
    rw [List.forall_mem_cons] at hreadable
    have hgrown := (emits_composedConstraint hs hclause).toGrown
    have hone := composedConstraint_refines sense hs hpos hvalue hreadable.1 hclause
    obtain ⟨hmany, hgrown', hkeeps, hobjective⟩ := ih hgrown.wellScoped
      (hvalue.mono hgrown.width_le) hreadable.2 hrest
    refine ⟨(hone.trans hmany ?_).congr fun a _ => by rw [List.forall_mem_cons], hgrown.trans hgrown',
      (keepsBinaries_composedConstraint hclause).trans hkeeps, hobjective⟩
    exact ReadsBelow.forall_mem fun clause _ =>
      (clause.asks_readsBelow ctx.indexer).mono (Nat.le_add_right _ _)

/-- The last pass changes rows of the block only. -/
theorem lowerConstructs_frame {input out : SolverInput} {layout : ColumnLayout}
    {varNames : List String} {native : Bool}
    (hok : lowerDecideConstructs input layout (.ofSolvedModel input) varNames native = .ok out) :
    out = { input with
      globalConstraints := out.globalConstraints
      indicatorConstraints := out.indicatorConstraints } := by
  unfold lowerDecideConstructs at hok
  split at hok
  · obtain rfl := Except.ok.inj hok
    rfl
  split at hok
  · cases hok
  · obtain rfl := Except.ok.inj hok
    rfl

/-! ## The whole formulation -/

/-- What a query has to be for its model to be exact. -/
structure QueryReadable (ctx : FormulationContext) (sense : DecideSense)
    (evaluated : EvaluatedClauses) (s : FormulationState) : Prop where
  plain : s.Plain ctx
  numRows_pos : 0 < ctx.indexer.numRows
  boxed : s.input.lowerBounds.length ≤ ctx.layout.numVars
  rigid : RigidContains s.input
  exclusions : ∀ ec ∈ notEqualConstraints s.input, IntegralOperands s.input ec
  hard : ∀ ec ∈ s.input.constraints, ∀ agg, ec.minmaxAggType = some agg →
    HardReadable ctx.indexer agg ec
  rows : ∀ ec ∈ s.input.constraints, ec.neClauseIdx = none →
    ∀ c ∈ remaining ctx.indexer.numRows ec, c.RowsReadable s.input.variableTypes ctx.indexer
  clauses : ∀ clause ∈ evaluated.composedConstraints,
    ComposedReadable ctx.indexer clause.outerCmp clause.terms
  objective : ObjectiveReadable ctx sense evaluated s

/-- The constraints the builder is left with. -/
def builtConstraints (ctx : FormulationContext) (s : FormulationState) : List EvaluatedConstraint :=
  withoutNotEqual (s.input.constraints.flatMap (remaining ctx.indexer.numRows))

/-- What the formulation leaves to the builder. -/
structure BuildReady (ctx : FormulationContext) (s t : FormulationState) : Prop where
  boxes : SameBoxes s.input t.input
  constraints : t.input.constraints = builtConstraints ctx s
  binaries : BinaryGlobals t.input
  globals_lt : ∀ e ∈ t.objective.globalObjCoeffs, e.1 < t.input.width ctx.indexer

/-- A constraint the builder is left with comes from one of the query that is no `<>`. -/
theorem QueryReadable.of_mem_built (h : QueryReadable ctx sense evaluated s) {c : EvaluatedConstraint}
    (hc : c ∈ builtConstraints ctx s) : c.neClauseIdx = none ∧ c.minmaxAggType = none ∧
      c.RowsReadable s.input.variableTypes ctx.indexer := by
  obtain ⟨hc, hnone⟩ := List.mem_filter.mp hc
  obtain ⟨ec, hec, hc⟩ := List.mem_flatMap.mp hc
  have hidx : c.neClauseIdx = none := Option.isNone_iff_eq_none.mp hnone
  cases hagg : ec.minmaxAggType with
  | none =>
    have hself := hc
    unfold remaining at hself
    rw [hagg] at hself
    obtain rfl := List.mem_singleton.mp hself
    exact ⟨hidx, hagg, h.rows c hec hidx c hc⟩
  | some agg =>
    have hrest := hc
    unfold remaining at hrest
    rw [hagg] at hrest
    exact ⟨hidx, ((h.hard ec hec agg hagg).remaining hrest).2.1,
      h.rows ec hec (h.hard ec hec agg hagg).notEqual c hc⟩

/-- A `<>` that is left after the hard MIN/MAX pass was one of the query. -/
theorem QueryReadable.exclusion_of_remaining (h : QueryReadable ctx sense evaluated s)
    {ec : EvaluatedConstraint} (hec : ec ∈ s.input.constraints.flatMap (remaining ctx.indexer.numRows))
    (hidx : ec.neClauseIdx.isSome = true) : ec ∈ notEqualConstraints s.input := by
  obtain ⟨ec', hec', hc⟩ := List.mem_flatMap.mp hec
  unfold remaining at hc
  cases hagg : ec'.minmaxAggType with
  | none =>
    rw [hagg] at hc
    obtain rfl := List.mem_singleton.mp hc
    exact List.mem_filter.mpr ⟨hec', hidx⟩
  | some agg =>
    rw [hagg] at hc
    rw [((h.hard ec' hec' agg hagg).remaining hc).1] at hidx
    cases hidx

theorem queryObjectiveValue_readOff (hs : s.input.WellScoped ctx.indexer)
    (hquery : QueryReadable ctx sense evaluated s) :
    ReadOff ctx.indexer.globalBlockStart (queryObjectiveValue ctx evaluated s.input s.objective) := by
  intro a b hab
  unfold queryObjectiveValue
  dsimp only
  split
  · exact composedObjectiveValue_readOff _ _ a b hab
  split
  · rw [minMaxObjectiveValue_congr hs hab, ← quadraticObjectiveValue_eq, ← quadraticObjectiveValue_eq,
      quadraticObjectiveValue_readOff _ _ a b hab]
  · have hglobals : ∀ e ∈ (s.objective.toLinearObjective.weightedByGroups s.input.numRows
        evaluated.minMaxObjectiveSpec evaluated.objectiveGroups).globalObjCoeffs,
        e.1 < ctx.indexer.globalBlockStart := by
      rw [LinearObjective.weightedByGroups_globals, hquery.objective.globals]
      exact fun e he => absurd he List.not_mem_nil
    generalize s.objective.toLinearObjective.weightedByGroups s.input.numRows
      evaluated.minMaxObjectiveSpec evaluated.objectiveGroups = linear at hglobals ⊢
    have hread : QuadraticObjective.value ctx.indexer { s.objective with toLinearObjective := linear } a =
        QuadraticObjective.value ctx.indexer { s.objective with toLinearObjective := linear } b :=
      objective_readOff hquery.numRows_pos le_rfl hglobals a b hab
    rw [quadraticObjective_value, quadraticObjective_value] at hread
    exact hread

/-- **The objective passes**, from the input whose `<>` are expanded. -/
theorem objectivePasses_refine {input : SolverInput} (hs : input.WellScoped ctx.indexer)
    (hboxes : SameBoxes s.input input) (hquery : QueryReadable ctx sense evaluated s)
    {declared : SolverInput}
    (hok : runPasses ctx { s with input, declared }
      (.linearizeMinMaxObjective evaluated.minMaxObjectiveSpec evaluated.objectiveGroups ::
        (evaluated.composedConstraints.map .linearizeComposedMinMaxConstraint ++
          (if evaluated.composedObjectiveTerms.isEmpty then []
            else [.linearizeComposedMinMaxObjective evaluated.composedObjectiveTerms]))) = .ok t) :
    Program.Refines sense.Dominates
        (input.program ctx (queryObjectiveValue ctx evaluated s.input s.objective))
        (t.input.program ctx (t.objective.value ctx.indexer))
        (fun a => ∀ clause ∈ evaluated.composedConstraints, clause.Asks ctx.indexer a) ∧
      Grown ctx.indexer input t.input ∧ KeepsBinaries input t.input ∧
        ∀ e ∈ t.objective.globalObjCoeffs, e.1 < t.input.width ctx.indexer := by
  have hpos := hquery.numRows_pos
  obtain ⟨u, hfirst, hrest⟩ := runPasses_cons_ok hok
  obtain ⟨w, hclauses, hlast⟩ := runPasses_append_ok _ _ hrest
  obtain ⟨res, hpass, hinput, hobj⟩ := run_minMaxObjective_ok hfirst
  dsimp only at hpass hobj
  have hgrown := (emits_minMaxObjective hs hpass).toGrown
  have hkeeps := keepsBinaries_minMaxObjective hs hpass
  rw [← hinput] at hgrown hkeeps
  have hasks : ReadsBelow (input.width ctx.indexer) fun a =>
      ∀ clause ∈ evaluated.composedConstraints, clause.Asks ctx.indexer a :=
    ReadsBelow.forall_mem fun clause _ =>
      (clause.asks_readsBelow ctx.indexer).mono (Nat.le_add_right _ _)
  by_cases hterms : evaluated.composedObjectiveTerms = []
  · rw [hterms] at hlast
    obtain rfl : w = t := Except.ok.inj hlast
    obtain ⟨hobjective, hglobals⟩ := objectivePass_refines hs hpos hboxes hquery.objective hterms hpass
    rw [← hinput, ← hobj] at hobjective
    have hlt : ∀ e ∈ u.objective.globalObjCoeffs, e.1 < u.input.width ctx.indexer := by
      rw [hinput, hobj]
      exact hglobals
    obtain ⟨hcomposed, hgrown', hkeeps', hsame⟩ := composedConstraints_refines sense hpos _
      hgrown.wellScoped (objective_readOff hpos (Nat.le_add_right _ _) hlt) hquery.clauses hclauses
    rw [hsame]
    exact ⟨(hobjective.trans hcomposed hasks).congr fun a _ => by rw [true_and], hgrown.trans hgrown',
      hkeeps.trans hkeeps', fun e he => (hlt e he).trans_le hgrown'.width_le⟩
  · -- the terms of a composed objective are its own, the objective itself has none
    obtain ⟨hempty, hne, hreadable⟩ := hquery.objective.composed hterms
    have hres : res = (input, {}) := by
      rw [hempty] at hpass
      exact (Except.ok.inj hpass).symm
    rw [hempty, hres] at hobj
    rw [hres] at hinput
    have hvalue : queryObjectiveValue ctx evaluated s.input s.objective =
        composedObjectiveValue ctx.indexer evaluated.composedObjectiveTerms := by
      funext a
      unfold queryObjectiveValue
      exact if_pos hterms
    obtain ⟨hcomposed, hgrown', hkeeps', hsame⟩ := composedConstraints_refines sense hpos _
      hgrown.wellScoped ((composedObjectiveValue_readOff ctx.indexer evaluated.composedObjectiveTerms).mono
        (Nat.le_add_right _ _)) hquery.clauses hclauses
    rw [if_neg (by simpa using hterms)] at hlast
    obtain ⟨v, hpass', hend⟩ := runPasses_cons_ok hlast
    obtain rfl : v = t := Except.ok.inj hend
    obtain ⟨res', hcomposedPass, hinput', hobj'⟩ := run_composedObjective_ok hpass'
    rw [hsame, hobj] at hcomposedPass hobj'
    obtain ⟨hobjective, hglobals⟩ := composedObjective_refines sense hgrown'.wellScoped hpos hne
      hreadable hcomposedPass
    have hbuilt : v.objective.value ctx.indexer = (buildLinearObjective ctx.indexer res'.2).eval := by
      funext a
      rw [objective_value_eq, hobj', quadraticObjectiveValue_linear, add_zero]
    rw [hvalue, hbuilt, hinput', hobj']
    refine ⟨?_, ?_, ?_, hglobals⟩
    · rw [hinput] at hcomposed
      exact (hcomposed.trans hobjective fun _ _ _ h => h).congr fun a _ => by rw [and_true]
    · exact (hgrown.trans hgrown').trans (emits_composedObjective hgrown'.wellScoped hcomposedPass).toGrown
    · exact (hkeeps.trans hkeeps').trans (keepsBinaries_composedObjective hcomposedPass)

/-- **The formulation refines the query.** -/
theorem formulateModel_refines (hs : s.Assembled ctx) (hquery : QueryReadable ctx sense evaluated s)
    (hok : formulateModel ctx evaluated s = .ok t) :
    Program.Refines sense.Dominates
        (s.input.program ctx (queryObjectiveValue ctx evaluated s.input s.objective))
        (t.input.program ctx (t.objective.value ctx.indexer))
        (fun a => ∀ clause ∈ evaluated.composedConstraints, clause.Asks ctx.indexer a) ∧
      BuildReady ctx s t := by
  have hpos := hquery.numRows_pos
  have hw := hs.sound.wellScoped
  have hvalue := queryObjectiveValue_readOff hw hquery
  obtain ⟨u₁, u₂, hhard, hne, hrest⟩ := formulateModel_plain hquery.plain hok
  -- the constraints
  have hfirst := minMaxConstraints_refines sense hw hpos (hvalue.mono (Nat.le_add_right _ _))
    hquery.hard hhard
  have hgrown₁ := grown_minMaxConstraints hw hhard
  have hboxes₁ : SameBoxes s.input u₁ := .of_grown hgrown₁
  have hconstraints₁ : u₁.constraints = s.input.constraints.flatMap (remaining ctx.indexer.numRows) :=
    (linearizeMinMaxConstraints_spec hw (fun ec hec htag r hr => by
      obtain ⟨agg, hagg⟩ := Option.ne_none_iff_exists'.mp htag
      exact (hquery.hard ec hec agg hagg).cut r hr) hhard).2.1
  have hops : ∀ ec ∈ notEqualConstraints u₁, IntegralOperands u₁ ec := by
    intro ec hec
    obtain ⟨hec, hidx⟩ := List.mem_filter.mp hec
    rw [hconstraints₁] at hec
    exact hboxes₁.integralOperands (hquery.exclusions ec (hquery.exclusion_of_remaining hec hidx))
  have hrigid := hboxes₁.rigidContains hquery.rigid
  have hsecond := notEqual_refines sense hgrown₁.wellScoped hpos
    (hvalue.mono (Nat.le_add_right _ _)) hrigid hops hne
  have hgrown₂ := (expandNotEqual_extends hgrown₁.wellScoped hrigid hops hne).1
  have hboxes₂ : SameBoxes s.input u₂ := hboxes₁.trans (.of_grown hgrown₂)
  have hbinaries₂ : BinaryGlobals u₂ := binaryGlobals_notEqual
    ((keepsBinaries_minMaxConstraints hhard).binaryGlobals (by
      intro box hbox
      rw [hs.columns] at hbox
      cases hbox)) hne
  have hconditional₂ : ConditionalRows ctx.indexer u₂ := by
    refine linearizeNotEqual_conditional hgrown₁.wellScoped.numRows_eq
      ((keepsBinaries_minMaxConstraints hhard).conditionalRows ?_) hne
    constructor <;> (rw [hs.indicators]; exact fun ic hic => absurd hic List.not_mem_nil)
  -- the objective and the composed clauses
  rw [← List.append_assoc, ← List.cons_append] at hrest
  obtain ⟨w, hmiddle, hlast⟩ := runPasses_append_ok _ _ hrest
  obtain ⟨hthird, hgrown₃, hkeeps₃, hglobals⟩ :=
    objectivePasses_refine hgrown₂.wellScoped hboxes₂ hquery hmiddle
  -- the conditional rows
  obtain ⟨v, hlower, hend⟩ := runPasses_cons_ok hlast
  obtain rfl : v = t := Except.ok.inj hend
  unfold FormulationPass.run at hlower
  dsimp only at hlower
  split at hlower
  · cases hlower
  rename_i out hlowered
  obtain rfl := Except.ok.inj hlower
  have hfourth := lowerConstructs_refines sense (w.objective.value ctx.indexer)
    (hkeeps₃.binaryGlobals hbinaries₂) (hkeeps₃.conditionalRows hconditional₂) hlowered
  have hframe := lowerConstructs_frame hlowered
  have hconstraints : out.constraints = builtConstraints ctx s := by
    rw [hframe]
    show w.input.constraints = _
    rw [hgrown₃.frame]
    show u₂.constraints = _
    rw [hgrown₂.frame]
    show withoutNotEqual u₁.constraints = _
    rw [hconstraints₁]
    rfl
  have hasks : ReadsBelow (s.input.width ctx.indexer) fun a =>
      ∀ clause ∈ evaluated.composedConstraints, clause.Asks ctx.indexer a :=
    ReadsBelow.forall_mem fun clause _ =>
      (clause.asks_readsBelow ctx.indexer).mono (Nat.le_add_right _ _)
  have hlowerBoxes : SameBoxes w.input out := by constructor <;> rw [hframe]
  have hcolumns : out.globalColumns = w.input.globalColumns := by rw [hframe]
  refine ⟨(((hfirst.trans_true hsecond).trans hthird hasks).trans hfourth fun _ _ _ h => h).congr
    fun a _ => by rw [true_and, and_true], (hboxes₂.trans (.of_grown hgrown₃)).trans hlowerBoxes,
    hconstraints, ?_, fun e he => ?_⟩
  · show BinaryGlobals out
    unfold BinaryGlobals
    rw [hcolumns]
    exact hkeeps₃.binaryGlobals hbinaries₂
  · show e.1 < out.width ctx.indexer
    unfold SolverInput.width
    rw [hcolumns]
    exact hglobals e he

/-! ## The model of a query -/

/-- What a query asks of its decisions. -/
structure QueryHolds (ctx : FormulationContext) (evaluated : EvaluatedClauses) (s : FormulationState)
    (a : Nat → ℚ) : Prop where
  columns : InDecisionColumns s.input ctx.layout a
  constraints : ∀ ec ∈ s.input.constraints, ec.Asks ctx.indexer a
  clauses : ∀ clause ∈ evaluated.composedConstraints, clause.Asks ctx.indexer a

/-- A model as a program. -/
def BuiltModel.program (model : BuiltModel) : Program ℚ :=
  ⟨⟨model.numVars, model.Admits⟩, model.objectiveValue⟩

/-- A query as a program over its decisions. -/
def queryProgram (ctx : FormulationContext) (evaluated : EvaluatedClauses) (s : FormulationState) :
    Program ℚ :=
  ⟨⟨ctx.indexer.globalBlockStart, QueryHolds ctx evaluated s⟩,
    queryObjectiveValue ctx evaluated s.input s.objective⟩

/-- **The model refines the query.** -/
theorem formulateAndBuild_refines {tolerate : Bool} (hs : s.Assembled ctx)
    (hquery : QueryReadable ctx sense evaluated s)
    (hok : formulateAndBuild ctx evaluated s sense tolerate = .ok model) :
    Program.Refines sense.Dominates (queryProgram ctx evaluated s) model.program fun _ => True := by
  unfold formulateAndBuild at hok
  split at hok
  · cases hok
  rename_i t hrun
  obtain ⟨hrefines, hready⟩ := formulateModel_refines hs hquery hrun
  have hreads := (formulateModel_spec hs hrun).1.readsBelow
  have hn : t.input.numRows = ctx.layout.numRows := hready.boxes.numRows_eq.trans hs.numRows_eq
  have hplain : ∀ ec ∈ t.input.constraints, ec.neClauseIdx = none ∧ ec.minmaxAggType = none := by
    rw [hready.constraints]
    exact fun ec hec => ⟨(hquery.of_mem_built hec).1, (hquery.of_mem_built hec).2.1⟩
  have hreadable : ∀ ec ∈ t.input.constraints, ec.RowsReadable t.input.variableTypes ctx.indexer := by
    rw [hready.constraints, hready.boxes.types_eq]
    exact fun ec hec => (hquery.of_mem_built hec).2.2
  have hadmits := model_admits_iff hquery.numRows_pos hreads hready.binaries
    (by rw [hready.boxes.lower_eq]; exact hquery.boxed) hn hplain hreadable hok
  have hvalue := model_objectiveValue hquery.numRows_pos hready.globals_lt hok
  have hwidth : model.numVars = t.input.width ctx.indexer := by
    obtain ⟨-, -, -, -, rfl, -⟩ := buildModel_parts hok
    rfl
  have hmodel : model.program = t.input.program ctx (t.objective.value ctx.indexer) := by
    unfold BuiltModel.program SolverInput.program
    rw [hwidth, funext hvalue, funext fun a => propext (hadmits a)]
  -- the assembled input holds wherever the decisions lie in their columns
  have hinput : ∀ a, (s.input.program ctx (queryObjectiveValue ctx evaluated s.input s.objective)).Holds a ∧
      (∀ clause ∈ evaluated.composedConstraints, clause.Asks ctx.indexer a) ↔
        QueryHolds ctx evaluated s a := by
    intro a
    constructor
    · rintro ⟨⟨-, hcolumns, hconstraints⟩, hclauses⟩
      exact ⟨hcolumns, hconstraints, hclauses⟩
    · rintro ⟨hcolumns, hconstraints, hclauses⟩
      refine ⟨⟨⟨inBoxes_of_columns hquery.boxed hs.numRows_eq hcolumns, ?_, ?_, ?_, ?_⟩, hcolumns,
        hconstraints⟩, hclauses⟩
      · intro i box hbox
        rw [hs.columns] at hbox
        cases hbox
      · rw [hs.rows]
        exact fun r hr => absurd hr List.not_mem_nil
      · rw [hs.generals]
        exact fun gc hgc => absurd hgc List.not_mem_nil
      · rw [hs.indicators]
        exact fun ic hic => absurd hic List.not_mem_nil
  have hstart : s.input.width ctx.indexer = ctx.indexer.globalBlockStart := by
    unfold SolverInput.width
    rw [hs.columns]
    rfl
  rw [hmodel]
  refine ⟨hstart.ge.trans hrefines.width_le, fun b hb => ?_, fun a ha _ => ?_⟩
  · obtain ⟨hS, hclauses, hv⟩ := hrefines.sound b hb
    exact ⟨(hinput b).mp ⟨hS, hclauses⟩, trivial, hv⟩
  · obtain ⟨hS, hclauses⟩ := (hinput a).mpr ha
    obtain ⟨b, hba, hb, hv⟩ := hrefines.complete a hS hclauses
    refine ⟨b, ?_, hb, hv⟩
    show AgreeBelow ctx.indexer.globalBlockStart b a
    rw [← hstart]
    exact hba

theorem queryProgram_scoped (hs : s.Assembled ctx) (hquery : QueryReadable ctx sense evaluated s) :
    (queryProgram ctx evaluated s).Scoped := by
  refine ⟨fun a b hab h => ⟨?_, ?_, ?_⟩, queryObjectiveValue_readOff hs.sound.wellScoped hquery⟩
  · exact inDecisionColumns_readsBelow s.input ctx a b hab h.columns
  · exact fun ec hec => asks_readsBelow hquery.numRows_pos a b hab (h.constraints ec hec)
  · exact fun clause hclause => clause.asks_readsBelow ctx.indexer a b hab (h.clauses clause hclause)

/-- `x <> 6`. -/
def notSix : EvaluatedConstraint where
  lhsTerms := [{ variableIndex := some 0, rowCoefficients := fun _ => 1 }]
  rhsValues := fun _ => .fin 6
  comparisonType := .ne
  neClauseIdx := some 0

/-- `MINIMIZE MAX(x) SUCH THAT MAX(x) >= 5 AND x <> 6 AND MAX(x) + SUM(x) >= 5` over two rows, `x` being
an integer between 0 and 10. -/
def cheapestPeak : FormulationState where
  input :=
    { numRows := 2
      variableTypes := [.integer]
      lowerBounds := [0]
      upperBounds := [10]
      rigidLowerBounds := [0]
      rigidUpperBounds := [10]
      constraints := [maxAtLeastFive, notSix] }
  objective :=
    { objectiveVariableIndices := [some 0]
      objectiveCoefficients := [fun _ => 1] }

/-- The clauses of the query. -/
def cheapestPeakClauses : EvaluatedClauses :=
  { maxPlusSum with minMaxObjectiveSpec := flatSpec .max .minimize }

theorem noTinyCoefficient_one (r : Nat) :
    NoTinyCoefficient [{ variableIndex := some 0, rowCoefficients := fun _ => 1 }] r := by
  intro t ht
  rw [List.mem_singleton.mp ht]
  show _ ∨ coefficientCut ≤ |(1 : ℚ)|
  exact Or.inr (by decide +kernel)

theorem hardReadable_maxAtLeastFive : HardReadable oneRowScoped.indexer .max maxAtLeastFive := by
  have hmerged : ∀ r < 2, ∀ t ∈ (minMaxLink oneRowScoped.indexer maxAtLeastFive.lhsTerms r).form,
      t.2 = 0 ∨ coefficientCut ≤ |t.2| := by decide +kernel
  refine ⟨rfl, rfl, ⟨rfl, rfl⟩, fun r hr => ⟨noTinyCoefficient_one r, hmerged r hr⟩,
    fun r g _ hg => ?_, fun r r' g _ _ _ _ => rfl⟩
  obtain rfl := Option.some.inj hg
  exact Nat.one_pos

theorem integralOperands_notSix : IntegralOperands cheapestPeak.input notSix := by
  refine ⟨fun t ht v hv => ?_, fun t ht hv => ?_, fun rows _ r _ k hk _ => ?_⟩
  · rw [List.mem_singleton.mp ht] at hv
    obtain rfl : 0 = v := Option.some.inj hv
    rfl
  · rw [List.mem_singleton.mp ht] at hv
    cases hv
  · obtain rfl := Bound.fin.inj hk
    exact intCast_mem_integers 6

theorem composedReadable_maxPlusSum : ∀ clause ∈ maxPlusSum.composedConstraints,
    ComposedReadable oneRowScoped.indexer clause.outerCmp clause.terms := by
  have hmerged : ∀ r < 2, ∀ t ∈ (composedLink oneRowScoped.indexer
      [{ variableIndex := some 0, rowCoefficients := fun _ => 1 }] r).form,
      t.2 = 0 ∨ coefficientCut ≤ |t.2| := by decide +kernel
  intro clause hclause
  rw [List.mem_singleton.mp hclause]
  refine ⟨fun t ht hmm => ?_, fun t ht hmm heasy => ?_⟩
  · rcases List.mem_cons.mp ht with rfl | ht
    · refine ⟨by decide, fun r hr => ⟨noTinyCoefficient_one r, hmerged r ?_⟩⟩
      exact List.mem_range.mp (List.mem_filter.mp hr).1
    · rw [List.mem_singleton.mp ht] at hmm
      cases hmm
  · rcases List.mem_cons.mp ht with rfl | ht
    · cases heasy
    · rw [List.mem_singleton.mp ht] at hmm
      cases hmm

theorem objectiveReadable_cheapestPeak :
    ObjectiveReadable oneRowScoped .minimize cheapestPeakClauses cheapestPeak := by
  have hmerged : ∀ r < 2, ∀ e ∈ ([r].foldl (addObjectiveRowTerms oneRowScoped.indexer
      cheapestPeak.objective.savedTerms 1) {}).form, e.2 = 0 ∨ coefficientCut ≤ |e.2| := by
    decide +kernel
  refine ⟨rfl, fits_flatSpec rfl .minimize, fun _ _ => ⟨fun t ht v hv => ?_, ?_⟩,
    fun h => absurd rfl h⟩
  · rw [List.mem_singleton.mp ht] at hv
    obtain rfl := Option.some.inj hv
    exact ⟨Nat.one_pos, Nat.one_pos⟩
  · refine ⟨fun r _ => noTinyCoefficient_one r, fun r hr => ⟨fun r' _ t ht => ?_, hmerged r ?_⟩⟩
    · rw [mul_one]
      exact noTinyCoefficient_one r' t ht
    · exact List.mem_range.mp (List.mem_filter.mp hr).1

theorem cheapestPeak_readable :
    QueryReadable oneRowScoped .minimize cheapestPeakClauses cheapestPeak := by
  refine ⟨⟨rfl, rfl, fun v => ?_⟩, Nat.two_pos, le_rfl, ⟨fun v lo hlo => ⟨lo, hlo, le_rfl⟩,
    fun v hi hhi => ⟨hi, hhi, le_rfl⟩⟩, fun ec hec => ?_, fun ec hec agg hagg => ?_,
    fun ec hec hidx c hc => ?_, composedReadable_maxPlusSum, objectiveReadable_cheapestPeak⟩
  · cases v with
    | zero => decide +kernel
    | succ v => rfl
  · obtain ⟨hec, hidx⟩ := List.mem_filter.mp hec
    rcases List.mem_cons.mp hec with rfl | hec
    · cases hidx
    · rw [List.mem_singleton.mp hec]
      exact integralOperands_notSix
  · rcases List.mem_cons.mp hec with rfl | hec
    · obtain rfl := Option.some.inj hagg
      exact hardReadable_maxAtLeastFive
    · rw [List.mem_singleton.mp hec] at hagg
      cases hagg
  · rcases List.mem_cons.mp hec with rfl | hec
    · have hnone : remaining oneRowScoped.indexer.numRows maxAtLeastFive = [] := by decide +kernel
      rw [hnone] at hc
      cases hc
    · rw [List.mem_singleton.mp hec] at hidx
      cases hidx

end Decidb
