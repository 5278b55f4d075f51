import Decidb.Formulation.Proofs.AskedConstraintsProofs
import Decidb.Formulation.Proofs.FormulationRunProofs
import Decidb.Formulation.Proofs.GlobalBinariesProofs

/-!
# What every pass preserves

An input is a program: its block, the columns the model declares for its decisions, and what its
constraints ask. A pass turns constraints or the objective into columns and rows of the block, and the
program it leaves refines the one it was given.
-/

namespace Decidb

open Linear SolverInput

variable {ctx : FormulationContext} {s t : SolverInput} {sense : DecideSense} {a b : Nat → ℚ}
  {value value' : (Nat → ℚ) → ℚ} {varNames : List String} {policy : NativeConstructPolicy}

/-! ## Decisions -/

/-- Every decision lies in the column the model declares for it. -/
def InDecisionColumns (input : SolverInput) (layout : ColumnLayout) (a : Nat → ℚ) : Prop :=
  ∀ v inst, inst < layout.numInstances v →
    (builtVariableColumn input v).Admits (a (layout.instanceColumn v inst))

theorem inDecisionColumns_readsBelow (input : SolverInput) (ctx : FormulationContext) :
    ReadsBelow ctx.indexer.globalBlockStart (InDecisionColumns input ctx.layout) := by
  intro a b hab h v inst hinst
  rw [← hab _ (ColumnLayout.instanceColumn_lt hinst)]
  exact h v inst hinst

/-- The decisions have the domains and boxes they had. -/
structure SameBoxes (s t : SolverInput) : Prop where
  numRows_eq : t.numRows = s.numRows
  types_eq : t.variableTypes = s.variableTypes
  lower_eq : t.lowerBounds = s.lowerBounds
  upper_eq : t.upperBounds = s.upperBounds
  rigidLower_eq : t.rigidLowerBounds = s.rigidLowerBounds
  rigidUpper_eq : t.rigidUpperBounds = s.rigidUpperBounds

namespace SameBoxes

theorem trans {u : SolverInput} (h : SameBoxes s t) (h' : SameBoxes t u) : SameBoxes s u :=
  ⟨h'.numRows_eq.trans h.numRows_eq, h'.types_eq.trans h.types_eq, h'.lower_eq.trans h.lower_eq,
    h'.upper_eq.trans h.upper_eq, h'.rigidLower_eq.trans h.rigidLower_eq,
    h'.rigidUpper_eq.trans h.rigidUpper_eq⟩

theorem of_grown {indexer : VarIndexer} {constraints : List EvaluatedConstraint}
    (h : Grown indexer { s with constraints } t) : SameBoxes s t := by
  constructor <;> rw [h.frame]

theorem inDecisionColumns (h : SameBoxes s t) (layout : ColumnLayout) (a : Nat → ℚ) :
    InDecisionColumns t layout a ↔ InDecisionColumns s layout a := by
  unfold InDecisionColumns builtVariableColumn
  rw [h.types_eq, h.lower_eq, h.upper_eq]

end SameBoxes

/-! ## Inputs as programs -/

/-- What an input asks of the decisions besides its block. -/
def SolverInput.AsksOfDecisions (ctx : FormulationContext) (input : SolverInput) (a : Nat → ℚ) :
    Prop :=
  InDecisionColumns input ctx.layout a ∧ ∀ ec ∈ input.constraints, ec.Asks ctx.indexer a

/-- An input as a program, under an objective. -/
def SolverInput.program (ctx : FormulationContext) (input : SolverInput) (value : (Nat → ℚ) → ℚ) :
    Program ℚ :=
  ⟨⟨input.width ctx.indexer, fun a => input.Holds ctx.indexer a ∧ input.AsksOfDecisions ctx a⟩, value⟩

/-- A value read off the columns below `n`. -/
def ReadOff (n : Nat) (value : (Nat → ℚ) → ℚ) : Prop :=
  ∀ a b, AgreeBelow n a b → value a = value b

theorem ReadOff.mono {n m : Nat} (h : ReadOff n value) (hnm : n ≤ m) : ReadOff m value :=
  fun a b hab => h a b (hab.mono hnm)

theorem asksOfDecisions_readsBelow (hpos : 0 < ctx.indexer.numRows) (input : SolverInput) :
    ReadsBelow ctx.indexer.globalBlockStart (input.AsksOfDecisions ctx) :=
  (inDecisionColumns_readsBelow input ctx).and
    (ReadsBelow.forall_mem fun _ _ => asks_readsBelow hpos)

theorem program_scoped (hs : s.WellScoped ctx.indexer) (hpos : 0 < ctx.indexer.numRows)
    (hvalue : ReadOff (s.width ctx.indexer) value) : (s.program ctx value).Scoped :=
  ⟨hs.readsBelow.and ((asksOfDecisions_readsBelow hpos s).mono (Nat.le_add_right _ _)), hvalue⟩

/-- A pass over the block is one over the programs, when what it asks of the decisions is what became of
the constraints. -/
theorem refines_of_block {P Q : (Nat → ℚ) → Prop} (hpos : 0 < ctx.indexer.numRows)
    (h : Program.Refines sense.Dominates ⟨s.system ctx.indexer, value⟩ ⟨t.system ctx.indexer, value'⟩ P)
    (hboxes : SameBoxes s t) (hQ : ReadsBelow (s.width ctx.indexer) Q)
    (hask : ∀ a, (∀ ec ∈ s.constraints, ec.Asks ctx.indexer a) ∧ Q a ↔
      P a ∧ ∀ ec ∈ t.constraints, ec.Asks ctx.indexer a) :
    Program.Refines sense.Dominates (s.program ctx value) (t.program ctx value') Q := by
  refine h.restrict ((asksOfDecisions_readsBelow hpos s).mono (Nat.le_add_right _ _)) hQ fun b _ => ?_
  unfold SolverInput.AsksOfDecisions
  rw [hboxes.inDecisionColumns, and_assoc, hask, and_left_comm]

/-- An extension of the block that leaves the objective alone. -/
theorem refines_of_extends {P Q : (Nat → ℚ) → Prop} (hs : s.WellScoped ctx.indexer)
    (hpos : 0 < ctx.indexer.numRows) (hvalue : ReadOff (s.width ctx.indexer) value)
    (h : System.Extends (s.system ctx.indexer) (t.system ctx.indexer) P) (hboxes : SameBoxes s t)
    (hQ : ReadsBelow (s.width ctx.indexer) Q)
    (hask : ∀ a, (∀ ec ∈ s.constraints, ec.Asks ctx.indexer a) ∧ Q a ↔
      P a ∧ ∀ ec ∈ t.constraints, ec.Asks ctx.indexer a) :
    Program.Refines sense.Dominates (s.program ctx value) (t.program ctx value) Q :=
  refines_of_block hpos
    (.of_extends (S := ⟨s.system ctx.indexer, value⟩) (T := ⟨t.system ctx.indexer, value⟩) h
      ⟨hs.readsBelow, hvalue⟩ fun _ _ => rfl) hboxes hQ hask

/-! ## Hard MIN/MAX constraints -/

/-- A hard MIN/MAX the pass reads right: its comparison is the hard one of its aggregate, its rows keep
their coefficients, and the rows of a group share their bound. -/
structure HardReadable (indexer : VarIndexer) (agg : Extremum) (ec : EvaluatedConstraint) : Prop where
  isHard : agg.isHardFor ec.comparisonType = true
  notEqual : ec.neClauseIdx = none
  linear : ec.bilinearTerms = [] ∧ ec.quadraticGroups = []
  cut : ∀ r, r < indexer.numRows → CutClean indexer ec.lhsTerms r
  range : GroupsInRange ec indexer.numRows
  uniform : RhsUniform ec indexer.numRows

theorem HardReadable.remaining {indexer : VarIndexer} {agg : Extremum} {ec : EvaluatedConstraint}
    (h : HardReadable indexer agg ec) {c : EvaluatedConstraint}
    (hc : c ∈ (classifyMinMaxGroups ec indexer.numRows (agg = .max)).2) :
    c.neClauseIdx = none ∧ c.minmaxAggType = none ∧ c.lhsIsAggregate = false ∧
      c.bilinearTerms = [] ∧ c.quadraticGroups = [] := by
  rcases classify_cases ec indexer.numRows (agg = .max) with ⟨-, hall⟩ | ⟨-, ⟨-, hnew⟩ | ⟨-, hnew⟩⟩
  · rw [hall] at hc
    cases hc
  · rw [hnew] at hc
    rw [List.mem_singleton.mp hc]
    exact ⟨h.notEqual, rfl, rfl, h.linear⟩
  · rw [hnew] at hc
    cases hc

/-- A tagged constraint is what its encoded groups and the constraints left of it ask. -/
theorem HardReadable.asks_iff {indexer : VarIndexer} {agg : Extremum} {ec : EvaluatedConstraint}
    (h : HardReadable indexer agg ec) (hagg : ec.minmaxAggType = some agg) (a : Nat → ℚ) :
    ec.Asks indexer a ↔ MinMaxAsks indexer indexer.numRows ec a ∧
      ∀ c ∈ Decidb.remaining indexer.numRows ec, c.Asks indexer a := by
  have hself : ec.Asks indexer a ↔ TaggedReads indexer indexer.numRows (agg = .max) ec a := by
    rw [taggedReads_iff_extremum h.isHard]
    unfold EvaluatedConstraint.Asks
    rw [if_neg (by rw [h.notEqual]; exact Bool.false_ne_true), hagg]
  have hencoded : MinMaxAsks indexer indexer.numRows ec a ↔ EncodedReads indexer indexer.numRows
      (agg = .max) (classifyMinMaxGroups ec indexer.numRows (agg = .max)).1 a := by
    unfold MinMaxAsks
    rw [hagg]
    exact ⟨fun h => h agg rfl, fun h agg' h' => by obtain rfl := Option.some.inj h'; exact h⟩
  have hremaining : Decidb.remaining indexer.numRows ec =
      (classifyMinMaxGroups ec indexer.numRows (agg = .max)).2 := by
    unfold Decidb.remaining
    rw [hagg]
  rw [hself, hencoded, hremaining, ← taggedReads_iff h.range h.uniform]
  refine and_congr_right fun _ => forall₂_congr fun c hc => ?_
  obtain ⟨hne, htag, hrow, hlinear⟩ := h.remaining hc
  rw [← writtenHolds_iff_perRow hrow hlinear]
  unfold EvaluatedConstraint.Asks
  rw [if_neg (by rw [hne]; exact Bool.false_ne_true), htag]

/-- The pass appends to the block. -/
theorem grown_minMaxConstraints {indexer : VarIndexer} (hs : s.WellScoped indexer)
    (hok : linearizeMinMaxConstraints s indexer varNames policy = .ok t) :
    Grown indexer { s with constraints := t.constraints } t := by
  unfold linearizeMinMaxConstraints at hok
  split at hok
  · cases hok
  rename_i out constraints hloop
  obtain rfl := Except.ok.inj hok
  have hemit := Emits.foldlM (σ := SolverInput × List EvaluatedConstraint) Prod.fst
    (C := MinMaxConstraintClean indexer policy s)
    (fun ec _ a b ha hab => emits_minMaxConstraint ha hab) (Grown.refl hs) hloop
  have hsame : SameBlock out { out with constraints } := ⟨rfl, rfl, rfl, rfl, rfl⟩
  refine ⟨hsame.wellScoped hemit.wellScoped, hemit.width_le, ?_⟩
  have hframe : out = _ := hemit.frame
  conv_lhs => rw [hframe]

/-- **Hard MIN/MAX constraints.** -/
theorem minMaxConstraints_refines (sense : DecideSense) (hs : s.WellScoped ctx.indexer) (hpos : 0 < ctx.indexer.numRows)
    (hvalue : ReadOff (s.width ctx.indexer) value)
    (hhard : ∀ ec ∈ s.constraints, ∀ agg, ec.minmaxAggType = some agg →
      HardReadable ctx.indexer agg ec)
    (hok : linearizeMinMaxConstraints s ctx.indexer varNames policy = .ok t) :
    Program.Refines sense.Dominates (s.program ctx value) (t.program ctx value) fun _ => True := by
  obtain ⟨-, hconstraints, hext⟩ := linearizeMinMaxConstraints_spec hs (fun ec hec htag r hr => by
    obtain ⟨agg, hagg⟩ := Option.ne_none_iff_exists'.mp htag
    exact (hhard ec hec agg hagg).cut r hr) hok
  refine refines_of_extends hs hpos hvalue hext (.of_grown (grown_minMaxConstraints hs hok))
    (fun _ _ _ h => h) fun a => ?_
  rw [and_true, hconstraints, List.forall_mem_flatMap, ← forall₂_and]
  refine forall₂_congr fun ec hec => ?_
  cases hagg : ec.minmaxAggType with
  | some agg => exact (hhard ec hec agg hagg).asks_iff hagg a
  | none =>
    have hremaining : remaining ctx.indexer.numRows ec = [ec] := by
      unfold remaining
      rw [hagg]
    rw [hremaining, List.forall_mem_singleton]
    refine (and_iff_right fun agg h => ?_).symm
    rw [hagg] at h
    cases h

/-! ## `<>` -/

/-- **Exclusions.** -/
theorem notEqual_refines (sense : DecideSense) (hs : s.WellScoped ctx.indexer) (hpos : 0 < ctx.indexer.numRows)
    (hvalue : ReadOff (s.width ctx.indexer) value) (hrigid : RigidContains s)
    (hops : ∀ ec ∈ notEqualConstraints s, IntegralOperands s ec)
    (hok : linearizeNotEqual s ctx.indexer = .ok t) :
    Program.Refines sense.Dominates (s.program ctx value) (t.program ctx value) fun _ => True := by
  obtain ⟨hgrown, hext⟩ := expandNotEqual_extends hs hrigid hops hok
  have hconstraints : t.constraints = withoutNotEqual s.constraints := by rw [hgrown.frame]
  refine refines_of_extends hs hpos hvalue hext (.of_grown hgrown) (fun _ _ _ h => h) fun a => ?_
  have hasks : ∀ ec : EvaluatedConstraint, ec.neClauseIdx.isSome = true →
      (ec.Asks ctx.indexer a ↔ NotEqualAsks ctx.indexer s.numRows ec a) := fun ec hsome => by
    unfold EvaluatedConstraint.Asks
    rw [if_pos hsome, hs.numRows_eq]
  rw [and_true, hconstraints]
  constructor
  · intro h
    refine ⟨fun ec hec => ?_, fun ec hec => h ec (List.mem_filter.mp hec).1⟩
    obtain ⟨hec, hsome⟩ := List.mem_filter.mp hec
    exact (hasks ec hsome).mp (h ec hec)
  · rintro ⟨hdiffer, hrest⟩ ec hec
    cases hidx : ec.neClauseIdx.isSome with
    | true => exact (hasks ec hidx).mpr (hdiffer ec (List.mem_filter.mpr ⟨hec, hidx⟩))
    | false =>
      refine hrest ec (List.mem_filter.mpr ⟨hec, ?_⟩)
      rw [Option.isSome_eq_false_iff] at hidx
      exact hidx

/-! ## Objectives -/

theorem DecideSense.Dominates.add_right {v w : ℚ} (h : sense.Dominates v w) (k : ℚ) :
    sense.Dominates (v + k) (w + k) := by
  cases sense with
  | minimize => exact add_le_add_left h k
  | maximize => exact add_le_add_left h k

/-- What an objective adds to the part a pass replaces stays beside it. -/
theorem refines_add {S T : System ℚ} {P : (Nat → ℚ) → Prop} {rest : (Nat → ℚ) → ℚ}
    (h : Program.Refines sense.Dominates ⟨S, value⟩ ⟨T, value'⟩ P) (hrest : ReadOff S.width rest) :
    Program.Refines sense.Dominates ⟨S, fun a => value a + rest a⟩ ⟨T, fun a => value' a + rest a⟩
      P := by
  refine ⟨h.width_le, fun b hb => ?_, fun a ha hp => ?_⟩
  · obtain ⟨hS, hp, hdom⟩ := h.sound b hb
    exact ⟨hS, hp, hdom.add_right _⟩
  · obtain ⟨b, hba, hb, hv⟩ := h.complete a ha hp
    refine ⟨b, hba, hb, ?_⟩
    dsimp only at hv ⊢
    rw [hv, hrest b a hba]

/-- The part of an objective that is no linear term. -/
def quadraticObjectiveValue (indexer : VarIndexer) (obj : QuadraticObjective) (a : Nat → ℚ) : ℚ :=
  Form.eval (quadraticCrossEntries indexer obj.powerGroups (List.range indexer.numRows)) a +
    (obj.buildQuad indexer).eval fun p => a p.1 * a p.2

theorem objective_value_eq (indexer : VarIndexer) (obj : QuadraticObjective) (a : Nat → ℚ) :
    obj.value indexer a =
      (buildLinearObjective indexer obj.toLinearObjective).eval a + quadraticObjectiveValue indexer obj a := by
  unfold QuadraticObjective.value QuadraticObjective.buildLinear quadraticObjectiveValue
  rw [Form.eval_append, add_assoc]

/-- **MIN/MAX objectives.** -/
theorem minMaxObjective_refines {spec : MinMaxObjectiveSpec} {groups : ObjectiveGroups}
    {obj : LinearObjective} {res : SolverInput × LinearObjective} {rest : (Nat → ℚ) → ℚ}
    (hs : s.WellScoped ctx.indexer) (hpos : 0 < ctx.indexer.numRows)
    (hrest : ReadOff ctx.indexer.globalBlockStart rest)
    (hfits : spec.Fits sense) (haux : spec.HasAuxiliary groups)
    (hvars : obj.objectiveVariableIndices ≠ []) (hglobals : obj.globalObjCoeffs = [])
    (hboxed : TermsBoxed s obj.savedTerms)
    (hclean : ObjectiveKeepsCoefficients s ctx.indexer spec groups obj.savedTerms)
    (hok : linearizeMinMaxObjective s ctx.indexer spec groups obj varNames policy = .ok res) :
    Program.Refines sense.Dominates
        (s.program ctx fun a => minMaxObjectiveValue s ctx.indexer spec groups obj.savedTerms a + rest a)
        (res.1.program ctx fun a => (buildLinearObjective ctx.indexer res.2).eval a + rest a)
        (fun _ => True) ∧
      ∀ e ∈ res.2.globalObjCoeffs, e.1 < res.1.width ctx.indexer := by
  obtain ⟨globals, hres, hreplaced⟩ :=
    linearizeMinMaxObjective_globals hs hfits haux hvars hboxed hclean hok
  have hbuilt : (buildLinearObjective ctx.indexer res.2).eval = globals.eval := by
    funext a
    rw [hres, buildLinearObjective_cleared, hglobals, List.nil_append]
  have hgrown := (emits_minMaxObjective hs hok).toGrown
  rw [hbuilt]
  refine ⟨refines_of_block hpos (refines_add hreplaced.refines
    (hrest.mono (Nat.le_add_right _ _))) (.of_grown hgrown) (fun _ _ _ h => h) fun a => ?_, ?_⟩
  · have hconstraints : res.1.constraints = s.constraints := by rw [hgrown.frame]
    rw [hconstraints, and_comm]
  · rw [hres, hglobals]
    exact hreplaced.globals_lt

/-! ## Composed clauses -/

/-- A composed clause the pass reads right: every MIN/MAX term has a row, its rows keep their
coefficients, and an easy one presses the way the comparison does. -/
structure ComposedReadable (indexer : VarIndexer) (cmp : Comparison)
    (terms : List ComposedMinMaxTermData) : Prop where
  ready : ∀ t ∈ terms, t.aggName.isMinMax = true → t.rows indexer.numRows ≠ [] ∧
    ∀ r ∈ t.rows indexer.numRows, ComposedCutClean indexer t.innerTerms r
  easy : ∀ t ∈ terms, t.aggName.isMinMax = true → EasyFits cmp t

/-- What a composed clause asks: its comparison, strictness dropped. -/
def EvaluatedComposedClause.Asks (indexer : VarIndexer) (clause : EvaluatedComposedClause)
    (a : Nat → ℚ) : Prop :=
  clause.outerCmp.relax.Holds (composedValue indexer indexer.numRows clause.terms a) (.fin clause.rhs)

theorem composedValue_readOff (indexer : VarIndexer) (terms : List ComposedMinMaxTermData) :
    ReadOff indexer.globalBlockStart (composedValue indexer indexer.numRows terms) := by
  intro a b hab
  unfold composedValue
  exact congrArg List.sum (List.map_congr_left fun t _ => by rw [value_congr le_rfl le_rfl hab])

theorem EvaluatedComposedClause.asks_readsBelow (indexer : VarIndexer)
    (clause : EvaluatedComposedClause) : ReadsBelow indexer.globalBlockStart (clause.Asks indexer) := by
  intro a b hab h
  unfold EvaluatedComposedClause.Asks
  rw [← composedValue_readOff indexer clause.terms a b hab]
  exact h

/-- **Composed constraints.** -/
theorem composedConstraint_refines (sense : DecideSense) {clause : EvaluatedComposedClause} (hs : s.WellScoped ctx.indexer)
    (hpos : 0 < ctx.indexer.numRows) (hvalue : ReadOff (s.width ctx.indexer) value)
    (hclause : ComposedReadable ctx.indexer clause.outerCmp clause.terms)
    (hok : linearizeComposedMinMaxConstraint s ctx.indexer clause.terms clause.rhs clause.outerCmp
      varNames policy = .ok t) :
    Program.Refines sense.Dominates (s.program ctx value) (t.program ctx value)
      (clause.Asks ctx.indexer) := by
  have hext := linearizeComposed_spec hs (hs.numRows_eq ▸ hclause.ready) hclause.easy hok
  rw [hs.numRows_eq] at hext
  have hgrown := (emits_composedConstraint hs hok).toGrown
  have hconstraints : t.constraints = s.constraints := by rw [hgrown.frame]
  refine refines_of_extends hs hpos hvalue hext (.of_grown hgrown)
    ((clause.asks_readsBelow ctx.indexer).mono (Nat.le_add_right _ _)) fun a => ?_
  rw [hconstraints, and_comm]
  rfl

/-- The value of a composed objective over its terms: what it is composed of less the constants of its
SUM and AVG bodies, a query-wide decision in such a body weighing what the first row gives it. -/
def composedObjectiveValue (indexer : VarIndexer) (terms : List ComposedMinMaxTermData)
    (a : Nat → ℚ) : ℚ :=
  composedValue indexer indexer.numRows terms a -
    weighted terms (fun agg => agg.fixedPart indexer.numRows) +
    weighted terms (fun agg => agg.misweight indexer indexer.numRows a)

theorem composedObjectiveValue_readOff (indexer : VarIndexer) (terms : List ComposedMinMaxTermData) :
    ReadOff indexer.globalBlockStart (composedObjectiveValue indexer terms) := by
  intro a b hab
  have hmisweight : weighted terms (fun agg => agg.misweight indexer indexer.numRows a) =
      weighted terms fun agg => agg.misweight indexer indexer.numRows b :=
    weighted_congr fun t _ => misweight_congr le_rfl hab t.aggregate
  unfold composedObjectiveValue
  rw [composedValue_readOff indexer terms a b hab, hmisweight]

/-- **Composed objectives.** -/
theorem composedObjective_refines (sense : DecideSense) {terms : List ComposedMinMaxTermData} {res : SolverInput × LinearObjective}
    (hs : s.WellScoped ctx.indexer) (hpos : 0 < ctx.indexer.numRows)
    (hne : ∀ t ∈ terms, t.rows ctx.indexer.numRows ≠ [])
    (hterms : ComposedReadable ctx.indexer sense.pressure terms)
    (hok : linearizeComposedMinMaxObjective s ctx.indexer {} terms varNames policy = .ok res) :
    Program.Refines sense.Dominates (s.program ctx (composedObjectiveValue ctx.indexer terms))
        (res.1.program ctx (buildLinearObjective ctx.indexer res.2).eval) (fun _ => True) ∧
      ∀ e ∈ res.2.globalObjCoeffs, e.1 < res.1.width ctx.indexer := by
  have hgrown := (emits_composedObjective hs hok).toGrown
  obtain ⟨hholds, hglobals⟩ : (∀ b, res.1.Holds ctx.indexer b → s.Holds ctx.indexer b) ∧
      ∀ e ∈ res.2.globalObjCoeffs, e.1 < res.1.width ctx.indexer := by
    unfold linearizeComposedMinMaxObjective at hok
    split at hok
    · cases hok
    · rename_i linked terms' haux
      obtain rfl := Except.ok.inj hok
      have hpinned := emitComposedMinMaxAuxiliaries_spec hs (hs.numRows_eq ▸ hterms.ready) haux
      refine ⟨fun b hb => (hpinned.pinned b hb).1, fun e he => ?_⟩
      obtain ⟨ta, hta, rfl⟩ := List.mem_map.mp he
      obtain ⟨hta, hmm⟩ := List.mem_filter.mp hta
      exact hpinned.column_lt ta hta hmm
  have hbest := fun a (ha : s.Holds ctx.indexer a) =>
    linearizeComposedObjective_best hs (hs.numRows_eq ▸ hne)
      (fun t ht hmm => ((hs.numRows_eq ▸ hterms.ready) t ht hmm).2) hterms.easy hok ha
  have hblock : Program.Refines sense.Dominates
      ⟨s.system ctx.indexer, composedObjectiveValue ctx.indexer terms⟩
      ⟨res.1.system ctx.indexer, (buildLinearObjective ctx.indexer res.2).eval⟩ fun _ => True := by
    refine ⟨hgrown.width_le, fun b hb => ?_, fun a ha _ => ?_⟩
    · have hb' := hholds b hb
      refine ⟨hb', trivial, ?_⟩
      have hmem : (buildLinearObjective ctx.indexer res.2).eval b ∈
          ObjectiveValues ctx.indexer s res.1 res.2 b := ⟨b, AgreeBelow.refl _ _, hb, rfl⟩
      cases sense with
      | minimize => exact (hbest b hb').2 hmem
      | maximize => exact (hbest b hb').2 hmem
    · obtain ⟨b, hba, hb, hv⟩ : composedObjectiveValue ctx.indexer terms a ∈
          ObjectiveValues ctx.indexer s res.1 res.2 a := by
        cases sense with
        | minimize => exact (hbest a ha).1
        | maximize => exact (hbest a ha).1
      exact ⟨b, hba, hb, hv.symm⟩
  refine ⟨refines_of_block hpos hblock (.of_grown hgrown) (fun _ _ _ h => h) fun a => ?_, hglobals⟩
  have hconstraints : res.1.constraints = s.constraints := by rw [hgrown.frame]
  rw [hconstraints, and_comm]

/-! ## Conditional rows -/

/-- A global the model declares binary is one already. -/
theorem builtGlobalColumn_admits_iff {box : ColumnBox}
    (hbinary : box.isInteger = true → box = ⟨0, 1, true⟩) (x : ℚ) :
    (builtGlobalColumn box).Admits x ↔ box.Admits x := by
  cases hint : box.isInteger with
  | true =>
    have hends : (builtGlobalColumn ⟨0, 1, true⟩).lo = 0 ∧ (builtGlobalColumn ⟨0, 1, true⟩).hi = 1 := by
      simp [builtGlobalColumn, BuiltColumn.lo, BuiltColumn.hi]
    rw [hbinary hint]
    constructor
    · rintro ⟨hlo, hhi, hden⟩
      rw [hends.1] at hlo
      rw [hends.2] at hhi
      exact ⟨hlo, hhi, hden⟩
    · rintro ⟨hlo, hhi, hden⟩
      exact ⟨by rw [hends.1]; exact hlo, by rw [hends.2]; exact hhi, hden⟩
  | false =>
    have hends : (builtGlobalColumn box).lo = box.lower ∧ (builtGlobalColumn box).hi = box.upper := by
      simp [builtGlobalColumn, BuiltColumn.lo, BuiltColumn.hi, hint]
    constructor
    · rintro ⟨hlo, hhi, hden⟩
      rw [hends.1] at hlo
      rw [hends.2] at hhi
      exact ⟨hlo, hhi, hden⟩
    · rintro ⟨hlo, hhi, hden⟩
      exact ⟨by rw [hends.1]; exact hlo, by rw [hends.2]; exact hhi, hden⟩

/-- What the program accepts lies in the columns of the model. -/
theorem inBuiltBoxes_of_holds (hbinary : BinaryGlobals s) (ha : s.Holds ctx.indexer a)
    (hdecisions : InDecisionColumns s ctx.layout a) : InBuiltBoxes s ctx.layout a :=
  ⟨hdecisions, fun g box hbox =>
    (builtGlobalColumn_admits_iff (hbinary box (List.mem_of_getElem? hbox)) _).mpr (ha.globals g box hbox)⟩

/-- **Lowering the conditional rows.** -/
theorem lowerConstructs_refines (sense : DecideSense) (value : (Nat → ℚ) → ℚ)
    {native : Bool} (hbinary : BinaryGlobals s)
    (hrows : ConditionalRows ctx.indexer s)
    (hok : lowerDecideConstructs s ctx.layout (.ofSolvedModel s) varNames native = .ok t) :
    Program.Refines sense.Dominates (s.program ctx value) (t.program ctx value) fun _ => True := by
  unfold lowerDecideConstructs at hok
  split at hok
  · obtain rfl := Except.ok.inj hok
    exact .refl _
  split at hok
  · cases hok
  rename_i rows hlower
  obtain rfl := Except.ok.inj hok
  have hrow := (mapM_lowerIndicator ⟨s, ctx.layout, hrows.sense_ne, hrows.binaryValue, hrows.columns⟩
    varNames fun ic hic => hic).2 rows hlower
  have hiff : ∀ b, InBuiltBoxes s ctx.layout b → (∀ g (box : ColumnBox),
      s.globalColumns[g]? = some box → box.Admits (b (ctx.indexer.globalBlockStart + g))) →
      ((∀ r ∈ rows, r.Holds b) ↔ ∀ ic ∈ s.indicatorConstraints, ic.Holds b) := fun b hboxes hglobals =>
    forall_of_forall₂ (hrow b hboxes fun ic hic => by
      obtain ⟨g, hcol, hbox⟩ := hrows.binary ic hic
      rw [hcol]
      exact (binary_admits_iff _).mp (hglobals g _ hbox))
  refine .of_holds_iff rfl (fun b => ?_) fun _ _ => rfl
  refine and_congr_left fun hasks => ?_
  constructor
  · intro h
    have hbuilt : InBuiltBoxes s ctx.layout b := ⟨hasks.1, fun g box hbox =>
      (builtGlobalColumn_admits_iff (hbinary box (List.mem_of_getElem? hbox)) _).mpr
        (h.globals g box hbox)⟩
    obtain ⟨hold, hnew⟩ := List.forall_mem_append.mp h.rows
    exact ⟨h.inBoxes, h.globals, hold, h.generals, (hiff b hbuilt h.globals).mp hnew⟩
  · intro h
    have hbuilt := inBuiltBoxes_of_holds hbinary h hasks.1
    refine ⟨h.inBoxes, h.globals, List.forall_mem_append.mpr ⟨h.rows, ?_⟩, h.generals, by simp⟩
    exact (hiff b hbuilt h.globals).mpr h.indicators

end Decidb
