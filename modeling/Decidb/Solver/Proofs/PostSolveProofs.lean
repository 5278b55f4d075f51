import Decidb.Linear.Recession
import Decidb.Solver.PostSolve
import Decidb.Solver.Proofs.SolverModelProofs

/-!
# Verdicts of unboundedness

Which verdicts of `SolveModel` are true and which rays are real when the answers it starts from are
exact. Resolving an `INF_OR_UNBD` keeps an answer exact, a direction of the homogeneous model is a ray of
the model, and an optimum is never a sign of unboundedness.
-/

namespace Decidb

open Linear

variable {K : Type*} [Field K] [LinearOrder K]

/-! ## The probe without an objective -/

/-- The probe model has the feasible assignments of the model. -/
theorem makeZeroObjectiveProbeModel_feasible (model : SolverModel K) (x : Nat → K) :
    (makeZeroObjectiveProbeModel model).Feasible x ↔ model.Feasible x := by
  have hcolumns : (makeZeroObjectiveProbeModel model).columns.map (·.domain) =
      model.columns.map (·.domain) := by
    rw [makeZeroObjectiveProbeModel, List.map_map]
    rfl
  exact SolverModel.feasible_congr hcolumns rfl rfl rfl rfl x

/-- A model with an optimum is not unbounded. -/
theorem SolverModel.IsOptimal.not_isUnbounded {model : SolverModel K} {x : Nat → K}
    (h : model.IsOptimal x) : ¬ model.IsUnbounded := by
  intro hunb
  obtain ⟨y, hy, hbetter⟩ := hunb.exists_better (model.objectiveValue x)
  exact h.not_better y hy hbetter

/-- Resolving an `INF_OR_UNBD` by an exact probe keeps the answer exact. -/
theorem disambiguateInfOrUnbd_exact {diagnosticSolve : SolverModel K → SolverResult K}
    {model : SolverModel K} {original : SolverResult K}
    (hexact : original.Exact model)
    (hprobe : (diagnosticSolve (makeZeroObjectiveProbeModel model)).Exact
      (makeZeroObjectiveProbeModel model)) :
    (disambiguateInfOrUnbd diagnosticSolve model original).Exact model := by
  unfold disambiguateInfOrUnbd
  by_cases hstatus : original.status = .infOrUnbd
  · rw [if_neg (not_not.mpr hstatus)]
    have hor := hexact.infOrUnbd hstatus
    dsimp only
    split
    · exact ⟨hexact.isOptimal, hexact.not_feasible, hexact.isUnbounded, hexact.infOrUnbd,
        hexact.ray_nil⟩
    · -- the probe is feasible, so of the two verdicts only one is left
      rename_i hoptimal
      obtain ⟨-, hopt, -⟩ := hprobe.isOptimal hoptimal
      have hfeasible : model.IsFeasible :=
        ⟨_, (makeZeroObjectiveProbeModel_feasible model _).mp hopt.feasible⟩
      refine ⟨fun h => (by cases h), fun h => (by cases h), fun _ => ?_, fun h => (by cases h),
        hexact.ray_nil⟩
      exact hor.resolve_left (not_not.mpr hfeasible)
    · rename_i hinfeasible
      refine ⟨fun h => (by cases h), fun _ => ?_, fun h => (by cases h), fun h => (by cases h),
        hexact.ray_nil⟩
      rintro ⟨x, hx⟩
      exact hprobe.not_feasible hinfeasible
        ⟨x, (makeZeroObjectiveProbeModel_feasible model x).mpr hx⟩
    · exact hexact
  · rw [if_pos hstatus]
    exact hexact

omit [LinearOrder K] in
/-- Only an `INF_OR_UNBD` is resolved. -/
theorem disambiguateInfOrUnbd_of_ne {diagnosticSolve : SolverModel K → SolverResult K}
    {model : SolverModel K} {original : SolverResult K} (h : original.status ≠ .infOrUnbd) :
    disambiguateInfOrUnbd diagnosticSolve model original = original := if_pos h

omit [LinearOrder K] in
/-- Resolving makes no optimum of an answer that was none. -/
theorem disambiguateInfOrUnbd_ne_optimal {diagnosticSolve : SolverModel K → SolverResult K}
    {model : SolverModel K} {original : SolverResult K} (h : original.status ≠ .optimal) :
    (disambiguateInfOrUnbd diagnosticSolve model original).status ≠ .optimal := by
  unfold disambiguateInfOrUnbd
  split
  · exact h
  · dsimp only
    split
    · exact h
    · exact fun h => by cases h
    · exact fun h => by cases h
    · exact h

/-- An unresolved verdict stays one of the two it stands for. -/
theorem disambiguateInfOrUnbd_status_of_feasible
    {diagnosticSolve : SolverModel K → SolverResult K} {model : SolverModel K}
    {original : SolverResult K} (hstatus : original.status = .infOrUnbd)
    (hprobe : (diagnosticSolve (makeZeroObjectiveProbeModel model)).Exact
      (makeZeroObjectiveProbeModel model)) (hfeasible : model.IsFeasible) :
    (disambiguateInfOrUnbd diagnosticSolve model original).status = .unbounded ∨
      (disambiguateInfOrUnbd diagnosticSolve model original).status = .infOrUnbd := by
  unfold disambiguateInfOrUnbd
  rw [if_neg (not_not.mpr hstatus)]
  dsimp only
  split
  · exact Or.inr hstatus
  · exact Or.inl rfl
  · rename_i hinfeasible
    obtain ⟨x, hx⟩ := hfeasible
    exact absurd ⟨x, (makeZeroObjectiveProbeModel_feasible model x).mpr hx⟩
      (hprobe.not_feasible hinfeasible)
  · exact Or.inr hstatus

/-! ## The integer ceiling -/

theorem integerCeilingColumn_isSome_iff (model : SolverModel K) (solution : List K) :
    (integerCeilingColumn model solution).isSome ↔ ∃ i : Nat, ∃ column : SolverColumn K, ∃ value : K,
      model.columns[i]? = some column ∧ solution[i]? = some value ∧
        column.atIntegerCeiling value = true := by
  unfold integerCeilingColumn
  rw [Option.isSome_map, List.find?_isSome]
  constructor
  · rintro ⟨⟨⟨column, value⟩, i⟩, hmem, hat⟩
    obtain ⟨hc, hv⟩ := List.getElem?_zip_eq_some.mp (List.mem_zipIdx_iff_getElem?.mp hmem)
    exact ⟨i, column, value, hc, hv, hat⟩
  · rintro ⟨i, column, value, hc, hv, hat⟩
    refine ⟨((column, value), i), List.mem_zipIdx_iff_getElem?.mpr ?_, hat⟩
    exact List.getElem?_zip_eq_some.mpr ⟨hc, hv⟩

theorem rejectIntegerCeilingOptimum_of_not {model : SolverModel K} {result : SolverResult K}
    (h : ¬ model.AtIntegerCeiling result) : rejectIntegerCeilingOptimum model result = result := by
  unfold rejectIntegerCeilingOptimum
  by_cases hstatus : result.status = .optimal
  · rw [if_neg (not_not.mpr hstatus)]
    have hnone : integerCeilingColumn model result.solution = none := by
      rw [← Option.not_isSome_iff_eq_none, integerCeilingColumn_isSome_iff]
      exact fun hat => h ⟨hstatus, hat⟩
    rw [hnone]
  · rw [if_pos hstatus]

theorem rejectIntegerCeilingOptimum_status {model : SolverModel K} {result : SolverResult K}
    (h : model.AtIntegerCeiling result) :
    (rejectIntegerCeilingOptimum model result).status = .unbounded := by
  obtain ⟨hstatus, hat⟩ := h
  obtain ⟨col, hcol⟩ := Option.isSome_iff_exists.mp
    ((integerCeilingColumn_isSome_iff model result.solution).mpr hat)
  unfold rejectIntegerCeilingOptimum
  rw [if_neg (not_not.mpr hstatus), hcol]

/-! ## The homogeneous model -/

section Ray

variable [IsStrictOrderedRing K]

omit [IsStrictOrderedRing K] in
theorem rayFallbackModel_objective (model : SolverModel K) (d : Nat → K) :
    (rayFallbackModel model).objectiveValue d =
      if model.maximize then model.objective.eval d else -model.objective.eval d := by
  have hmap : ∀ (columns : List (SolverColumn K)) (n : Nat),
      Form.eval (((columns.map fun column =>
        ({ lower := 0
           upper := if column.openAbove then 1 else 0
           objCoeff := if model.maximize then column.objCoeff else -column.objCoeff } :
          SolverColumn K)).zipIdx n).map fun p => (p.2, p.1.objCoeff)) d =
      if model.maximize then Form.eval ((columns.zipIdx n).map fun p => (p.2, p.1.objCoeff)) d
      else -Form.eval ((columns.zipIdx n).map fun p => (p.2, p.1.objCoeff)) d := by
    intro columns
    induction columns with
    | nil => simp
    | cons column columns ih =>
      intro n
      simp only [List.map_cons, List.zipIdx_cons, Form.eval_cons]
      rw [ih (n + 1)]
      split <;> ring
  unfold SolverModel.objectiveValue SolverModel.objective
  simpa [rayFallbackModel] using hmap model.columns 0

omit [Field K] [LinearOrder K] [IsStrictOrderedRing K] in
theorem mem_objective {model : SolverModel K} {e : Nat × K} (h : e ∈ model.objective) :
    ∃ column, model.columns[e.1]? = some column := by
  obtain ⟨p, hp, rfl⟩ := List.mem_map.mp h
  exact ⟨p.1, List.mem_zipIdx_iff_getElem?.mp hp⟩

/-- The box of a column of the homogeneous model. -/
theorem rayColumn_inBox (column : SolverColumn K) (c x : K) :
    ({ lower := 0, upper := if column.openAbove then 1 else 0, objCoeff := c } :
      SolverColumn K).InBox x ↔
      0 ≤ x ∧ x ≤ 1 ∧ (x ≠ 0 → column.openAbove = true) := by
  have hinf : (1 : K) < effectiveInfinity := by
    unfold effectiveInfinity
    exact one_lt_pow₀ (by norm_num) (by norm_num)
  have hbelow : ∀ u : K, ({ lower := 0, upper := u, objCoeff := c } : SolverColumn K).openBelow =
      false := by
    intro u
    unfold SolverColumn.openBelow
    rw [decide_eq_false_iff_not]
    linarith
  have habove : ({ lower := 0, upper := if column.openAbove then 1 else 0, objCoeff := c } :
      SolverColumn K).openAbove = false := by
    unfold SolverColumn.openAbove
    rw [decide_eq_false_iff_not]
    dsimp only
    split <;> linarith
  constructor
  · rintro ⟨hl, hu⟩
    rw [hbelow] at hl
    rw [habove] at hu
    have h0 : 0 ≤ x := hl.resolve_left Bool.false_ne_true
    have h1 : x ≤ if column.openAbove then 1 else 0 := hu.resolve_left Bool.false_ne_true
    cases hopen : column.openAbove with
    | true =>
      rw [hopen, if_pos rfl] at h1
      exact ⟨h0, h1, fun _ => rfl⟩
    | false =>
      rw [hopen, if_neg Bool.false_ne_true] at h1
      exact ⟨h0, h1.trans zero_le_one, fun hx => absurd (le_antisymm h1 h0) hx⟩
  · rintro ⟨h0, h1, hopen⟩
    refine ⟨Or.inr h0, Or.inr ?_⟩
    dsimp only
    split
    · exact h1
    · by_contra hx
      exact (by assumption : ¬ column.openAbove = true) (hopen fun h => hx (h ▸ le_rfl))

/-- What the homogeneous model asks of a direction. -/
theorem rayFallbackModel_feasible (model : SolverModel K) (d : Nat → K) :
    (rayFallbackModel model).Feasible d ↔
      (∀ i (column : SolverColumn K), model.columns[i]? = some column →
        0 ≤ d i ∧ d i ≤ 1 ∧ (d i ≠ 0 → column.openAbove = true)) ∧
      ∀ row ∈ model.constraints, row.sense.Holds (row.form.eval d) 0 := by
  have hboxes : (∀ i (column : SolverColumn K),
      (rayFallbackModel model).columns[i]? = some column → column.InBox (d i)) ↔
      ∀ i (column : SolverColumn K), model.columns[i]? = some column →
        0 ≤ d i ∧ d i ≤ 1 ∧ (d i ≠ 0 → column.openAbove = true) := by
    refine forall_congr' fun i => ?_
    rw [rayFallbackModel, List.getElem?_map]
    cases model.columns[i]? with
    | none => simp
    | some column =>
      simp only [Option.map_some, Option.some.injEq, forall_eq']
      exact rayColumn_inBox column _ _
  have hfin : ∀ (sense : Sense) (v : K), MeetsRhs sense v (.fin 0) ↔ sense.Holds v 0 := by
    intro sense v
    cases sense with
    | le => exact meetsRhs_le_fin v 0
    | ge => exact meetsRhs_ge_fin v 0
    | eq => exact meetsRhs_eq_fin v 0
  constructor
  · intro h
    refine ⟨hboxes.mp h.boxes, fun row hrow => (hfin _ _).mp ?_⟩
    exact h.constraints _ (List.mem_map_of_mem hrow)
  · rintro ⟨hbox, hrows⟩
    refine ⟨⟨hboxes.mpr hbox, ?_, ?_, ?_, ?_⟩, ?_⟩
    · intro row hrow
      obtain ⟨r, hr, rfl⟩ := List.mem_map.mp hrow
      exact (hfin _ _).mpr (hrows r hr)
    · exact fun row hrow => absurd hrow List.not_mem_nil
    · exact fun row hrow => absurd hrow List.not_mem_nil
    · exact fun row hrow => absurd hrow List.not_mem_nil
    · intro i column hcol hinteger
      rw [rayFallbackModel, List.getElem?_map] at hcol
      obtain ⟨c, -, rfl⟩ := Option.map_eq_some_iff.mp hcol
      cases hinteger

/-- A feasible direction that gains enough is an upward ray, and conversely. -/
theorem isUpwardRay_iff (model : SolverModel K) (d : Nat → K) :
    model.IsUpwardRay d ↔ (rayFallbackModel model).Feasible d ∧
      diagnosticRayEpsilon < (rayFallbackModel model).objectiveValue d := by
  rw [rayFallbackModel_feasible, rayFallbackModel_objective]
  constructor
  · intro h
    exact ⟨⟨fun i column hcol => ⟨h.nonneg i column hcol, h.le_one i column hcol,
      h.openAbove i column hcol⟩, h.constraints⟩, h.gain⟩
  · rintro ⟨⟨hbox, hrows⟩, hgain⟩
    exact ⟨fun i column hcol => (hbox i column hcol).1, fun i column hcol => (hbox i column hcol).2.1,
      fun i column hcol => (hbox i column hcol).2.2, hrows, hgain⟩

/-- The homogeneous model has an optimum below the sum of the objective coefficients. -/
theorem rayFallbackModel_not_isUnbounded (model : SolverModel K) :
    ¬ (rayFallbackModel model).IsUnbounded := by
  intro h
  obtain ⟨d, hd, hbetter⟩ := h.exists_better
    (((rayFallbackModel model).objective.map fun e => |e.2|).sum)
  have hbound : (rayFallbackModel model).objectiveValue d ≤
      ((rayFallbackModel model).objective.map fun e => |e.2|).sum := by
    unfold SolverModel.objectiveValue
    rw [if_neg (by simp [rayFallbackModel]), add_zero]
    refine Form.eval_le_sum_abs _ _ fun e he => ?_
    obtain ⟨column, hcol⟩ := mem_objective he
    rw [rayFallbackModel, List.getElem?_map] at hcol
    obtain ⟨c, hc, -⟩ := Option.map_eq_some_iff.mp hcol
    obtain ⟨h0, h1, -⟩ := ((rayFallbackModel_feasible model d).mp hd).1 e.1 c hc
    exact ⟨h0, h1⟩
  unfold SolverModel.Better at hbetter
  rw [if_pos (by simp [rayFallbackModel])] at hbetter
  exact absurd hbetter (not_lt.mpr hbound)

theorem rayFallbackModel_isFeasible (model : SolverModel K) :
    (rayFallbackModel model).IsFeasible := by
  refine ⟨fun _ => 0, (rayFallbackModel_feasible model _).mpr ⟨fun i column _ => ?_, fun row _ => ?_⟩⟩
  · exact ⟨le_rfl, zero_le_one, fun h => absurd rfl h⟩
  · rw [Form.eval_zero]
    cases row.sense
    · exact le_rfl
    · exact le_rfl
    · rfl

/-- An exact solve of the homogeneous model that comes to a verdict comes back with an optimum. -/
theorem rayFallbackModel_optimal {model : SolverModel K} {result : SolverResult K}
    (hexact : result.Exact (rayFallbackModel model)) (hanswers : result.Answers) :
    result.status = .optimal := by
  have hunb := rayFallbackModel_not_isUnbounded model
  have hfeasible := rayFallbackModel_isFeasible model
  rcases hanswers with h | h | h | h
  · exact h
  · exact absurd hfeasible (hexact.not_feasible h)
  · exact absurd (hexact.isUnbounded h) hunb
  · exact absurd (hexact.infOrUnbd h) (not_or.mpr ⟨not_not.mpr hfeasible, hunb⟩)

/-- **An upward ray of a linear model is a real one.** -/
theorem SolverModel.IsUpwardRay.isImprovingRay {model : SolverModel K} {d : Nat → K}
    (hlinear : model.isLinear = true) (h : model.IsUpwardRay d) : model.IsImprovingRay d := by
  unfold SolverModel.isLinear at hlinear
  simp only [Bool.and_eq_true, Bool.not_eq_true', List.isEmpty_iff] at hlinear
  obtain ⟨⟨⟨hobj, hquad⟩, hgen⟩, hind⟩ := hlinear
  have heps : (0 : K) < diagnosticRayEpsilon := by
    unfold diagnosticRayEpsilon
    positivity
  constructor
  · intro x hx t ht
    refine ⟨fun i column hcol => ?_, fun row hrow => ?_, ?_, ?_, ?_⟩
    · obtain ⟨hl, hu⟩ := hx.boxes i column hcol
      have hstep : 0 ≤ t * d i := mul_nonneg ht (h.nonneg i column hcol)
      constructor
      · exact hl.imp_right fun hl => by linarith
      · by_cases hd : d i = 0
        · rw [hd, mul_zero, add_zero]
          exact hu
        · exact Or.inl (h.openAbove i column hcol hd)
    · unfold SolverRow.Holds MeetsRhs
      rw [Form.eval_add_mul]
      exact Sense.holds_add_mul ht (hx.constraints row hrow) (h.constraints row hrow)
    · rw [hquad]
      exact fun row hrow => absurd hrow List.not_mem_nil
    · rw [hind]
      exact fun row hrow => absurd hrow List.not_mem_nil
    · rw [hgen]
      exact fun row hrow => absurd hrow List.not_mem_nil
  · intro x t ht
    have hvalue : ∀ y : Nat → K, model.objectiveValue y = model.objective.eval y := by
      intro y
      unfold SolverModel.objectiveValue
      rw [if_neg (by rw [hobj]; exact Bool.false_ne_true), add_zero]
    rw [hvalue, hvalue, Form.eval_add_mul]
    have hgain := h.gain
    unfold SolverModel.Better
    cases hmax : model.maximize with
    | true =>
      rw [hmax, if_pos rfl] at hgain
      rw [if_pos rfl]
      have := mul_pos ht (heps.trans hgain)
      linarith
    | false =>
      rw [hmax, if_neg Bool.false_ne_true] at hgain
      rw [if_neg Bool.false_ne_true]
      have := mul_pos ht (heps.trans hgain)
      linarith

/-! ## Attaching a ray -/

variable {requested : Bool} {session diagnosticSolve : SolverModel K → SolverResult K}
  {model : SolverModel K} {result : SolverResult K}

omit [IsStrictOrderedRing K] in
/-- Attaching a ray leaves the status. -/
theorem attachUnboundedRayIfRequested_status :
    (attachUnboundedRayIfRequested requested diagnosticSolve model result).status =
      result.status := by
  unfold attachUnboundedRayIfRequested
  dsimp only
  split
  · rfl
  · split
    · rfl
    · split
      · rfl
      · split
        · rfl
        · split
          · rfl
          · split <;> rfl

omit [IsStrictOrderedRing K] in
/-- The gain `AttachUnboundedRayIfRequested` measures is the objective of the homogeneous model. -/
theorem computeLinearObjectiveValue_rayFallbackModel {solution : List K}
    (h : solution.length = model.numVars) :
    computeLinearObjectiveValue (rayFallbackModel model) solution =
      (rayFallbackModel model).objectiveValue (point solution) := by
  have hwidth : (rayFallbackModel model).numVars = model.numVars := by
    simp [rayFallbackModel, SolverModel.numVars]
  unfold computeLinearObjectiveValue SolverModel.objectiveValue
  rw [hwidth, if_neg (not_not.mpr h), if_neg (by simp [rayFallbackModel]), add_zero]

/-- A ray attached to an answer without one is an upward ray of a linear model. -/
theorem attachUnboundedRayIfRequested_ray
    (hdiagnostic : (diagnosticSolve (rayFallbackModel model)).Exact (rayFallbackModel model))
    (hnil : result.ray = [])
    (hray : (attachUnboundedRayIfRequested requested diagnosticSolve model result).ray ≠ []) :
    model.isLinear = true ∧ model.IsUpwardRay
      (point (attachUnboundedRayIfRequested requested diagnosticSolve model result).ray) := by
  revert hray
  unfold attachUnboundedRayIfRequested buildUnboundedRayFallbackModel
  dsimp only
  split
  · exact fun h => absurd hnil h
  · split
    · exact fun h => absurd hnil h
    · cases hlinear : model.isLinear with
      | false => exact fun h => absurd hnil h
      | true =>
        simp only [if_true]
        split
        · exact fun h => absurd hnil h
        · split
          · exact fun h => absurd hnil h
          · rename_i hstatus
            rw [Bool.or_eq_true, not_or, decide_eq_true_eq, decide_eq_true_eq, not_not, not_not]
              at hstatus
            split
            · rename_i hgain
              intro _
              obtain ⟨-, hopt, -⟩ := hdiagnostic.isOptimal hstatus.1
              rw [computeLinearObjectiveValue_rayFallbackModel hstatus.2] at hgain
              exact ⟨trivial, (isUpwardRay_iff model _).mpr ⟨hopt.feasible, hgain⟩⟩
            · exact fun h => absurd hnil h

/-- A linear model with an upward ray has one attached when the homogeneous model is solved. -/
theorem attachUnboundedRayIfRequested_ne_nil
    (hdiagnostic : (diagnosticSolve (rayFallbackModel model)).Exact (rayFallbackModel model))
    (hanswers : (diagnosticSolve (rayFallbackModel model)).Answers)
    (hrequested : requested = true) (hlinear : model.isLinear = true)
    (hstatus : result.status = .unbounded ∨ result.status = .infOrUnbd)
    (hray : ∃ d, model.IsUpwardRay d) :
    (attachUnboundedRayIfRequested requested diagnosticSolve model result).ray ≠ [] := by
  have hoptimal := rayFallbackModel_optimal hdiagnostic hanswers
  obtain ⟨hlength, hopt, -⟩ := hdiagnostic.isOptimal hoptimal
  have hwidth : (rayFallbackModel model).numVars = model.numVars := by
    simp [rayFallbackModel, SolverModel.numVars]
  rw [hwidth] at hlength
  obtain ⟨d, hd⟩ := hray
  obtain ⟨hfeasible, hgain⟩ := (isUpwardRay_iff model d).mp hd
  have hbest : (rayFallbackModel model).objectiveValue d ≤
      (rayFallbackModel model).objectiveValue
        (point (diagnosticSolve (rayFallbackModel model)).solution) := by
    have := hopt.not_better d hfeasible
    unfold SolverModel.Better at this
    rwa [if_pos (by simp [rayFallbackModel]), not_lt] at this
  have heps := hgain.trans_le hbest
  rw [← computeLinearObjectiveValue_rayFallbackModel hlength] at heps
  -- a direction that gains is not the empty one
  have hne : (diagnosticSolve (rayFallbackModel model)).solution ≠ [] := by
    intro hnil
    rw [hnil] at heps
    have hzero : computeLinearObjectiveValue (rayFallbackModel model) [] = 0 := by
      unfold computeLinearObjectiveValue
      split
      · rfl
      · have : (point ([] : List K)) = fun _ => 0 := by
          funext i
          simp [point]
        rw [this, Form.eval_zero]
    rw [hzero] at heps
    unfold diagnosticRayEpsilon at heps
    have : (0 : K) < 1 / 10 ^ 8 := by positivity
    linarith
  unfold attachUnboundedRayIfRequested buildUnboundedRayFallbackModel
  have hopen : (!requested || (decide (result.status ≠ .unbounded) &&
      decide (result.status ≠ .infOrUnbd))) = false := by
    rw [hrequested]
    rcases hstatus with h | h <;> simp [h]
  rw [if_neg (by rw [hopen]; exact Bool.false_ne_true)]
  by_cases hown : result.ray ≠ []
  · rw [if_pos hown]
    exact hown
  · rw [if_neg hown, if_pos hlinear]
    dsimp only
    rw [if_neg (by rw [hoptimal]; exact fun h => by cases h),
      if_neg (by simp [hoptimal, hlength]), if_pos heps]
    exact hne

/-! ## The claim of the verdicts -/

omit [IsStrictOrderedRing K] in
/-- An answer exact before the ceiling guard stays sound when the guard lets it pass. -/
theorem postSolve_of_not_atIntegerCeiling
    (hceiling : ¬ model.AtIntegerCeiling (session model)) :
    postSolve requested session diagnosticSolve model =
      attachUnboundedRayIfRequested requested diagnosticSolve model
        (disambiguateInfOrUnbd diagnosticSolve model (session model)) := by
  unfold postSolve
  dsimp only
  rw [rejectIntegerCeilingOptimum_of_not]
  by_cases hstatus : (session model).status = .infOrUnbd
  · intro h
    refine disambiguateInfOrUnbd_ne_optimal ?_ h.1
    rw [hstatus]
    exact fun h => by cases h
  · rw [disambiguateInfOrUnbd_of_ne hstatus]
    exact hceiling

end Ray

/-! ## Fixed answers -/

theorem SolverResult.Exact.of_optimal {model : SolverModel ℚ} {solution : List ℚ}
    (hlength : solution.length = model.numVars) (hopt : model.IsOptimal (point solution)) :
    ({ status := .optimal, solution := solution,
       objectiveValue := model.objectiveValue (point solution) } : SolverResult ℚ).Exact model where
  isOptimal := fun _ => ⟨hlength, hopt, rfl⟩
  not_feasible := fun h => by cases h
  isUnbounded := fun h => by cases h
  infOrUnbd := fun h => by cases h
  ray_nil := rfl

theorem SolverResult.Exact.of_unbounded {model : SolverModel ℚ} (h : model.IsUnbounded) :
    ({ status := .unbounded, objectiveValue := 0 } : SolverResult ℚ).Exact model where
  isOptimal := fun h => by cases h
  not_feasible := fun h => by cases h
  isUnbounded := fun _ => h
  infOrUnbd := fun h => by cases h
  ray_nil := rfl

/-- A backend that knows one model. -/
def answering (model : SolverModel ℚ) (result : SolverResult ℚ) : SolverModel ℚ → SolverResult ℚ :=
  fun m => if m = model then result else { status := .other, objectiveValue := 0 }

theorem answering_self (model : SolverModel ℚ) (result : SolverResult ℚ) :
    answering model result model = result := if_pos rfl

theorem answering_exact {model : SolverModel ℚ} {result : SolverResult ℚ}
    (h : result.Exact model) (m : SolverModel ℚ) : (answering model result m).Exact m := by
  unfold answering
  by_cases hm : m = model
  · rw [if_pos hm, hm]
    exact h
  · rw [if_neg hm]
    exact ⟨fun h => (by cases h), fun h => (by cases h), fun h => (by cases h),
      fun h => (by cases h), rfl⟩

/-- `MAXIMIZE SUM(x)` over one row, `x` open above. -/
def escapingModel : SolverModel ℚ where
  columns := [{ lower := 0, upper := openBound, objCoeff := 1 }]
  maximize := true

theorem escapingModel_feasible {v : ℚ} (h : 0 ≤ v) : escapingModel.Feasible fun _ => v := by
  refine ⟨⟨fun i column hcol => ?_, by simp [escapingModel], by simp [escapingModel],
    by simp [escapingModel], by simp [escapingModel]⟩, fun i column hcol hinteger => ?_⟩
  · cases i with
    | zero =>
      obtain rfl : _ = column := Option.some.inj hcol
      exact ⟨Or.inr h, Or.inl (by decide +kernel)⟩
    | succ i => simp [escapingModel] at hcol
  · cases i with
    | zero =>
      obtain rfl : _ = column := Option.some.inj hcol
      cases hinteger
    | succ i => simp [escapingModel] at hcol

theorem escapingModel_isUnbounded : escapingModel.IsUnbounded := by
  refine ⟨⟨_, escapingModel_feasible le_rfl⟩, fun v => ⟨_, escapingModel_feasible
    (v := |v| + 1) (by positivity), ?_⟩⟩
  have hvalue : escapingModel.objectiveValue (fun _ => |v| + 1) = |v| + 1 := by
    simp [SolverModel.objectiveValue, SolverModel.objective, escapingModel]
  rw [hvalue]
  show v < |v| + 1
  linarith [le_abs_self v]

theorem escapingRay_isOptimal : (rayFallbackModel escapingModel).IsOptimal (point [1]) := by
  have hobjective : ∀ d : Nat → ℚ, (rayFallbackModel escapingModel).objectiveValue d = d 0 := by
    intro d
    rw [rayFallbackModel_objective]
    simp [SolverModel.objective, escapingModel]
  refine ⟨?_, fun d hd => ?_⟩
  · refine (rayFallbackModel_feasible _ _).mpr ⟨fun i column hcol => ?_, by simp [escapingModel]⟩
    cases i with
    | zero =>
      obtain rfl : _ = column := Option.some.inj hcol
      exact ⟨by decide, by decide, fun _ => by decide +kernel⟩
    | succ i => simp [escapingModel] at hcol
  · obtain ⟨-, hle, -⟩ := ((rayFallbackModel_feasible _ d).mp hd).1 0 _ rfl
    rw [hobjective, hobjective]
    exact not_lt.mpr hle

/-- `MAXIMIZE SUM(x) SUCH THAT SUM(x) <= 3000000000` over one row, `x` an integer without a bound of
its own. -/
def rowBoundedModel : SolverModel ℚ where
  columns := [{ lower := 0, upper := openBound, isInteger := true, objCoeff := 1 }]
  constraints := [{ form := [(0, 1)], sense := .le, rhs := .fin 3000000000 }]
  maximize := true

theorem rowBounded_isOptimal : rowBoundedModel.IsOptimal (point [3000000000]) := by
  have hobjective : ∀ x : Nat → ℚ, rowBoundedModel.objectiveValue x = x 0 := by
    intro x
    simp [SolverModel.objectiveValue, SolverModel.objective, rowBoundedModel]
  refine ⟨?_, fun y hy => ?_⟩
  · refine ⟨⟨fun i column hcol => ?_, ?_, by simp [rowBoundedModel], by simp [rowBoundedModel],
      by simp [rowBoundedModel]⟩, fun i column hcol _ => ?_⟩
    · cases i with
      | zero =>
        obtain rfl : _ = column := Option.some.inj hcol
        exact ⟨Or.inr (by decide +kernel), Or.inl (by decide +kernel)⟩
      | succ i => simp [rowBoundedModel] at hcol
    · intro row hrow
      obtain rfl := List.mem_singleton.mp hrow
      show MeetsRhs _ _ _
      decide +kernel
    · cases i with
      | zero => exact ⟨3000000000, by decide +kernel⟩
      | succ i => simp [rowBoundedModel] at hcol
  · have hrow := hy.constraints _ (List.mem_singleton.mpr rfl)
    rw [hobjective, hobjective]
    refine not_lt.mpr ?_
    simpa [point] using (meetsRhs_le_fin _ _).mp hrow

end Decidb
