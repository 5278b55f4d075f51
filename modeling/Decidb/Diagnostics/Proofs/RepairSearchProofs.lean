import Decidb.Diagnostics.Proofs.ElasticModelProofs
import Decidb.Diagnostics.RepairSearch
import Decidb.Linear.LexLeast

/-!
# What one candidate computes

The passes of stage 1 minimize one tier after the other, each frozen by a budget row before the next. What
the last pass leaves feasible are the repairs least in the data tier and, among those, in the editable one.
Stage 2 and the tie-break choose among them.
-/

namespace Decidb

open Linear

variable {K : Type*} [Field K] [LinearOrder K]

/-! ## Replacing an objective -/

omit [LinearOrder K] in
/-- A coefficient set on one column is added to the value. -/
theorem eval_objective_modify (columns : List (SolverColumn K)) (start i : Nat)
    {column : SolverColumn K} (hcolumn : columns[i]? = some column) (v : K) (x : Nat → K) :
    Form.eval (((columns.modify i fun column => { column with objCoeff := v }).zipIdx start).map
        fun p => (p.2, p.1.objCoeff)) x =
      Form.eval ((columns.zipIdx start).map fun p => (p.2, p.1.objCoeff)) x +
        (v - column.objCoeff) * x (start + i) := by
  induction columns generalizing start i with
  | nil => cases hcolumn
  | cons c columns ih =>
    cases i with
    | zero =>
      obtain rfl : c = column := Option.some.inj hcolumn
      simp only [List.modify_zero_cons, List.zipIdx_cons, List.map_cons, Form.eval_cons, Nat.add_zero]
      ring
    | succ i =>
      simp only [List.modify_succ_cons, List.zipIdx_cons, List.map_cons, Form.eval_cons]
      rw [ih (start + 1) i hcolumn, show start + 1 + i = start + (i + 1) by omega, add_assoc]

omit [Field K] [LinearOrder K] in
theorem domain_modify_objCoeff (columns : List (SolverColumn K)) (i : Nat) (v : K) :
    (columns.modify i fun column => { column with objCoeff := v }).map (·.domain) =
      columns.map (·.domain) := by
  induction columns generalizing i with
  | nil => cases i <;> rfl
  | cons c columns ih =>
    cases i with
    | zero => rfl
    | succ i => simp only [List.modify_succ_cons, List.map_cons, ih]

omit [LinearOrder K] in
/-- Only the objective changes. -/
theorem setObjective_domain (columns : List (SolverColumn K)) (terms : Form Nat K) :
    (setObjective columns terms).map (·.domain) = columns.map (·.domain) := by
  have hfold : ∀ (terms : Form Nat K) (columns : List (SolverColumn K)),
      (terms.foldl (fun columns e => columns.modify e.1 fun column =>
        { column with objCoeff := e.2 }) columns).map (·.domain) = columns.map (·.domain) := by
    intro terms
    induction terms with
    | nil => exact fun _ => rfl
    | cons e terms ih => exact fun columns => (ih _).trans (domain_modify_objCoeff columns e.1 e.2)
  unfold setObjective
  rw [hfold, List.map_map]
  rfl

omit [LinearOrder K] in
/-- The new objective is the terms it is set to, when no column has two of them. -/
theorem eval_setObjective {columns : List (SolverColumn K)} {terms : Form Nat K}
    (hnodup : (terms.map (·.1)).Nodup) (hrange : ∀ e ∈ terms, e.1 < columns.length) (x : Nat → K) :
    Form.eval ((setObjective columns terms).zipIdx.map fun p => (p.2, p.1.objCoeff)) x =
      terms.eval x := by
  have hfold : ∀ (terms : Form Nat K) (columns : List (SolverColumn K)), (terms.map (·.1)).Nodup →
      (∀ e ∈ terms, ∃ column : SolverColumn K, columns[e.1]? = some column ∧ column.objCoeff = 0) →
      Form.eval ((terms.foldl (fun columns e => columns.modify e.1 fun column =>
        { column with objCoeff := e.2 }) columns).zipIdx.map fun p => (p.2, p.1.objCoeff)) x =
      Form.eval (columns.zipIdx.map fun p => (p.2, p.1.objCoeff)) x + terms.eval x := by
    intro terms
    induction terms with
    | nil => exact fun columns _ _ => (add_zero _).symm
    | cons e terms ih =>
      intro columns hnodup hzero
      rw [List.map_cons, List.nodup_cons] at hnodup
      obtain ⟨column, hcolumn, hcoeff⟩ := hzero e List.mem_cons_self
      rw [List.foldl_cons, ih _ hnodup.2 fun t ht => ?_, eval_objective_modify columns 0 e.1 hcolumn,
        hcoeff, sub_zero, Nat.zero_add, Form.eval_cons, add_assoc]
      -- the columns of the later terms are untouched
      obtain ⟨c, hc, hc0⟩ := hzero t (List.mem_cons_of_mem _ ht)
      have hne : e.1 ≠ t.1 := fun h => hnodup.1 (h ▸ List.mem_map_of_mem ht)
      exact ⟨c, (List.getElem?_modify_ne _ _ hne).trans hc, hc0⟩
  unfold setObjective
  rw [hfold terms _ hnodup fun e he => ?_]
  · have hzero : Form.eval (((columns.map fun column => { column with objCoeff := 0 }).zipIdx).map
        fun p => (p.2, p.1.objCoeff)) x = 0 := by
      refine List.sum_eq_zero fun v hv => ?_
      obtain ⟨t, ht, rfl⟩ := List.mem_map.mp hv
      obtain ⟨p, hp, rfl⟩ := List.mem_map.mp ht
      obtain ⟨column, -, hcolumn⟩ := List.mem_map.mp (List.fst_mem_of_mem_zipIdx hp)
      show p.1.objCoeff * _ = 0
      rw [← hcolumn, zero_mul]
    rw [hzero, zero_add]
  · refine ⟨{ columns.get ⟨e.1, hrange e he⟩ with objCoeff := 0 }, ?_, rfl⟩
    rw [List.getElem?_map, List.getElem?_eq_getElem (hrange e he)]
    rfl

/-! ## Tiers -/

/-- What an assignment pays in a tier. -/
def tierValue (slacks : List (BlockSlackRef K)) (tier : ElasticRepairTier) (x : Nat → K) : K :=
  (tierTerms slacks tier).eval x

/-- A block contributes its slacks, unless it belongs to another tier. -/
theorem tierValue_eq (slacks : List (BlockSlackRef K)) (tier : ElasticRepairTier) (x : Nat → K) :
    tierValue slacks tier x =
      (slacks.map fun block => slackTierCoefficient block tier * (block.columns.map x).sum).sum := by
  unfold tierValue tierTerms
  rw [Form.eval_flatMap]
  refine congrArg List.sum (List.map_congr_left fun block _ => ?_)
  dsimp only
  split
  · rename_i hzero
    rw [hzero, zero_mul, Form.eval_nil]
  · unfold BlockSlackRef.columns
    cases block.negCol with
    | none => simp
    | some c => simp [mul_add]

theorem tierTerms_columns_sublist (slacks : List (BlockSlackRef K)) (tier : ElasticRepairTier) :
    ((tierTerms slacks tier).map (·.1)).Sublist (slacks.flatMap (·.columns)) := by
  induction slacks with
  | nil => exact List.Sublist.refl _
  | cons block slacks ih =>
    unfold tierTerms at ih ⊢
    rw [List.flatMap_cons, List.flatMap_cons, List.map_append]
    refine List.Sublist.append ?_ ih
    dsimp only
    split
    · exact List.nil_sublist _
    · unfold BlockSlackRef.columns
      cases block.negCol <;> exact List.Sublist.refl _

/-- A tier without a block of its own costs nothing. -/
theorem tierTerms_eq_nil {slacks : List (BlockSlackRef K)} {tier : ElasticRepairTier}
    (h : tierHasTerms slacks tier = false) : tierTerms slacks tier = [] := by
  refine List.flatMap_eq_nil_iff.mpr fun block hblock => ?_
  have hne : block.tier ≠ tier := by
    intro heq
    have := List.any_eq_false.mp h block hblock
    rw [heq, decide_eq_true_eq] at this
    exact this rfl
  have hzero : slackTierCoefficient block tier = 0 := if_pos hne
  dsimp only
  rw [if_pos hzero]

/-- What the search relies on: every slack has columns of its own, inside the program, that no feasible
assignment makes negative, and costs nothing below zero. -/
structure ElasticModel.WellFormed (elastic : ElasticModel K) : Prop where
  nodup : (elastic.slacks.flatMap (·.columns)).Nodup
  lt_numVars : ∀ c ∈ elastic.slacks.flatMap (·.columns), c < elastic.model.numVars
  nonneg : ∀ x, elastic.model.Feasible x → ∀ c ∈ elastic.slacks.flatMap (·.columns), 0 ≤ x c
  coefficient_nonneg : ∀ block ∈ elastic.slacks, ∀ tier, 0 ≤ slackTierCoefficient block tier

theorem ElasticModel.WellFormed.tierValue_nonneg [IsStrictOrderedRing K] {elastic : ElasticModel K}
    (h : elastic.WellFormed) {x : Nat → K} (hx : elastic.model.Feasible x) (tier : ElasticRepairTier) :
    0 ≤ tierValue elastic.slacks tier x := by
  rw [tierValue_eq]
  refine List.sum_nonneg fun v hv => ?_
  obtain ⟨block, hblock, rfl⟩ := List.mem_map.mp hv
  refine mul_nonneg (h.coefficient_nonneg block hblock tier) (List.sum_nonneg fun w hw => ?_)
  obtain ⟨c, hc, rfl⟩ := List.mem_map.mp hw
  exact h.nonneg x hx c (List.mem_flatMap.mpr ⟨block, hblock, hc⟩)

theorem buildElasticModel_numVars (sqrt : K → K) (base : SolverModel K) (foldData : Bool) :
    (buildElasticModel sqrt base foldData).model.numVars =
      base.numVars + ((buildElasticModel sqrt base foldData).slacks.map (·.width)).sum := by
  show List.length (_ ++ List.replicate _ _) = _
  rw [List.length_append, List.length_map, List.length_replicate]
  rfl

theorem buildElasticModel_wellFormed [IsStrictOrderedRing K] (sqrt : K → K) (base : SolverModel K)
    (foldData : Bool) : (buildElasticModel sqrt base foldData).WellFormed := by
  have hcolumns := allotColumns_columns base.numVars
    (linearBlocks sqrt foldData base ++ quadraticBlocks sqrt base)
  rw [← buildElasticModel_slacks] at hcolumns
  refine ⟨?_, fun c hc => ?_, fun x hx c hc => ?_, fun block hblock tier =>
    slackTierCoefficient_nonneg hblock tier⟩
  · rw [hcolumns]
    exact List.nodup_range'
  · rw [hcolumns, List.mem_range'_1] at hc
    rw [buildElasticModel_numVars]
    exact hc.2
  · rw [hcolumns, List.mem_range'_1] at hc
    exact slackColumns_nonneg hx hc.1 hc.2

/-- What an assignment of the elastic program pays is what the repair it writes pays. -/
theorem tierValue_buildElasticModel (sqrt : K → K) (base : SolverModel K) (foldData : Bool)
    (tier : ElasticRepairTier) (x : Nat → K) :
    tierValue (buildElasticModel sqrt base foldData).slacks tier x =
      tierTotal (buildElasticModel sqrt base foldData).slacks tier
        (amountsAt (buildElasticModel sqrt base foldData).slacks x) := by
  rw [tierValue_eq, buildElasticModel_slacks, eval_tierTotal]

/-! ## One pass -/

theorem setTierObjective_feasible (model : SolverModel K) (slacks : List (BlockSlackRef K))
    (tier : ElasticRepairTier) (x : Nat → K) :
    (setTierObjective model slacks tier).Feasible x ↔ model.Feasible x := by
  have hdomain : (setTierObjective model slacks tier).columns.map (·.domain) =
      model.columns.map (·.domain) := setObjective_domain _ _
  exact SolverModel.feasible_congr hdomain rfl rfl rfl rfl x

/-- The objective of a pass is what the tier is paid. -/
theorem setTierObjective_objectiveValue {elastic : ElasticModel K} (h : elastic.WellFormed)
    {model : SolverModel K} (hnumVars : model.numVars = elastic.model.numVars)
    (tier : ElasticRepairTier) (x : Nat → K) :
    (setTierObjective model elastic.slacks tier).objectiveValue x =
      tierValue elastic.slacks tier x := by
  have hsub := tierTerms_columns_sublist elastic.slacks tier
  have hrange : ∀ e ∈ tierTerms elastic.slacks tier, e.1 < model.columns.length := fun e he =>
    (h.lt_numVars e.1 (hsub.subset (List.mem_map_of_mem he))).trans_eq hnumVars.symm
  have hlinear := eval_setObjective (h.nodup.sublist hsub) hrange x
  show Form.eval _ x + 0 = _
  rw [add_zero]
  exact hlinear

/-- What a budget row asks. -/
def TierBudget.Binds (slacks : List (BlockSlackRef K)) (budget : TierBudget K) (x : Nat → K) : Prop :=
  budget.active = true → tierTerms slacks budget.tier ≠ [] →
    tierValue slacks budget.tier x ≤ budget.value

theorem addTierBudgetRow_feasible (model : SolverModel K) (slacks : List (BlockSlackRef K))
    (budget : TierBudget K) (x : Nat → K) :
    (addTierBudgetRow model slacks budget).Feasible x ↔ model.Feasible x ∧ budget.Binds slacks x := by
  unfold addTierBudgetRow TierBudget.Binds
  by_cases hactive : budget.active = true
  · by_cases hterms : tierTerms slacks budget.tier = []
    · rw [if_pos (by simp [hterms])]
      exact ⟨fun h => ⟨h, fun _ hne => absurd hterms hne⟩, fun h => h.1⟩
    · rw [if_neg (by simp [hactive, hterms]), SolverModel.feasible_append]
      refine and_congr_right' ((meetsRhs_le_fin _ _).trans ⟨fun h _ _ => h, fun h => h hactive hterms⟩)
  · rw [if_pos (by simp [hactive])]
    exact ⟨fun h => ⟨h, fun ha => absurd ha hactive⟩, fun h => h.1⟩

/-- A fresh budget asks for what its solution pays. -/
theorem makeTierBudget_binds {slacks : List (BlockSlackRef K)} {solution : List K}
    {tier : ElasticRepairTier} (h : 0 ≤ tierValue slacks tier (point solution)) (x : Nat → K) :
    (makeTierBudget solution slacks tier).Binds slacks x ↔
      tierValue slacks tier x ≤ tierValue slacks tier (point solution) := by
  unfold TierBudget.Binds makeTierBudget
  by_cases hterms : tierTerms slacks tier = []
  · refine iff_of_true (fun _ hne => absurd hterms hne) ?_
    simp [tierValue, hterms]
  · have hactive : (!(tierTerms slacks tier).isEmpty) = true := by simp [hterms]
    simp only [hactive, if_true, forall_const, computeTierValue]
    rw [show Form.eval (tierTerms slacks tier) (point solution) =
      tierValue slacks tier (point solution) from rfl, max_eq_right h]
    exact ⟨fun hle => hle hterms, fun hle _ => hle⟩

theorem makeTierBudget_value {slacks : List (BlockSlackRef K)} {solution : List K}
    {tier : ElasticRepairTier} (h : 0 ≤ tierValue slacks tier (point solution)) :
    (makeTierBudget solution slacks tier).value = tierValue slacks tier (point solution) := by
  unfold makeTierBudget
  by_cases hterms : tierTerms slacks tier = []
  · simp [tierValue, hterms]
  · have hactive : (!(tierTerms slacks tier).isEmpty) = true := by simp [hterms]
    simp only [hactive, if_true]
    exact max_eq_right h

/-! ## Stage 1 -/

/-- The repairs least in the data tier and, among those, in the editable tier. -/
def leastRepairs (elastic : ElasticModel K) : Set (Nat → K) :=
  LexLeast ([ElasticRepairTier.dataOffset, .editableLoosen].map (tierValue elastic.slacks))
    {x | elastic.model.Feasible x}

/-- Where stage 1 stands once some tiers are minimized. -/
structure RepairLadder.Reached (elastic : ElasticModel K) (tiers : List ElasticRepairTier)
    (ladder : RepairLadder K) : Prop where
  domain : ladder.model.columns.map (·.domain) = elastic.model.columns.map (·.domain)
  feasible : ∀ x, ladder.model.Feasible x ↔
    elastic.model.Feasible x ∧ ∀ budget ∈ ladder.budgets, budget.Binds elastic.slacks x
  least : ∀ x, ladder.model.Feasible x ↔
    x ∈ LexLeast (tiers.map (tierValue elastic.slacks)) {x | elastic.model.Feasible x}
  tier_mem : ∀ budget ∈ ladder.budgets, budget.tier ∈ tiers
  budget : ∀ x, ladder.model.Feasible x → ∀ tier ∈ tiers,
    budgetValue ladder.budgets tier = tierValue elastic.slacks tier x
  solution : ∀ solution, ladder.solution = some solution → ladder.model.Feasible (point solution)
  unsolved : ladder.solution = none → ∀ x, elastic.model.Feasible x → ladder.model.Feasible x

theorem acceptPass_ok {input : InfeasibleDiagnosisInput K} {pass : SolverResult K} {solution : List K}
    (h : acceptPass input pass = .ok solution) : pass.status = .optimal ∧ pass.solution = solution := by
  unfold acceptPass at h
  split at h
  · cases h
  · split at h
    · cases h
    · rename_i hstatus
      rw [Bool.or_eq_true, not_or] at hstatus
      exact ⟨by simpa using hstatus.1, Except.ok.inj h⟩

theorem acceptPass_infeasible {input : InfeasibleDiagnosisInput K} {pass : SolverResult K}
    (h : acceptPass input pass = .error .infeasible) :
    pass.status = .infeasible ∧ input.hasUnhandledUserBounds = false := by
  unfold acceptPass at h
  split at h
  · rename_i hstatus
    cases hbounds : input.hasUnhandledUserBounds with
    | false => exact ⟨hstatus, rfl⟩
    | true =>
      rw [hbounds, if_pos rfl] at h
      cases h
  · split at h <;> cases h

omit [LinearOrder K] in
theorem budgetValue_append (budgets : List (TierBudget K)) (budget : TierBudget K)
    (tier : ElasticRepairTier) (hnew : ∀ b ∈ budgets, b.tier ≠ budget.tier) :
    budgetValue (budgets ++ [budget]) tier =
      if tier = budget.tier then budget.value else budgetValue budgets tier := by
  unfold budgetValue
  rw [List.find?_append]
  by_cases htier : tier = budget.tier
  · have hnone : (budgets.find? fun b => b.tier = tier) = none := by
      refine List.find?_eq_none.mpr fun b hb => ?_
      rw [htier, decide_eq_true_eq]
      exact hnew b hb
    rw [hnone, if_pos htier]
    simp [htier]
  · have hnone : ([budget].find? fun b => b.tier = tier) = none := by
      simpa using fun h => htier h.symm
    rw [hnone, if_neg htier, Option.or_none]

omit [LinearOrder K] in
theorem budgetValue_of_forall_ne {budgets : List (TierBudget K)} {tier : ElasticRepairTier}
    (h : ∀ b ∈ budgets, b.tier ≠ tier) : budgetValue budgets tier = 0 := by
  have hnone : (budgets.find? fun b => b.tier = tier) = none :=
    List.find?_eq_none.mpr fun b hb => by simpa using h b hb
  unfold budgetValue
  rw [hnone]
  rfl

section

variable [IsStrictOrderedRing K] {input : InfeasibleDiagnosisInput K} {elastic : ElasticModel K}

omit [IsStrictOrderedRing K] in
theorem RepairLadder.reached_nil (elastic : ElasticModel K) :
    RepairLadder.Reached elastic [] { model := elastic.model } where
  domain := rfl
  feasible := fun x => by simp
  least := fun x => Iff.rfl
  tier_mem := fun budget h => absurd h List.not_mem_nil
  budget := fun x _ tier h => absurd h List.not_mem_nil
  solution := fun solution h => by cases h
  unsolved := fun _ x hx => hx

omit [IsStrictOrderedRing K] in
/-- A tier no slack belongs to is minimized already. -/
theorem RepairLadder.Reached.skip {tiers : List ElasticRepairTier} {ladder : RepairLadder K}
    {tier : ElasticRepairTier} (h : ladder.Reached elastic tiers) (hnew : tier ∉ tiers)
    (hterms : tierHasTerms elastic.slacks tier = false) : ladder.Reached elastic (tiers ++ [tier]) := by
  have hzero : ∀ x, tierValue elastic.slacks tier x = 0 := fun x => by
    rw [tierValue, tierTerms_eq_nil hterms, Form.eval_nil]
  refine ⟨h.domain, h.feasible, fun x => ?_, fun b hb => List.mem_append_left _ (h.tier_mem b hb),
    fun x hx t ht => ?_, h.solution, h.unsolved⟩
  · rw [List.map_append, List.map_singleton, mem_lexLeast_concat, h.least]
    exact ⟨fun hx => ⟨hx, fun y _ => by rw [hzero, hzero]⟩, fun hx => hx.1⟩
  · rcases List.mem_append.mp ht with ht | ht
    · exact h.budget x hx t ht
    · rw [List.mem_singleton] at ht
      subst ht
      rw [hzero]
      exact budgetValue_of_forall_ne fun b hb heq => hnew (heq ▸ h.tier_mem b hb)

/-- A pass minimizes its tier and freezes it. -/
theorem RepairLadder.Reached.climb (hexact : ∀ m, (input.solveModel m).status = .optimal →
    (input.solveModel m).Exact m) (hwf : elastic.WellFormed) {tiers : List ElasticRepairTier}
    {ladder next : RepairLadder K} {tier : ElasticRepairTier} (h : ladder.Reached elastic tiers)
    (hnew : tier ∉ tiers) (hstep : climbTier input elastic.slacks ladder tier = .ok next) :
    next.Reached elastic (tiers ++ [tier]) := by
  unfold climbTier at hstep
  cases hterms : tierHasTerms elastic.slacks tier with
  | false =>
    rw [hterms, Bool.not_false, if_pos rfl] at hstep
    obtain rfl := Except.ok.inj hstep
    exact h.skip hnew hterms
  | true =>
    rw [hterms, Bool.not_true, if_neg Bool.false_ne_true] at hstep
    dsimp only at hstep
    cases hpass : acceptPass input
        (input.solveModel (setTierObjective ladder.model elastic.slacks tier)) with
    | error e =>
      rw [hpass] at hstep
      cases hstep
    | ok solution =>
      rw [hpass] at hstep
      obtain rfl := Except.ok.inj hstep
      obtain ⟨hstatus, hsolution⟩ := acceptPass_ok hpass
      obtain ⟨-, hoptimal, -⟩ := (hexact _ hstatus).isOptimal hstatus
      rw [hsolution] at hoptimal
      have hnumVars : ladder.model.numVars = elastic.model.numVars := by
        have hlength := congrArg List.length h.domain
        rwa [List.length_map, List.length_map] at hlength
      have hfeasible : ladder.model.Feasible (point solution) :=
        (setTierObjective_feasible _ _ _ _).mp hoptimal.feasible
      have hleast : ∀ y, ladder.model.Feasible y →
          tierValue elastic.slacks tier (point solution) ≤ tierValue elastic.slacks tier y := by
        intro y hy
        have := hoptimal.not_better y ((setTierObjective_feasible _ _ _ _).mpr hy)
        rw [setTierObjective_objectiveValue hwf hnumVars,
          setTierObjective_objectiveValue hwf hnumVars] at this
        exact not_lt.mp this
      have hnonneg : 0 ≤ tierValue elastic.slacks tier (point solution) :=
        hwf.tierValue_nonneg ((h.feasible _).mp hfeasible).1 tier
      have htierOf : (makeTierBudget solution elastic.slacks tier).tier = tier := rfl
      have hnext : ∀ x, (addTierBudgetRow (setTierObjective ladder.model elastic.slacks tier)
          elastic.slacks (makeTierBudget solution elastic.slacks tier)).Feasible x ↔
          ladder.model.Feasible x ∧ (makeTierBudget solution elastic.slacks tier).Binds
            elastic.slacks x := by
        intro x
        rw [addTierBudgetRow_feasible, setTierObjective_feasible]
      refine ⟨?_, fun x => ?_, fun x => ?_, fun b hb => ?_, fun x hx t ht => ?_, fun s hs => ?_,
        fun hnone => ?_⟩
      · have hcolumns : ∀ (m : SolverModel K) b, (addTierBudgetRow m elastic.slacks b).columns =
            m.columns := fun m b => by
          unfold addTierBudgetRow
          split <;> rfl
        show (addTierBudgetRow _ _ _).columns.map _ = _
        rw [hcolumns]
        exact (setObjective_domain _ _).trans h.domain
      · rw [hnext, h.feasible, List.forall_mem_append, List.forall_mem_singleton, and_assoc]
      · rw [hnext, makeTierBudget_binds hnonneg, List.map_append, List.map_singleton,
          mem_lexLeast_concat, h.least]
        refine and_congr_right fun hx => ⟨fun hle y hy => ?_, fun hle => ?_⟩
        · exact hle.trans (hleast y ((h.least y).mpr hy))
        · exact hle _ ((h.least _).mp hfeasible)
      · rcases List.mem_append.mp hb with hb | hb
        · exact List.mem_append_left _ (h.tier_mem b hb)
        · rw [List.mem_singleton.mp hb]
          exact List.mem_append_right _ (List.mem_singleton.mpr rfl)
      · obtain ⟨hx', hbinds⟩ := (hnext x).mp hx
        rw [budgetValue_append _ _ _ fun b hb (heq : b.tier = tier) =>
          hnew (heq ▸ h.tier_mem b hb), htierOf]
        by_cases htier : t = tier
        · subst htier
          rw [if_pos rfl, makeTierBudget_value hnonneg]
          exact le_antisymm (hleast x hx') ((makeTierBudget_binds hnonneg x).mp hbinds)
        · rw [if_neg htier]
          refine h.budget x hx' t ((List.mem_append.mp ht).resolve_right fun hmem => ?_)
          exact htier (List.mem_singleton.mp hmem)
      · obtain rfl := Option.some.inj hs
        exact (hnext _).mpr ⟨hfeasible, (makeTierBudget_binds hnonneg _).mpr le_rfl⟩
      · cases hnone

/-- The passes minimize their tiers in order. -/
theorem RepairLadder.Reached.climbAll (hexact : ∀ m, (input.solveModel m).status = .optimal →
    (input.solveModel m).Exact m) (hwf : elastic.WellFormed) (rest : List ElasticRepairTier) :
    ∀ {tiers : List ElasticRepairTier} {ladder next : RepairLadder K}, ladder.Reached elastic tiers →
      (tiers ++ rest).Nodup → rest.foldlM (climbTier input elastic.slacks) ladder = .ok next →
      next.Reached elastic (tiers ++ rest) := by
  induction rest with
  | nil =>
    intro tiers ladder next h _ hrun
    obtain rfl := Except.ok.inj hrun
    rwa [List.append_nil]
  | cons tier rest ih =>
    intro tiers ladder next h hnodup hrun
    rw [List.foldlM_cons] at hrun
    cases hstep : climbTier input elastic.slacks ladder tier with
    | error e =>
      rw [hstep] at hrun
      cases hrun
    | ok middle =>
      rw [hstep] at hrun
      have hnew : tier ∉ tiers := fun hmem =>
        (List.nodup_cons.mp (List.nodup_middle.mp hnodup)).1 (List.mem_append_left _ hmem)
      have hsplit : tiers ++ tier :: rest = tiers ++ [tier] ++ rest := by simp
      rw [hsplit] at hnodup ⊢
      exact ih (h.climb hexact hwf hnew hstep) hnodup hrun

omit [IsStrictOrderedRing K] in
/-- A pass that is infeasible leaves nothing feasible. -/
theorem climbTier_infeasible (hexact : ∀ m, (input.solveModel m).Exact m)
    {tiers : List ElasticRepairTier} {ladder : RepairLadder K} {tier : ElasticRepairTier}
    (h : ladder.Reached elastic tiers)
    (hstep : climbTier input elastic.slacks ladder tier = .error .infeasible) :
    ¬ elastic.model.IsFeasible := by
  unfold climbTier at hstep
  split at hstep
  · cases hstep
  · dsimp only at hstep
    cases hpass : acceptPass input
        (input.solveModel (setTierObjective ladder.model elastic.slacks tier)) with
    | ok solution =>
      rw [hpass] at hstep
      cases hstep
    | error e =>
      rw [hpass] at hstep
      obtain rfl := Except.error.inj hstep
      have hnot := (hexact _).not_feasible (acceptPass_infeasible hpass).1
      rintro ⟨x, hx⟩
      cases hsolution : ladder.solution with
      | none => exact hnot ⟨x, (setTierObjective_feasible _ _ _ _).mpr (h.unsolved hsolution x hx)⟩
      | some s => exact hnot ⟨_, (setTierObjective_feasible _ _ _ _).mpr (h.solution s hsolution)⟩

theorem climbAll_infeasible (hexact : ∀ m, (input.solveModel m).Exact m) (hwf : elastic.WellFormed)
    (rest : List ElasticRepairTier) :
    ∀ {tiers : List ElasticRepairTier} {ladder : RepairLadder K}, ladder.Reached elastic tiers →
      (tiers ++ rest).Nodup →
      rest.foldlM (climbTier input elastic.slacks) ladder = .error .infeasible →
      ¬ elastic.model.IsFeasible := by
  induction rest with
  | nil =>
    intro tiers ladder _ _ hrun
    cases hrun
  | cons tier rest ih =>
    intro tiers ladder h hnodup hrun
    rw [List.foldlM_cons] at hrun
    cases hstep : climbTier input elastic.slacks ladder tier with
    | error e =>
      rw [hstep] at hrun
      obtain rfl := Except.error.inj hrun
      exact climbTier_infeasible hexact h hstep
    | ok middle =>
      rw [hstep] at hrun
      have hnew : tier ∉ tiers := fun hmem =>
        (List.nodup_cons.mp (List.nodup_middle.mp hnodup)).1 (List.mem_append_left _ hmem)
      have hsplit : tiers ++ tier :: rest = tiers ++ [tier] ++ rest := by simp
      rw [hsplit] at hnodup
      exact ih (h.climb (fun m _ => hexact m) hwf hnew hstep) hnodup hrun

/-- **Stage 1 ends among the least repairs, with both minima frozen.** -/
theorem repairLadder_ok (hexact : ∀ m, (input.solveModel m).status = .optimal →
    (input.solveModel m).Exact m) (hwf : elastic.WellFormed) {ladder : RepairLadder K}
    {stage1 : List K} (h : repairLadder input elastic = .ok (ladder, stage1)) :
    ladder.Reached elastic [.dataOffset, .editableLoosen] ∧ ladder.model.Feasible (point stage1) := by
  unfold repairLadder at h
  cases hrun : [ElasticRepairTier.dataOffset, .editableLoosen].foldlM
      (climbTier input elastic.slacks) { model := elastic.model } with
  | error e =>
    rw [hrun] at h
    cases h
  | ok last =>
    rw [hrun] at h
    have hreached := (RepairLadder.reached_nil elastic).climbAll hexact hwf _ (by decide) hrun
    dsimp only [bind, Except.bind] at h
    cases hsolution : last.solution with
    | some solution =>
      rw [hsolution] at h
      obtain ⟨rfl, rfl⟩ := Prod.mk.inj (Except.ok.inj h)
      exact ⟨hreached, hreached.solution _ hsolution⟩
    | none =>
      rw [hsolution] at h
      cases hpass : acceptPass input (input.solveModel last.model) with
      | error e =>
        rw [hpass] at h
        cases h
      | ok solution =>
        rw [hpass] at h
        obtain ⟨rfl, rfl⟩ := Prod.mk.inj (Except.ok.inj h)
        obtain ⟨hstatus, hpassed⟩ := acceptPass_ok hpass
        obtain ⟨-, hoptimal, -⟩ := (hexact _ hstatus).isOptimal hstatus
        exact ⟨hreached, hpassed ▸ hoptimal.feasible⟩

/-- Stage 1 calls a selection infeasible only when no slacks repair it. -/
theorem repairLadder_infeasible (hexact : ∀ m, (input.solveModel m).Exact m)
    (hwf : elastic.WellFormed) (h : repairLadder input elastic = .error .infeasible) :
    ¬ elastic.model.IsFeasible := by
  unfold repairLadder at h
  cases hrun : [ElasticRepairTier.dataOffset, .editableLoosen].foldlM
      (climbTier input elastic.slacks) { model := elastic.model } with
  | error e =>
    rw [hrun] at h
    obtain rfl := Except.error.inj h
    exact climbAll_infeasible hexact hwf _ (RepairLadder.reached_nil elastic) (by decide) hrun
  | ok last =>
    rw [hrun] at h
    have hreached := (RepairLadder.reached_nil elastic).climbAll (fun m _ => hexact m) hwf _
      (by decide) hrun
    dsimp only [bind, Except.bind] at h
    cases hsolution : last.solution with
    | some solution =>
      rw [hsolution] at h
      cases h
    | none =>
      rw [hsolution] at h
      cases hpass : acceptPass input (input.solveModel last.model) with
      | ok solution =>
        rw [hpass] at h
        cases h
      | error e =>
        rw [hpass] at h
        obtain rfl := Except.error.inj h
        have hnot := (hexact _).not_feasible (acceptPass_infeasible hpass).1
        exact fun ⟨x, hx⟩ => hnot ⟨x, hreached.unsolved hsolution x hx⟩

end

/-! ## Stage 2 -/

omit [LinearOrder K] in
/-- An objective is a sum over any range that holds its columns. -/
theorem eval_objective_eq_sum (columns : List (SolverColumn K)) (start n : Nat)
    (hn : columns.length ≤ n) (x : Nat → K) :
    Form.eval ((columns.zipIdx start).map fun p => (p.2, p.1.objCoeff)) x =
      ∑ i ∈ Finset.range n, (columns[i]?.map (·.objCoeff)).getD 0 * x (start + i) := by
  induction columns generalizing start n with
  | nil => simp
  | cons c columns ih =>
    obtain ⟨m, rfl⟩ : ∃ m, n = m + 1 := ⟨n - 1, by rw [List.length_cons] at hn; omega⟩
    rw [List.zipIdx_cons, List.map_cons, Form.eval_cons,
      ih (start + 1) m (Nat.le_of_succ_le_succ hn), Finset.sum_range_succ', add_comm]
    simp only [List.getElem?_cons_succ, List.getElem?_cons_zero, Option.map_some, Option.getD_some,
      Nat.add_zero, Nat.add_assoc, Nat.add_comm 1]

/-- Stage 2 keeps every budget. -/
theorem buildStage2Model_feasible (model : SolverModel K) (slacks : List (BlockSlackRef K))
    (original : SolverModel K) (budgets : List (TierBudget K)) (x : Nat → K) :
    (buildStage2Model model slacks original budgets).Feasible x ↔
      model.Feasible x ∧ ∀ budget ∈ budgets, budget.Binds slacks x := by
  have hfold : ∀ (budgets : List (TierBudget K)) (m : SolverModel K),
      (budgets.foldl (addTierBudgetRow · slacks ·) m).columns = m.columns ∧
      ((budgets.foldl (addTierBudgetRow · slacks ·) m).Feasible x ↔
        m.Feasible x ∧ ∀ budget ∈ budgets, budget.Binds slacks x) := by
    intro budgets
    induction budgets with
    | nil => exact fun m => ⟨rfl, by simp⟩
    | cons budget budgets ih =>
      intro m
      obtain ⟨hcolumns, hfeasible⟩ := ih (addTierBudgetRow m slacks budget)
      refine ⟨hcolumns.trans ?_, hfeasible.trans ?_⟩
      · unfold addTierBudgetRow
        split <;> rfl
      · rw [addTierBudgetRow_feasible, List.forall_mem_cons, and_assoc]
  obtain ⟨hcolumns, hfeasible⟩ := hfold budgets model
  have hdomain : (buildStage2Model model slacks original budgets).columns.map (·.domain) =
      (budgets.foldl (addTierBudgetRow · slacks ·) model).columns.map (·.domain) := by
    rw [hcolumns]
    refine List.ext_getElem? fun i => ?_
    rw [List.getElem?_map, List.getElem?_map]
    show (List.mapIdx _ model.columns)[i]?.map _ = _
    rw [List.getElem?_mapIdx, Option.map_map]
    cases model.columns[i]? <;> rfl
  exact (SolverModel.feasible_congr hdomain rfl rfl rfl rfl x).trans hfeasible

/-- Stage 2 has the objective of the query; the slacks are free. -/
theorem buildStage2Model_objectiveValue {model original : SolverModel K}
    (hnumVars : original.numVars ≤ model.numVars) (slacks : List (BlockSlackRef K))
    (budgets : List (TierBudget K)) (x : Nat → K) :
    (buildStage2Model model slacks original budgets).objectiveValue x = original.objectiveValue x := by
  have hlinear : (buildStage2Model model slacks original budgets).objective.eval x =
      original.objective.eval x := by
    have hlength : (buildStage2Model model slacks original budgets).columns.length ≤ model.numVars :=
      List.length_mapIdx.le
    unfold SolverModel.objective
    rw [eval_objective_eq_sum original.columns 0 model.numVars hnumVars,
      eval_objective_eq_sum _ 0 model.numVars hlength]
    refine Finset.sum_congr rfl fun i hi => ?_
    have hi' : i < model.columns.length := Finset.mem_range.mp hi
    congr 1
    show (((List.mapIdx _ model.columns)[i]?).map _).getD 0 = _
    rw [List.getElem?_mapIdx, List.getElem?_eq_getElem hi']
    rfl
  unfold SolverModel.objectiveValue
  rw [hlinear]
  rfl

/-! ## The tie-break -/

theorem rankObjective_feasible (model : SolverModel K) (slacks : List (BlockSlackRef K)) (x : Nat → K) :
    (rankObjective model slacks).Feasible x ↔ model.Feasible x := by
  have hdomain : (rankObjective model slacks).columns.map (·.domain) =
      model.columns.map (·.domain) := setObjective_domain _ _
  exact SolverModel.feasible_congr hdomain rfl rfl rfl rfl x

/-- A tie-break chooses among what its model leaves feasible and, when the objective is frozen, among
what is not worse. -/
theorem buildTieBreakModel_feasible {model tieBreak : SolverModel K} {slacks : List (BlockSlackRef K)}
    {freezeObjective : Bool} {value : K}
    (h : buildTieBreakModel model slacks freezeObjective value = some tieBreak) {x : Nat → K}
    (hx : tieBreak.Feasible x) :
    model.Feasible x ∧ (freezeObjective = true → ¬ model.Better value (model.objectiveValue x)) := by
  unfold buildTieBreakModel at h
  split at h
  · cases h
  · split at h
    · rename_i hfreeze
      dsimp only at h
      split at h
      · cases h
      · rename_i hlinear
        rw [Bool.or_eq_true, not_or] at hlinear
        obtain rfl := Option.some.inj h
        rw [rankObjective_feasible, SolverModel.feasible_append] at hx
        refine ⟨hx.1, fun _ => ?_⟩
        have hfrozen := hx.2
        have hvalue : model.objectiveValue x =
            Form.eval (model.objective.filter fun e => e.2 ≠ 0) x := by
          have hfilter := Form.eval_filter_of_zero (fun e => e.2 ≠ 0) model.objective x
            fun t _ ht => not_not.mp (of_decide_eq_false ht)
          rw [SolverModel.objectiveValue, if_neg hlinear.1, add_zero, ← hfilter]
        rw [hvalue]
        unfold SolverRow.Holds at hfrozen
        dsimp only at hfrozen
        unfold SolverModel.Better
        cases hmax : model.maximize with
        | true =>
          rw [hmax, if_pos rfl, meetsRhs_ge_fin] at hfrozen
          rw [if_pos rfl]
          exact not_lt.mpr hfrozen
        | false =>
          rw [hmax, if_neg Bool.false_ne_true, meetsRhs_le_fin] at hfrozen
          rw [if_neg Bool.false_ne_true]
          exact not_lt.mpr hfrozen
    · rename_i hfreeze
      obtain rfl := Option.some.inj h
      exact ⟨(rankObjective_feasible _ _ _).mp hx, fun ht => absurd ht hfreeze⟩

/-! ## The repair of a candidate -/

section

variable {input : InfeasibleDiagnosisInput K} {elastic : ElasticModel K}

/-- A least repair that, when stage 2 finds an optimum, attains it; no least repair is better. -/
structure AttainsOptima (elastic : ElasticModel K) (candidateModel : SolverModel K)
    (outcome : ObjectiveOutcome K) (repair : List K) : Prop where
  least : point repair ∈ leastRepairs elastic
  objective : ∀ solution value, outcome = .optimal solution value →
    candidateModel.objectiveValue (point repair) = value ∧
      ∀ y ∈ leastRepairs elastic, ¬ candidateModel.Better (candidateModel.objectiveValue y) value

variable {candidateModel : SolverModel K} {ladder : RepairLadder K} {outcome : ObjectiveOutcome K}

/-- What stage 2 optimizes over are the least repairs. -/
theorem RepairLadder.Reached.stage2_feasible
    (h : ladder.Reached elastic [.dataOffset, .editableLoosen]) (x : Nat → K) :
    (buildStage2Model elastic.model elastic.slacks candidateModel ladder.budgets).Feasible x ↔
      x ∈ leastRepairs elastic :=
  (buildStage2Model_feasible _ _ _ _ x).trans ((h.feasible x).symm.trans (h.least x))

/-- The repair the tie-break is asked to refine. -/
theorem attainsOptima_refined (hexact : ∀ m, (input.solveModel m).status = .optimal →
    (input.solveModel m).Exact m) (hnumVars : candidateModel.numVars ≤ elastic.model.numVars)
    (hladder : ladder.Reached elastic [.dataOffset, .editableLoosen]) {stage1 : List K}
    (hstage1 : ladder.model.Feasible (point stage1))
    (h : solveObjective input elastic candidateModel ladder = .ok outcome) :
    AttainsOptima elastic candidateModel outcome (outcome.refined stage1) := by
  have hleast : point stage1 ∈ leastRepairs elastic := (hladder.least _).mp hstage1
  unfold solveObjective at h
  split at h
  · obtain rfl := Except.ok.inj h
    exact ⟨hleast, fun _ _ heq => by cases heq⟩
  · dsimp only at h
    split at h
    · rename_i hstatus
      rw [Bool.and_eq_true, decide_eq_true_eq] at hstatus
      obtain rfl := Except.ok.inj h
      obtain ⟨-, hoptimal, hvalue⟩ := (hexact _ hstatus.1).isOptimal hstatus.1
      refine ⟨(hladder.stage2_feasible _).mp hoptimal.feasible, fun solution value heq => ?_⟩
      obtain ⟨rfl, rfl⟩ := ObjectiveOutcome.optimal.inj heq
      rw [hvalue, buildStage2Model_objectiveValue hnumVars]
      refine ⟨rfl, fun y hy => ?_⟩
      have hnot := hoptimal.not_better y ((hladder.stage2_feasible y).mpr hy)
      rwa [buildStage2Model_objectiveValue hnumVars,
        buildStage2Model_objectiveValue hnumVars] at hnot
    · split at h
      · obtain rfl := Except.ok.inj h
        exact ⟨hleast, fun _ _ heq => by cases heq⟩
      · cases h

omit [Field K] in
theorem eq_of_not_better {model : SolverModel K} {v w : K} (h : ¬ model.Better v w)
    (h' : ¬ model.Better w v) : v = w := by
  unfold SolverModel.Better at h h'
  split at h
  · rw [if_pos (by assumption)] at h'
    exact le_antisymm (not_lt.mp h) (not_lt.mp h')
  · rw [if_neg (by assumption)] at h'
    exact le_antisymm (not_lt.mp h') (not_lt.mp h)

/-- A tie-break that is solved loses nothing. -/
theorem attainsOptima_tieBreak (hexact : ∀ m, (input.solveModel m).status = .optimal →
    (input.solveModel m).Exact m) (hnumVars : candidateModel.numVars ≤ elastic.model.numVars)
    (hladder : ladder.Reached elastic [.dataOffset, .editableLoosen]) {repair : List K}
    (h : AttainsOptima elastic candidateModel outcome repair) {tieBreak : SolverModel K}
    (htieBreak : tieBreakModel elastic candidateModel ladder outcome = some tieBreak)
    (hstatus : (input.solveModel tieBreak).status = .optimal) :
    AttainsOptima elastic candidateModel outcome (input.solveModel tieBreak).solution := by
  obtain ⟨-, hoptimal, -⟩ := (hexact _ hstatus).isOptimal hstatus
  cases outcome with
  | absent =>
    have hfeasible := (buildTieBreakModel_feasible htieBreak hoptimal.feasible).1
    exact ⟨(hladder.least _).mp hfeasible, fun _ _ heq => by cases heq⟩
  | unbounded =>
    have hfeasible := (buildTieBreakModel_feasible htieBreak hoptimal.feasible).1
    exact ⟨(hladder.least _).mp hfeasible, fun _ _ heq => by cases heq⟩
  | optimal solution value =>
    obtain ⟨hfeasible, hfrozen⟩ := buildTieBreakModel_feasible htieBreak hoptimal.feasible
    have hleast := (hladder.stage2_feasible _).mp hfeasible
    obtain ⟨-, hbest⟩ := h.objective solution value rfl
    refine ⟨hleast, fun solution' value' heq => ?_⟩
    obtain ⟨rfl, rfl⟩ := ObjectiveOutcome.optimal.inj heq
    have hnot := hfrozen rfl
    rw [buildStage2Model_objectiveValue hnumVars] at hnot
    exact ⟨(eq_of_not_better hnot (hbest _ hleast)).symm, hbest⟩

end

/-! ## What a candidate is made of -/

/-- The model a selection leaves. -/
abbrev InfeasibleDiagnosisInput.candidateModel (input : InfeasibleDiagnosisInput K)
    (groups selection : List Nat) : SolverModel K :=
  dropRemovalGroups input.model (selectedGroups groups selection)

/-- The elastic program of a selection. -/
abbrev InfeasibleDiagnosisInput.candidateElastic (input : InfeasibleDiagnosisInput K)
    (groups selection : List Nat) : ElasticModel K :=
  buildElasticModel input.sqrt (input.candidateModel groups selection) input.foldData

theorem InfeasibleDiagnosisInput.numVars_candidateModel_le (input : InfeasibleDiagnosisInput K)
    (groups selection : List Nat) : (input.candidateModel groups selection).numVars ≤
      (input.candidateElastic groups selection).model.numVars := by
  rw [buildElasticModel_numVars]
  exact Nat.le_add_right _ _

section Display

variable [FloorRing K]

/-- What a solved selection reports. -/
structure RemovalCandidate.Reports (candidate : RemovalCandidate K) (input : InfeasibleDiagnosisInput K)
    (groups selection : List Nat) (ladder : RepairLadder K) (outcome : ObjectiveOutcome K) : Prop where
  dataCost : candidate.dataCost = budgetValue ladder.budgets .dataOffset
  editableCost : candidate.editableCost = budgetValue ladder.budgets .editableLoosen
  signature : candidate.signature = selectedGroups groups selection
  edits : ∃ snap, candidate.edits =
    readElasticEdits (input.candidateElastic groups selection).slacks candidate.repairSolution snap ++
      (selectedGroups groups selection).map .drop

variable {input : InfeasibleDiagnosisInput K} {groups selection : List Nat}

/-- A selection that passes stage 1 and stage 2 is as good as its tie-break. -/
theorem solveRemovalCandidate_of_stages {ladder : RepairLadder K} {stage1 : List K}
    {outcome : ObjectiveOutcome K}
    (hladder : repairLadder input (input.candidateElastic groups selection) = .ok (ladder, stage1))
    (houtcome : solveObjective input (input.candidateElastic groups selection)
      (input.candidateModel groups selection) ladder = .ok outcome) :
    (∀ e, breakTies input (tieBreakModel (input.candidateElastic groups selection)
        (input.candidateModel groups selection) ladder outcome) (outcome.refined stage1) = .error e →
      solveRemovalCandidate input groups selection = .error e) ∧
    ∀ repair, breakTies input (tieBreakModel (input.candidateElastic groups selection)
        (input.candidateModel groups selection) ladder outcome) (outcome.refined stage1) = .ok repair →
      ∃ candidate, solveRemovalCandidate input groups selection = .ok candidate ∧
        candidate.repairSolution = repair ∧ candidate.Reports input groups selection ladder outcome := by
  unfold solveRemovalCandidate
  dsimp only
  rw [hladder]
  change (∀ e, _ → (solveObjective input (input.candidateElastic groups selection)
    (input.candidateModel groups selection) ladder >>= _) = _) ∧ ∀ repair, _ → ∃ candidate,
    (solveObjective input (input.candidateElastic groups selection)
    (input.candidateModel groups selection) ladder >>= _) = _ ∧ _
  rw [houtcome]
  constructor
  · intro e h
    change (breakTies input (tieBreakModel (input.candidateElastic groups selection)
      (input.candidateModel groups selection) ladder outcome) (outcome.refined stage1) >>= _) = _
    rw [h]
    rfl
  · intro repair h
    change ∃ candidate, (breakTies input (tieBreakModel (input.candidateElastic groups selection)
      (input.candidateModel groups selection) ladder outcome) (outcome.refined stage1) >>= _) = _ ∧ _
    rw [h]
    exact ⟨_, rfl, rfl, rfl, rfl, rfl, _, rfl⟩

/-- A candidate went through every stage. -/
theorem solveRemovalCandidate_ok {candidate : RemovalCandidate K}
    (h : solveRemovalCandidate input groups selection = .ok candidate) :
    ∃ ladder stage1 outcome,
      repairLadder input (input.candidateElastic groups selection) = .ok (ladder, stage1) ∧
      solveObjective input (input.candidateElastic groups selection)
        (input.candidateModel groups selection) ladder = .ok outcome ∧
      breakTies input (tieBreakModel (input.candidateElastic groups selection)
        (input.candidateModel groups selection) ladder outcome) (outcome.refined stage1) =
          .ok candidate.repairSolution ∧
      candidate.Reports input groups selection ladder outcome := by
  cases hladder : repairLadder input (input.candidateElastic groups selection) with
  | error e =>
    unfold solveRemovalCandidate at h
    dsimp only at h
    rw [hladder] at h
    cases h
  | ok passed =>
    obtain ⟨ladder, stage1⟩ := passed
    cases houtcome : solveObjective input (input.candidateElastic groups selection)
        (input.candidateModel groups selection) ladder with
    | error e =>
      unfold solveRemovalCandidate at h
      dsimp only at h
      rw [hladder] at h
      change (solveObjective input (input.candidateElastic groups selection)
        (input.candidateModel groups selection) ladder >>= _) = _ at h
      rw [houtcome] at h
      cases h
    | ok outcome =>
      obtain ⟨herror, hok⟩ := solveRemovalCandidate_of_stages hladder houtcome
      cases hties : breakTies input (tieBreakModel (input.candidateElastic groups selection)
          (input.candidateModel groups selection) ladder outcome) (outcome.refined stage1) with
      | error e =>
        rw [herror e hties] at h
        cases h
      | ok repair =>
        obtain ⟨candidate', hcandidate, hrepair, hreports⟩ := hok repair hties
        obtain rfl := Except.ok.inj (h.symm.trans hcandidate)
        exact ⟨ladder, stage1, outcome, rfl, houtcome, hrepair ▸ hties, hreports⟩

/-- A selection is called infeasible by stage 1 alone. -/
theorem solveRemovalCandidate_infeasible
    (h : solveRemovalCandidate input groups selection = .error .infeasible) :
    repairLadder input (input.candidateElastic groups selection) = .error .infeasible := by
  cases hladder : repairLadder input (input.candidateElastic groups selection) with
  | error e =>
    unfold solveRemovalCandidate at h
    dsimp only at h
    rw [hladder] at h
    exact congrArg _ (Except.error.inj h)
  | ok passed =>
    obtain ⟨ladder, stage1⟩ := passed
    cases houtcome : solveObjective input (input.candidateElastic groups selection)
        (input.candidateModel groups selection) ladder with
    | error e =>
      unfold solveRemovalCandidate at h
      dsimp only at h
      rw [hladder] at h
      change (solveObjective input (input.candidateElastic groups selection)
        (input.candidateModel groups selection) ladder >>= _) = _ at h
      rw [houtcome] at h
      obtain rfl := Except.error.inj h
      -- stage 2 gives up with an abort
      unfold solveObjective at houtcome
      split at houtcome
      · cases houtcome
      · dsimp only at houtcome
        split at houtcome
        · cases houtcome
        · split at houtcome <;> cases houtcome
    | ok outcome =>
      obtain ⟨herror, hok⟩ := solveRemovalCandidate_of_stages hladder houtcome
      cases hties : breakTies input (tieBreakModel (input.candidateElastic groups selection)
          (input.candidateModel groups selection) ladder outcome) (outcome.refined stage1) with
      | error e =>
        rw [herror e hties] at h
        obtain rfl := Except.error.inj h
        unfold breakTies at hties
        split at hties
        · cases hties
        · dsimp only at hties
          split at hties <;> cases hties
      | ok repair =>
        obtain ⟨candidate', hcandidate, -⟩ := hok repair hties
        rw [hcandidate] at h
        cases h

end Display

end Decidb
