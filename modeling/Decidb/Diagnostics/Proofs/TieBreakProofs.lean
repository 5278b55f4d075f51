import Decidb.Diagnostics.Proofs.RepairSearchProofs
import Decidb.Solver.Proofs.PostSolveProofs

/-!
# What a failed tie-break costs

A tie-break only chooses among repairs that are equally good, so whatever its solve comes back with the
repair of the stages before it stands. The code takes every answer but an optimum for an abort, and an
abort ends the whole search.
-/

namespace Decidb

open Linear

variable {K : Type*} [Field K] [LinearOrder K]

omit [LinearOrder K] in
theorem setObjective_length (columns : List (SolverColumn K)) (terms : Form Nat K) :
    (setObjective columns terms).length = columns.length := by
  have h := congrArg List.length (setObjective_domain columns terms)
  rwa [List.length_map, List.length_map] at h

/-- A tie-break is over the columns of its model, and there is a slack to choose. -/
theorem buildTieBreakModel_columns {model tieBreak : SolverModel K} {slacks : List (BlockSlackRef K)}
    {freezeObjective : Bool} {value : K}
    (h : buildTieBreakModel model slacks freezeObjective value = some tieBreak) :
    tieBreak.numVars = model.numVars ∧ slacks ≠ [] := by
  unfold buildTieBreakModel at h
  split at h
  · cases h
  · rename_i hcount
    refine ⟨?_, fun hnil => hcount (by simp [hnil])⟩
    split at h
    · dsimp only at h
      split at h
      · cases h
      · obtain rfl := Option.some.inj h
        exact setObjective_length _ _
    · obtain rfl := Option.some.inj h
      exact setObjective_length _ _

/-- An optimum of a tie-break names the slacks. -/
theorem tieBreak_solution_ne_nil {input : InfeasibleDiagnosisInput K} {elastic : ElasticModel K}
    {candidateModel tieBreak : SolverModel K} {ladder : RepairLadder K} {outcome : ObjectiveOutcome K}
    (hexact : ∀ m, (input.solveModel m).status = .optimal → (input.solveModel m).Exact m)
    (hwf : elastic.WellFormed) (hladder : ladder.Reached elastic [.dataOffset, .editableLoosen])
    (h : tieBreakModel elastic candidateModel ladder outcome = some tieBreak)
    (hstatus : (input.solveModel tieBreak).status = .optimal) :
    (input.solveModel tieBreak).solution ≠ [] := by
  have hladderVars : ladder.model.numVars = elastic.model.numVars := by
    have hlength := congrArg List.length hladder.domain
    rwa [List.length_map, List.length_map] at hlength
  obtain ⟨hnumVars, hslacks⟩ : tieBreak.numVars = elastic.model.numVars ∧ elastic.slacks ≠ [] := by
    cases outcome with
    | absent =>
      obtain ⟨hnumVars, hslacks⟩ := buildTieBreakModel_columns h
      exact ⟨hnumVars.trans hladderVars, hslacks⟩
    | unbounded =>
      obtain ⟨hnumVars, hslacks⟩ := buildTieBreakModel_columns h
      exact ⟨hnumVars.trans hladderVars, hslacks⟩
    | optimal solution value =>
      obtain ⟨hnumVars, hslacks⟩ := buildTieBreakModel_columns h
      exact ⟨hnumVars.trans List.length_mapIdx, hslacks⟩
  obtain ⟨block, hblock⟩ := List.exists_mem_of_ne_nil _ hslacks
  have hlt := hwf.lt_numVars block.posCol
    (List.mem_flatMap.mpr ⟨block, hblock, List.mem_cons_self⟩)
  obtain ⟨hlength, -⟩ := (hexact _ hstatus).isOptimal hstatus
  intro hnil
  rw [hnil, List.length_nil, hnumVars] at hlength
  omega

section Display

variable [FloorRing K]

/-- The repair the stages before the tie-break found is not lost: the candidate is feasible, its repair
attains what they found, it is their repair where the tie-break finds no optimum, and the search goes on. -/
structure TieBreakHarmless (input : InfeasibleDiagnosisInput K) (groups selection : List Nat)
    (ladder : RepairLadder K) (stage1 : List K) (outcome : ObjectiveOutcome K) : Prop where
  candidate : ∃ candidate, solveRemovalCandidate input groups selection = .ok candidate ∧
    AttainsOptima (input.candidateElastic groups selection) (input.candidateModel groups selection)
      outcome candidate.repairSolution ∧
    ∀ tieBreak, tieBreakModel (input.candidateElastic groups selection)
        (input.candidateModel groups selection) ladder outcome = some tieBreak →
      (input.solveModel tieBreak).status ≠ .optimal →
        candidate.repairSolution = outcome.refined stage1
  continues : ∀ state, (examine input groups state selection).2 = true ∧
    (examine input groups state selection).1.aborted = state.aborted

theorem examine_of_ok {input : InfeasibleDiagnosisInput K} {groups selection : List Nat}
    {candidate : RemovalCandidate K} (h : solveRemovalCandidate input groups selection = .ok candidate)
    (state : SearchState K) : (examine input groups state selection).2 = true ∧
      (examine input groups state selection).1.aborted = state.aborted := by
  unfold examine
  rw [h]
  dsimp only
  split
  · exact ⟨rfl, rfl⟩
  · split <;> exact ⟨rfl, rfl⟩

/-- **A candidate keeps its repair exactly when no tie-break is built for it or the one built is solved to
optimality.** -/
theorem tieBreakHarmless_iff [IsStrictOrderedRing K] (input : InfeasibleDiagnosisInput K)
    (hexact : ∀ m, (input.solveModel m).status = .optimal → (input.solveModel m).Exact m)
    (groups selection : List Nat) (ladder : RepairLadder K) (stage1 : List K)
    (outcome : ObjectiveOutcome K)
    (hladder : repairLadder input (input.candidateElastic groups selection) = .ok (ladder, stage1))
    (houtcome : solveObjective input (input.candidateElastic groups selection)
      (input.candidateModel groups selection) ladder = .ok outcome) :
    TieBreakHarmless input groups selection ladder stage1 outcome ↔
      ∀ tieBreak, tieBreakModel (input.candidateElastic groups selection)
          (input.candidateModel groups selection) ladder outcome = some tieBreak →
        (input.solveModel tieBreak).status = .optimal := by
  have hwf := buildElasticModel_wellFormed input.sqrt (input.candidateModel groups selection)
    input.foldData
  have hnumVars := input.numVars_candidateModel_le groups selection
  obtain ⟨hreached, hstage1⟩ := repairLadder_ok hexact hwf hladder
  have hrefined := attainsOptima_refined hexact hnumVars hreached hstage1 houtcome
  obtain ⟨herror, hok⟩ := solveRemovalCandidate_of_stages hladder houtcome
  constructor
  · intro h tieBreak htieBreak
    by_contra hstatus
    have hbreak : breakTies input (some tieBreak) (outcome.refined stage1) = .error .abort :=
      if_pos (by simp [hstatus])
    obtain ⟨candidate, hcandidate, -⟩ := h.candidate
    rw [← htieBreak] at hbreak
    rw [herror _ hbreak] at hcandidate
    cases hcandidate
  · intro h
    cases htieBreak : tieBreakModel (input.candidateElastic groups selection)
        (input.candidateModel groups selection) ladder outcome with
    | none =>
      obtain ⟨candidate, hcandidate, hrepair, -⟩ := hok _ (by rw [htieBreak]; rfl)
      exact ⟨⟨candidate, hcandidate, hrepair ▸ hrefined, fun tieBreak heq => by
        rw [htieBreak] at heq; cases heq⟩, examine_of_ok hcandidate⟩
    | some tieBreak =>
      have hstatus := h tieBreak htieBreak
      have hsolution := tieBreak_solution_ne_nil hexact hwf hreached htieBreak hstatus
      have hbreak : breakTies input (some tieBreak) (outcome.refined stage1) =
          .ok (input.solveModel tieBreak).solution := if_neg (by simp [hstatus, hsolution])
      rw [← htieBreak] at hbreak
      obtain ⟨candidate, hcandidate, hrepair, -⟩ := hok _ hbreak
      refine ⟨⟨candidate, hcandidate, ?_, fun other hother hne => absurd (h other hother) hne⟩,
        examine_of_ok hcandidate⟩
      rw [hrepair]
      exact attainsOptima_tieBreak hexact hnumVars hreached hrefined htieBreak hstatus

end Display

/-! ## Two bounds that cannot both hold -/

/-- `SUM(x) >= 5 AND SUM(x) <= 3` over one row, without an objective. -/
def conflictModel : SolverModel ℚ where
  columns := [{ lower := 0, upper := openBound, objCoeff := 0 }]
  constraints :=
    [{ form := [(0, 1)], sense := .ge, rhs := .fin 5
       provenance := { sourceClauseId := some 0, repairGroupId := some 0, shape := .sharedScalar } },
     { form := [(0, 1)], sense := .le, rhs := .fin 3
       provenance := { sourceClauseId := some 1, repairGroupId := some 1, shape := .sharedScalar } }]

theorem conflictModel_wellScoped : conflictModel.WellScoped := by
  refine ⟨?_, ?_, ?_, ?_⟩ <;> simp [conflictModel, SolverModel.numVars]

theorem conflictModel_not_feasible : ¬ conflictModel.IsFeasible := by
  rintro ⟨x, hx⟩
  have hfloor := hx.constraints _ List.mem_cons_self
  have hcap := hx.constraints _ (List.mem_cons_of_mem _ List.mem_cons_self)
  simp only [SolverRow.Holds, meetsRhs_ge_fin, meetsRhs_le_fin, Form.eval_cons, Form.eval_nil]
    at hfloor hcap
  linarith

/-- The one pass of stage 1: a slack for each bound. -/
def conflictPass : SolverModel ℚ where
  columns := [{ lower := 0, upper := openBound, objCoeff := 0 }, { slackColumn with objCoeff := 1 },
    { slackColumn with objCoeff := 1 }]
  constraints :=
    [{ form := [(0, 1), (1, 1)], sense := .ge, rhs := .fin 5
       provenance := { sourceClauseId := some 0, repairGroupId := some 0, shape := .sharedScalar } },
     { form := [(0, 1), (2, -1)], sense := .le, rhs := .fin 3
       provenance := { sourceClauseId := some 1, repairGroupId := some 1, shape := .sharedScalar } }]

/-- Two units have to be given. -/
theorem conflictPass_isOptimal : conflictPass.IsOptimal (point [3, 2, 0]) := by
  have hobjective : ∀ x : Nat → ℚ, conflictPass.objectiveValue x = x 1 + x 2 := by
    intro x
    simp [SolverModel.objectiveValue, SolverModel.objective, conflictPass]
  refine ⟨SolverModel.feasible_point (by decide +kernel) (by decide +kernel) ⟨rfl, rfl, rfl⟩,
    fun y hy => ?_⟩
  have hfloor := hy.constraints _ List.mem_cons_self
  have hcap := hy.constraints _ (List.mem_cons_of_mem _ List.mem_cons_self)
  simp only [SolverRow.Holds, meetsRhs_ge_fin, meetsRhs_le_fin, Form.eval_cons, Form.eval_nil]
    at hfloor hcap
  rw [hobjective, hobjective]
  have hvalue : point [3, 2, 0] 1 + point [3, 2, 0] 2 = (2 : ℚ) := by decide +kernel
  rw [hvalue]
  show ¬ y 1 + y 2 < 2
  linarith

/-- A solver that solves the pass and nothing else: the tie-break comes back without a verdict. -/
def conflictInput : InfeasibleDiagnosisInput ℚ where
  model := conflictModel
  wellScoped := conflictModel_wellScoped
  solveModel := answering conflictPass
    { status := .optimal, solution := [3, 2, 0]
      objectiveValue := conflictPass.objectiveValue (point [3, 2, 0]) }
  -- every norm of this model is one
  sqrt := fun v => v

theorem conflictInput_exact (m : SolverModel ℚ) : (conflictInput.solveModel m).Exact m :=
  answering_exact (.of_optimal rfl conflictPass_isOptimal) m

/-- What stage 1 ends with. -/
def conflictLadder : RepairLadder ℚ where
  model := addTierBudgetRow conflictPass
    (conflictInput.candidateElastic [] []).slacks { tier := .editableLoosen, value := 2, active := true }
  budgets := [{ tier := .editableLoosen, value := 2, active := true }]
  solution := some [3, 2, 0]

theorem conflictLadder_eq : repairLadder conflictInput (conflictInput.candidateElastic [] []) =
    .ok (conflictLadder, [3, 2, 0]) := by
  decide +kernel

theorem conflictLadder_objective : solveObjective conflictInput (conflictInput.candidateElastic [] [])
    (conflictInput.candidateModel [] []) conflictLadder = .ok .absent :=
  if_pos (by decide +kernel)

theorem tieBreakHarmless_conflict :
    TieBreakHarmless conflictInput [] [] conflictLadder [3, 2, 0] .absent ↔
      ∀ tieBreak, tieBreakModel (conflictInput.candidateElastic [] [])
          (conflictInput.candidateModel [] []) conflictLadder .absent = some tieBreak →
        (conflictInput.solveModel tieBreak).status = .optimal :=
  tieBreakHarmless_iff conflictInput (fun m _ => conflictInput_exact m) [] [] conflictLadder [3, 2, 0]
    .absent conflictLadder_eq conflictLadder_objective

/-- A repair of two units is found, and the tie-break between its two forms loses it. -/
theorem not_tieBreakHarmless : ¬ ∀ input : InfeasibleDiagnosisInput ℚ, ¬ input.model.IsFeasible →
    (∀ m, (input.solveModel m).status = .optimal → (input.solveModel m).Exact m) →
    ∀ groups selection ladder stage1 outcome,
      repairLadder input (input.candidateElastic groups selection) = .ok (ladder, stage1) →
      solveObjective input (input.candidateElastic groups selection)
        (input.candidateModel groups selection) ladder = .ok outcome →
      TieBreakHarmless input groups selection ladder stage1 outcome := by
  intro h
  obtain ⟨candidate, hcandidate, -⟩ := (h conflictInput conflictModel_not_feasible
    (fun m _ => conflictInput_exact m) [] [] conflictLadder [3, 2, 0] .absent conflictLadder_eq
    conflictLadder_objective).candidate
  have hlost : (solveRemovalCandidate conflictInput [] []).toOption.isSome = false := by
    decide +kernel
  rw [hcandidate] at hlost
  cases hlost

end Decidb
