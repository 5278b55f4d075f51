import Decidb.Diagnostics.Proofs.DisplayProofs
import Decidb.Diagnostics.Proofs.RepairSearchProofs
import Decidb.Solver.Proofs.PostSolveProofs

/-!
# What a diagnosis promises

A repair drops some removal groups and loosens the bounds of the blocks that are left. The search tries
the selections of no group, of one, of two, each once, and reports a repair with the fewest drops; the
repairs of one selection are compared exactly, those of different selections at display precision.
-/

namespace Decidb

open Linear Relational

variable {K : Type*} [Field K] [LinearOrder K]

/-! ## Repairs that drop groups -/

/-- The elastic program once some groups are dropped. -/
abbrev removalElastic (input : InfeasibleDiagnosisInput K) (dropped : List Nat) : ElasticModel K :=
  buildElasticModel input.sqrt (dropRemovalGroups input.model dropped) input.foldData

/-- Dropping some groups and loosening what is left by some amounts makes the model feasible. -/
def IsRemovalRepair (input : InfeasibleDiagnosisInput K) (dropped : List Nat)
    (amounts : RepairAmounts K) : Prop :=
  (dropRemovalGroups input.model dropped).IsRepair (removalElastic input dropped).slacks amounts

/-- What a repair pays in a tier. -/
def removalCost (input : InfeasibleDiagnosisInput K) (dropped : List Nat) (tier : ElasticRepairTier)
    (amounts : RepairAmounts K) : K :=
  tierTotal (removalElastic input dropped).slacks tier amounts

/-- What a solution spends. -/
def solvedAmounts (input : InfeasibleDiagnosisInput K) (dropped : List Nat) (solution : List K) :
    RepairAmounts K :=
  amountsAt (removalElastic input dropped).slacks (point solution)

/-! ## Dropping by membership -/

omit [Field K] [LinearOrder K] in
theorem mem_collectRemovalGroups {model : SolverModel K} {id : Nat} :
    id ∈ collectRemovalGroups model ↔
      (∃ row ∈ model.constraints, row.provenance.removalGroupId = some id) ∨
      (∃ row ∈ model.quadraticConstraints, row.provenance.removalGroupId = some id) ∨
      (∃ row ∈ model.indicatorConstraints, row.provenance.removalGroupId = some id) ∨
      ∃ row ∈ model.generalConstraints, row.provenance.removalGroupId = some id := by
  unfold collectRemovalGroups
  rw [List.mem_mergeSort, List.mem_dedup]
  simp only [List.mem_append, List.mem_filterMap, or_assoc]

omit [Field K] [LinearOrder K] in
theorem nodup_collectRemovalGroups (model : SolverModel K) : (collectRemovalGroups model).Nodup :=
  (List.mergeSort_perm _ _).nodup_iff.mpr (List.nodup_dedup _)

theorem isRetained_congr {ids ids' : List Nat} {p : ConstraintProvenance}
    (h : ∀ id, p.removalGroupId = some id → (id ∈ ids ↔ id ∈ ids')) :
    p.isRetained ids = p.isRetained ids' := by
  unfold ConstraintProvenance.isRetained
  cases hid : p.removalGroupId with
  | none => rfl
  | some id =>
    dsimp only
    rw [Bool.eq_iff_iff, Bool.not_eq_true', Bool.not_eq_true', ← Bool.not_eq_true,
      ← Bool.not_eq_true, List.contains_iff_mem, List.contains_iff_mem, h id hid]

/-- Only the groups of the model matter. -/
theorem dropRemovalGroups_congr {model : SolverModel K} {ids ids' : List Nat}
    (h : ∀ id ∈ collectRemovalGroups model, id ∈ ids ↔ id ∈ ids') :
    dropRemovalGroups model ids = dropRemovalGroups model ids' := by
  have hlinear : (model.constraints.filter fun row => row.provenance.isRetained ids) =
      model.constraints.filter fun row => row.provenance.isRetained ids' :=
    List.filter_congr fun row hrow => isRetained_congr fun id hid =>
      h id (mem_collectRemovalGroups.mpr (Or.inl ⟨row, hrow, hid⟩))
  have hquad : (model.quadraticConstraints.filter fun row => row.provenance.isRetained ids) =
      model.quadraticConstraints.filter fun row => row.provenance.isRetained ids' :=
    List.filter_congr fun row hrow => isRetained_congr fun id hid =>
      h id (mem_collectRemovalGroups.mpr (Or.inr (Or.inl ⟨row, hrow, hid⟩)))
  have hind : (model.indicatorConstraints.filter fun row => row.provenance.isRetained ids) =
      model.indicatorConstraints.filter fun row => row.provenance.isRetained ids' :=
    List.filter_congr fun row hrow => isRetained_congr fun id hid =>
      h id (mem_collectRemovalGroups.mpr (Or.inr (Or.inr (Or.inl ⟨row, hrow, hid⟩))))
  have hgen : (model.generalConstraints.filter fun row => row.provenance.isRetained ids) =
      model.generalConstraints.filter fun row => row.provenance.isRetained ids' :=
    List.filter_congr fun row hrow => isRetained_congr fun id hid =>
      h id (mem_collectRemovalGroups.mpr (Or.inr (Or.inr (Or.inr ⟨row, hrow, hid⟩))))
  unfold dropRemovalGroups
  rw [hlinear, hquad, hind, hgen]

/-- The groups of a model among some ids. -/
def knownGroups (groups dropped : List Nat) : List Nat := groups.filter fun id => dropped.contains id

theorem dropRemovalGroups_knownGroups (model : SolverModel K) (dropped : List Nat) :
    dropRemovalGroups model dropped =
      dropRemovalGroups model (knownGroups (collectRemovalGroups model) dropped) := by
  refine dropRemovalGroups_congr fun id hid => ?_
  unfold knownGroups
  rw [List.mem_filter, List.contains_iff_mem]
  exact ⟨fun h => ⟨hid, h⟩, fun h => h.2⟩

theorem length_knownGroups_le {groups : List Nat} (h : groups.Nodup) (dropped : List Nat) :
    (knownGroups groups dropped).length ≤ dropped.length := by
  have hsub : knownGroups groups dropped ⊆ dropped := fun id hid =>
    List.contains_iff_mem.mp (List.mem_filter.mp hid).2
  exact ((h.filter _).subperm hsub).length_le

/-- The positions of some of the groups. -/
def positionsOf (groups dropped : List Nat) : List Nat :=
  (groups.zipIdx.filter fun q => dropped.contains q.1).map (·.2)

theorem selectedGroups_positionsOf (groups dropped : List Nat) :
    selectedGroups groups (positionsOf groups dropped) = knownGroups groups dropped := by
  unfold selectedGroups positionsOf knownGroups
  rw [List.filterMap_map]
  have hget : ∀ q ∈ groups.zipIdx.filter fun q => dropped.contains q.1,
      ((groups[·]?) ∘ Prod.snd) q = some q.1 := fun q hq =>
    List.mem_zipIdx_iff_getElem?.mp (List.mem_filter.mp hq).1
  rw [List.filterMap_congr hget, List.filterMap_eq_map',
    map_filter_zipIdx groups (fun id => dropped.contains id) fun id => id, List.map_id']

/-- Every set of groups of the model is the selection of one combination. -/
theorem positionsOf_mem_combinations (groups dropped : List Nat) :
    positionsOf groups dropped ∈
      combinations (knownGroups groups dropped).length groups.length 0 [] := by
  have hsub : (positionsOf groups dropped).Sublist (List.range' 0 groups.length) := by
    rw [← List.zipIdx_map_snd]
    exact List.filter_sublist.map _
  refine mem_combinations_range.mpr ⟨?_, ?_, fun i hi => ?_⟩
  · exact (List.pairwise_lt_range' (s := 0) (n := groups.length)).sublist hsub
  · have hmap := map_filter_zipIdx groups (fun id => dropped.contains id) fun id => id
    have hlength := congrArg List.length hmap
    simpa [positionsOf, knownGroups] using hlength
  · have := List.mem_range'_1.mp (hsub.subset hi)
    omega

theorem length_selectedGroups {groups selection : List Nat} (h : ∀ i ∈ selection, i < groups.length) :
    (selectedGroups groups selection).length = selection.length := by
  unfold selectedGroups
  induction selection with
  | nil => rfl
  | cons i selection ih =>
    have hi := List.getElem?_eq_getElem (h i List.mem_cons_self)
    rw [List.filterMap_cons_some hi, List.length_cons, List.length_cons,
      ih fun j hj => h j (List.mem_cons_of_mem _ hj)]

/-! ## One selection -/

/-- A repair pays what an assignment of the elastic program pays, and conversely. -/
theorem tierValue_removalElastic (input : InfeasibleDiagnosisInput K) (dropped : List Nat)
    (tier : ElasticRepairTier) (x : Nat → K) :
    tierValue (removalElastic input dropped).slacks tier x =
      removalCost input dropped tier (amountsAt (removalElastic input dropped).slacks x) :=
  tierValue_buildElasticModel _ _ _ tier x

section Display

variable [IsStrictOrderedRing K] [FloorRing K]

/-- A block is named exactly when its amount clears the noise floor. -/
theorem loosen_mem_readElasticEdits {slacks : List (BlockSlackRef K)} {solution : List K} {snap : Bool}
    {block : BlockSlackRef K} :
    (∃ amount, ClauseEdit.loosen block amount ∈ readElasticEdits slacks solution snap) ↔
      block ∈ slacks ∧ editFloor < |blockAmount block solution| := by
  constructor
  · rintro ⟨amount, h⟩
    obtain ⟨other, hother, hedit⟩ := List.mem_filterMap.mp h
    dsimp only at hedit
    split at hedit
    · cases hedit
    · rename_i hfloor
      have hblock : other = block := by
        split at hedit
        · cases hedit
        · split at hedit
          · exact (ClauseEdit.loosen.inj (Option.some.inj hedit)).1
          · split at hedit
            · cases hedit
            · exact (ClauseEdit.loosen.inj (Option.some.inj hedit)).1
      exact ⟨hblock ▸ hother, hblock ▸ not_le.mp hfloor⟩
  · rintro ⟨hblock, hfloor⟩
    have hprecise : editFloor < |snapToPrecision (blockAmount block solution)| :=
      hfloor.trans_le (abs_le_abs_snapToPrecision _)
    have hshown := diagnosticRayEpsilon_lt_snap hprecise
    cases snap with
    | true =>
      refine ⟨snapDiagnosticValue (snapToPrecision (blockAmount block solution)),
        List.mem_filterMap.mpr ⟨block, hblock, ?_⟩⟩
      dsimp only
      rw [if_neg (not_le.mpr hfloor), if_neg (not_le.mpr hprecise), Bool.not_true,
        if_neg Bool.false_ne_true, if_neg (not_le.mpr hshown)]
    | false =>
      refine ⟨snapToPrecision (blockAmount block solution),
        List.mem_filterMap.mpr ⟨block, hblock, ?_⟩⟩
      dsimp only
      rw [if_neg (not_le.mpr hfloor), if_neg (not_le.mpr hprecise), Bool.not_false, if_pos rfl]

omit [IsStrictOrderedRing K] in
theorem drop_notMem_readElasticEdits (slacks : List (BlockSlackRef K)) (solution : List K) (snap : Bool)
    (id : Nat) : ClauseEdit.drop id ∉ readElasticEdits slacks solution snap := by
  intro h
  obtain ⟨block, -, hedit⟩ := List.mem_filterMap.mp h
  dsimp only at hedit
  split at hedit
  · cases hedit
  · split at hedit
    · cases hedit
    · split at hedit
      · cases Option.some.inj hedit
      · split at hedit
        · cases hedit
        · cases Option.some.inj hedit

/-- What a candidate promises about its own selection: the slacks solved for are a repair, which costs
least in the data tier and, among those, in the editable tier; the blocks named are those whose amount
clears the noise floor. -/
structure RemovalCandidate.IsLeast (candidate : RemovalCandidate K) (input : InfeasibleDiagnosisInput K)
    (dropped : List Nat) : Prop where
  signature : candidate.signature = dropped
  isRepair : IsRemovalRepair input dropped (solvedAmounts input dropped candidate.repairSolution)
  dataCost : candidate.dataCost =
    removalCost input dropped .dataOffset (solvedAmounts input dropped candidate.repairSolution)
  editableCost : candidate.editableCost =
    removalCost input dropped .editableLoosen (solvedAmounts input dropped candidate.repairSolution)
  data_le : ∀ amounts, IsRemovalRepair input dropped amounts →
    candidate.dataCost ≤ removalCost input dropped .dataOffset amounts
  editable_le : ∀ amounts, IsRemovalRepair input dropped amounts →
    removalCost input dropped .dataOffset amounts ≤ candidate.dataCost →
      candidate.editableCost ≤ removalCost input dropped .editableLoosen amounts
  named : ∀ block ∈ (removalElastic input dropped).slacks,
    (∃ amount, ClauseEdit.loosen block amount ∈ candidate.edits) ↔
      editFloor < |blockAmount block candidate.repairSolution|
  drops : ∀ id, ClauseEdit.drop id ∈ candidate.edits ↔ id ∈ dropped

variable {input : InfeasibleDiagnosisInput K}

/-- **A selection that is solved is repaired as cheaply as can be.** -/
theorem solveRemovalCandidate_isLeast (hexact : ∀ m, (input.solveModel m).Exact m)
    (huniform : input.model.BlocksUniform input.foldData) {groups selection : List Nat}
    {candidate : RemovalCandidate K}
    (h : solveRemovalCandidate input groups selection = .ok candidate) :
    candidate.IsLeast input (selectedGroups groups selection) := by
  obtain ⟨ladder, stage1, outcome, hladder, houtcome, hties, hreports⟩ := solveRemovalCandidate_ok h
  have hoptimal : ∀ m, (input.solveModel m).status = .optimal → (input.solveModel m).Exact m :=
    fun m _ => hexact m
  have hwf := buildElasticModel_wellFormed input.sqrt (input.candidateModel groups selection)
    input.foldData
  have hnumVars := input.numVars_candidateModel_le groups selection
  have hblocks := huniform.dropRemovalGroups (selectedGroups groups selection)
  have hscoped := input.wellScoped.dropRemovalGroups (selectedGroups groups selection)
  obtain ⟨hreached, hstage1⟩ := repairLadder_ok hoptimal hwf hladder
  have hrefined := attainsOptima_refined hoptimal hnumVars hreached hstage1 houtcome
  have hattains : AttainsOptima (input.candidateElastic groups selection)
      (input.candidateModel groups selection) outcome candidate.repairSolution := by
    unfold breakTies at hties
    split at hties
    · obtain hrepair := Except.ok.inj hties
      exact hrepair ▸ hrefined
    · rename_i tieBreak htieBreak
      dsimp only at hties
      split at hties
      · cases hties
      · rename_i hstatus
        rw [Bool.or_eq_true, not_or] at hstatus
        have hrepair := Except.ok.inj hties
        rw [← hrepair]
        exact attainsOptima_tieBreak hoptimal hnumVars hreached hrefined htieBreak
          (by simpa using hstatus.1)
  have hleast := hattains.least
  obtain ⟨hfeasible, hdata, heditable⟩ := mem_lexLeast_pair.mp hleast
  have hbudget := hreached.budget _ ((hreached.least _).mpr hleast)
  have hdataCost : candidate.dataCost = tierValue
      (removalElastic input (selectedGroups groups selection)).slacks .dataOffset
      (point candidate.repairSolution) :=
    hreports.dataCost.trans (hbudget .dataOffset (by decide))
  have heditableCost : candidate.editableCost = tierValue
      (removalElastic input (selectedGroups groups selection)).slacks .editableLoosen
      (point candidate.repairSolution) :=
    hreports.editableCost.trans (hbudget .editableLoosen (by decide))
  obtain ⟨snap, hedits⟩ := hreports.edits
  refine ⟨hreports.signature, isRepair_of_feasible hblocks hfeasible,
    hdataCost.trans (tierValue_removalElastic _ _ _ _),
    heditableCost.trans (tierValue_removalElastic _ _ _ _), fun amounts hrepair => ?_,
    fun amounts hrepair hle => ?_, fun block hblock => ?_, fun id => ?_⟩
  · obtain ⟨x, hx, hcost⟩ := hrepair.exists_feasible hblocks hscoped
    have := hdata x hx
    rw [hdataCost]
    refine this.trans_eq ?_
    rw [tierValue_removalElastic]
    exact hcost .dataOffset
  · obtain ⟨x, hx, hcost⟩ := hrepair.exists_feasible hblocks hscoped
    have hxdata : tierValue (removalElastic input (selectedGroups groups selection)).slacks .dataOffset
        x = removalCost input (selectedGroups groups selection) .dataOffset amounts := by
      rw [tierValue_removalElastic]
      exact hcost .dataOffset
    rw [hdataCost, ← hxdata] at hle
    rw [heditableCost]
    refine (heditable x hx hle).trans_eq ?_
    rw [tierValue_removalElastic]
    exact hcost .editableLoosen
  · rw [hedits]
    have hdrop : ∀ amount, ClauseEdit.loosen block amount ∉
        (selectedGroups groups selection).map ClauseEdit.drop := by
      intro amount hmem
      obtain ⟨id, -, heq⟩ := List.mem_map.mp hmem
      cases heq
    simp only [List.mem_append, hdrop, or_false]
    exact loosen_mem_readElasticEdits.trans (and_iff_right hblock)
  · rw [hedits, List.mem_append]
    constructor
    · rintro (hmem | hmem)
      · exact absurd hmem (drop_notMem_readElasticEdits _ _ _ _)
      · obtain ⟨id', hid, heq⟩ := List.mem_map.mp hmem
        exact (ClauseEdit.drop.inj heq) ▸ hid
    · exact fun hid => Or.inr (List.mem_map_of_mem hid)

/-- A selection called infeasible has no repair. -/
theorem solveRemovalCandidate_no_repair (hexact : ∀ m, (input.solveModel m).Exact m)
    (huniform : input.model.BlocksUniform input.foldData) {groups selection : List Nat}
    (h : solveRemovalCandidate input groups selection = .error .infeasible)
    (amounts : RepairAmounts K) :
    ¬ IsRemovalRepair input (selectedGroups groups selection) amounts := by
  have hwf := buildElasticModel_wellFormed input.sqrt (input.candidateModel groups selection)
    input.foldData
  have hnot := repairLadder_infeasible hexact hwf (solveRemovalCandidate_infeasible h)
  intro hrepair
  obtain ⟨x, hx, -⟩ := hrepair.exists_feasible
    (huniform.dropRemovalGroups (selectedGroups groups selection))
    (input.wellScoped.dropRemovalGroups (selectedGroups groups selection))
  exact hnot ⟨x, hx⟩

/-! ## One layer -/

/-- What two candidates are compared by before their objectives. -/
def displayedCost (candidate : RemovalCandidate K) : K ×ₗ K :=
  toLex (snapDiagnosticValue candidate.dataCost, snapDiagnosticValue candidate.editableCost)

omit [IsStrictOrderedRing K] in
/-- A better candidate is displayed no dearer, and one that is not better no cheaper. -/
theorem betterCandidate_displayedCost (lhs rhs : RemovalCandidate K) (maximize : Bool) :
    if betterCandidate lhs rhs maximize then displayedCost lhs ≤ displayedCost rhs
    else displayedCost rhs ≤ displayedCost lhs := by
  unfold displayedCost
  rw [Prod.Lex.toLex_le_toLex, Prod.Lex.toLex_le_toLex]
  unfold betterCandidate compareDisplayed
  rcases lt_trichotomy (snapDiagnosticValue lhs.dataCost) (snapDiagnosticValue rhs.dataCost)
    with hdata | hdata | hdata
  · rw [(cmp_eq_lt_iff _ _).mpr hdata]
    exact Or.inl hdata
  · rw [(cmp_eq_eq_iff _ _).mpr hdata]
    rcases lt_trichotomy (snapDiagnosticValue lhs.editableCost)
      (snapDiagnosticValue rhs.editableCost) with heditable | heditable | heditable
    · rw [(cmp_eq_lt_iff _ _).mpr heditable]
      exact Or.inr ⟨hdata, heditable.le⟩
    · rw [(cmp_eq_eq_iff _ _).mpr heditable]
      -- a tie is decided by what is not compared here
      have htie : ∀ {P Q : Prop} (b : Bool), P → Q → if b = true then P else Q := by
        intro P Q b hP hQ
        cases b
        · exact hQ
        · exact hP
      refine htie _ ?_ ?_
      · exact Or.inr ⟨hdata, heditable.le⟩
      · exact Or.inr ⟨hdata.symm, heditable.ge⟩
    · rw [(cmp_eq_gt_iff _ _).mpr heditable]
      exact Or.inr ⟨hdata.symm, heditable.le⟩
  · rw [(cmp_eq_gt_iff _ _).mpr hdata]
    exact Or.inl hdata

/-- What a layer knows once some selections are examined. -/
structure Examined (input : InfeasibleDiagnosisInput K) (groups : List Nat)
    (selections : List (List Nat)) (state : SearchState K) : Prop where
  all_infeasible : state.best = none → ∀ selection ∈ selections,
    solveRemovalCandidate input groups selection = .error .infeasible
  not_abort : ∀ selection ∈ selections,
    solveRemovalCandidate input groups selection ≠ .error .abort
  best_le : ∀ best, state.best = some best →
    (∃ selection ∈ selections, solveRemovalCandidate input groups selection = .ok best) ∧
    ∀ selection ∈ selections, ∀ candidate,
      solveRemovalCandidate input groups selection = .ok candidate →
        displayedCost best ≤ displayedCost candidate

omit [IsStrictOrderedRing K] in
/-- One more selection, unless it ends the search. -/
theorem Examined.examine {groups : List Nat} {selections : List (List Nat)} {state : SearchState K}
    (h : Examined input groups selections state) (hstate : state.aborted = false)
    (selection : List Nat) :
    ((examine input groups state selection).2 = false ∧
      (examine input groups state selection).1.aborted = true) ∨
    ((examine input groups state selection).2 = true ∧
      (examine input groups state selection).1.aborted = false ∧
      Examined input groups (selections ++ [selection]) (examine input groups state selection).1) := by
  unfold Decidb.examine
  cases hsolve : solveRemovalCandidate input groups selection with
  | error e =>
    cases e with
    | abort => exact Or.inl ⟨rfl, rfl⟩
    | infeasible =>
      refine Or.inr ⟨rfl, hstate, fun hnone => ?_, ?_, fun best hbest => ?_⟩
      · rw [List.forall_mem_append, List.forall_mem_singleton]
        exact ⟨h.all_infeasible hnone, hsolve⟩
      · rw [List.forall_mem_append, List.forall_mem_singleton]
        exact ⟨h.not_abort, by rw [hsolve]; exact fun heq => by cases heq⟩
      · obtain ⟨⟨found, hfound, hok⟩, hle⟩ := h.best_le best hbest
        refine ⟨⟨found, List.mem_append_left _ hfound, hok⟩, ?_⟩
        rw [List.forall_mem_append, List.forall_mem_singleton]
        exact ⟨hle, fun candidate hcandidate => by rw [hsolve] at hcandidate; cases hcandidate⟩
  | ok candidate =>
    have hnot : ∀ other ∈ selections ++ [selection],
        solveRemovalCandidate input groups other ≠ .error .abort := by
      rw [List.forall_mem_append, List.forall_mem_singleton]
      exact ⟨h.not_abort, by rw [hsolve]; exact fun heq => by cases heq⟩
    have hlast : ∀ other, solveRemovalCandidate input groups selection = .ok other →
        other = candidate := fun other hother => Except.ok.inj (hother.symm.trans hsolve)
    have hmem : selection ∈ selections ++ [selection] :=
      List.mem_append_right _ (List.mem_singleton.mpr rfl)
    dsimp only
    cases hbest : state.best with
    | none =>
      refine Or.inr ⟨rfl, hstate, fun hnone => (by cases hnone), hnot, fun best hsome => ?_⟩
      obtain rfl := Option.some.inj hsome
      refine ⟨⟨selection, hmem, hsolve⟩, ?_⟩
      rw [List.forall_mem_append, List.forall_mem_singleton]
      refine ⟨fun other hother c hc => ?_, fun c hc => (hlast c hc ▸ le_rfl)⟩
      rw [h.all_infeasible hbest other hother] at hc
      cases hc
    | some best =>
      dsimp only
      obtain ⟨⟨found, hfound, hok⟩, hle⟩ := h.best_le best hbest
      have hcompare := betterCandidate_displayedCost candidate best input.model.maximize
      split
      · rename_i hbetter
        rw [if_pos hbetter] at hcompare
        refine Or.inr ⟨rfl, hstate, fun hnone => (by cases hnone), hnot, fun b hsome => ?_⟩
        obtain rfl := Option.some.inj hsome
        refine ⟨⟨selection, hmem, hsolve⟩, ?_⟩
        rw [List.forall_mem_append, List.forall_mem_singleton]
        exact ⟨fun other hother c hc => hcompare.trans (hle other hother c hc),
          fun c hc => (hlast c hc ▸ le_rfl)⟩
      · rename_i hbetter
        rw [if_neg hbetter] at hcompare
        refine Or.inr ⟨rfl, hstate, fun hnone => ?_, hnot, fun b hsome => ?_⟩
        · rw [hbest] at hnone
          cases hnone
        · obtain rfl := Option.some.inj (hbest.symm.trans hsome)
          refine ⟨⟨found, List.mem_append_left _ hfound, hok⟩, ?_⟩
          rw [List.forall_mem_append, List.forall_mem_singleton]
          exact ⟨hle, fun c hc => (hlast c hc ▸ hcompare)⟩

omit [IsStrictOrderedRing K] in
/-- A layer that is not aborted examines all its selections. -/
theorem Examined.visitWhile {groups : List Nat} (rest : List (List Nat)) :
    ∀ {selections : List (List Nat)} {state : SearchState K}, Examined input groups selections state →
      state.aborted = false →
      (visitWhile (Decidb.examine input groups) rest state).1.aborted = false →
      (visitWhile (Decidb.examine input groups) rest state).2 = true ∧
      Examined input groups (selections ++ rest)
        (visitWhile (Decidb.examine input groups) rest state).1 := by
  induction rest with
  | nil =>
    intro selections state h _ _
    rw [List.append_nil]
    exact ⟨rfl, h⟩
  | cons selection rest ih =>
    intro selections state h hstate hrun
    unfold Relational.visitWhile at hrun ⊢
    dsimp only at hrun ⊢
    rcases h.examine hstate selection with ⟨hstop, habort⟩ | ⟨hgo, hok, hexamined⟩
    · rw [hstop, if_neg Bool.false_ne_true, habort] at hrun
      cases hrun
    · rw [hgo, if_pos rfl] at hrun ⊢
      have hsplit : selections ++ selection :: rest = selections ++ [selection] ++ rest := by simp
      rw [hsplit]
      exact ih hexamined hok hrun

/-- The selections the visitor of a layer is called on. -/
def examinedSelections (input : InfeasibleDiagnosisInput K) (cardinality : Nat) : List (List Nat) :=
  (enumerateCombinations (logging (Decidb.examine input (collectRemovalGroups input.model))) cardinality
    (collectRemovalGroups input.model).length 0 [] ({}, [])).1.2

/-- What a layer ends with. -/
def layerState (input : InfeasibleDiagnosisInput K) (cardinality : Nat) : SearchState K :=
  (enumerateCombinations (Decidb.examine input (collectRemovalGroups input.model)) cardinality
    (collectRemovalGroups input.model).length 0 [] {}).1

omit [IsStrictOrderedRing K] in
theorem layerState_examined {cardinality : Nat}
    (h : (layerState input cardinality).aborted = false) :
    Examined input (collectRemovalGroups input.model)
      (combinations cardinality (collectRemovalGroups input.model).length 0 [])
      (layerState input cardinality) ∧
    examinedSelections input cardinality =
      combinations cardinality (collectRemovalGroups input.model).length 0 [] := by
  unfold layerState at h ⊢
  unfold examinedSelections
  rw [enumerateCombinations_eq] at h ⊢
  have hnil : Examined input (collectRemovalGroups input.model) [] ({} : SearchState K) :=
    ⟨fun _ _ hmem => absurd hmem List.not_mem_nil, fun _ hmem => absurd hmem List.not_mem_nil,
      fun _ hbest => by cases hbest⟩
  obtain ⟨hgo, hexamined⟩ := hnil.visitWhile _ rfl h
  refine ⟨hexamined, ?_⟩
  rw [enumerateCombinations_eq, visitWhile_logging _ _ _ _ hgo, List.nil_append]

/-- Every selection of a cardinality is examined once. -/
structure ExaminesEachOnce (input : InfeasibleDiagnosisInput K) (cardinality : Nat) : Prop where
  nodup : (examinedSelections input cardinality).Nodup
  mem_iff : ∀ selection, selection ∈ examinedSelections input cardinality ↔
    selection.Pairwise (· < ·) ∧ selection.length = cardinality ∧
      ∀ i ∈ selection, i < (collectRemovalGroups input.model).length

omit [IsStrictOrderedRing K] in
theorem examinesEachOnce_of_not_aborted {cardinality : Nat}
    (h : (layerState input cardinality).aborted = false) : ExaminesEachOnce input cardinality := by
  obtain ⟨-, hselections⟩ := layerState_examined h
  refine ⟨?_, fun selection => ?_⟩
  · rw [hselections]
    exact nodup_combinations _ _ _ _ (Nat.zero_le _)
  · rw [hselections]
    exact mem_combinations_range

/-! ## The search -/

omit [IsStrictOrderedRing K] [FloorRing K] in
theorem isRemovalRepair_knownGroups (dropped : List Nat) (amounts : RepairAmounts K) :
    IsRemovalRepair input (knownGroups (collectRemovalGroups input.model) dropped) amounts ↔
      IsRemovalRepair input dropped amounts := by
  unfold IsRemovalRepair removalElastic
  rw [← dropRemovalGroups_knownGroups]

omit [IsStrictOrderedRing K] [FloorRing K] in
theorem removalCost_knownGroups (dropped : List Nat) (tier : ElasticRepairTier)
    (amounts : RepairAmounts K) :
    removalCost input (knownGroups (collectRemovalGroups input.model) dropped) tier amounts =
      removalCost input dropped tier amounts := by
  unfold removalCost removalElastic
  rw [← dropRemovalGroups_knownGroups]

omit [IsStrictOrderedRing K] in
theorem searchLayers_aborted {cardinality : Nat} (layers : List Nat)
    (habort : (layerState input cardinality).aborted = true) :
    searchLayers input (collectRemovalGroups input.model) (cardinality :: layers) = .undiagnosed :=
  if_pos habort

omit [IsStrictOrderedRing K] in
theorem searchLayers_empty {cardinality : Nat} (layers : List Nat)
    (habort : (layerState input cardinality).aborted = false)
    (hbest : (layerState input cardinality).best = none) :
    searchLayers input (collectRemovalGroups input.model) (cardinality :: layers) =
      searchLayers input (collectRemovalGroups input.model) layers := by
  unfold layerState at habort hbest
  conv_lhs => unfold searchLayers
  dsimp only
  rw [habort, if_neg Bool.false_ne_true, hbest]

omit [IsStrictOrderedRing K] in
theorem searchLayers_found {cardinality : Nat} (layers : List Nat) {best : RemovalCandidate K}
    (habort : (layerState input cardinality).aborted = false)
    (hbest : (layerState input cardinality).best = some best) :
    searchLayers input (collectRemovalGroups input.model) (cardinality :: layers) =
      if best.edits.isEmpty then .undiagnosed else .repair best := by
  unfold layerState at habort hbest
  unfold searchLayers
  dsimp only
  rw [habort, if_neg Bool.false_ne_true, hbest]

omit [IsStrictOrderedRing K] in
/-- The layers before the one that reports found nothing. -/
theorem searchLayers_repair {best : RemovalCandidate K} (len start : Nat)
    (h : searchLayers input (collectRemovalGroups input.model) (List.range' start len) =
      .repair best) :
    ∃ cardinality, start ≤ cardinality ∧ (layerState input cardinality).best = some best ∧
      (∀ c, start ≤ c → c ≤ cardinality → (layerState input c).aborted = false) ∧
      ∀ c, start ≤ c → c < cardinality → (layerState input c).best = none := by
  induction len generalizing start with
  | zero =>
    rw [List.range'_zero] at h
    unfold searchLayers at h
    split at h <;> cases h
  | succ len ih =>
    rw [List.range'_succ] at h
    cases habort : (layerState input start).aborted with
    | true =>
      rw [searchLayers_aborted _ habort] at h
      cases h
    | false =>
      cases hbest : (layerState input start).best with
      | some found =>
        rw [searchLayers_found _ habort hbest] at h
        split at h
        · cases h
        · obtain rfl := Diagnosis.repair.inj h
          refine ⟨start, le_rfl, hbest, fun c hc hc' => ?_, fun c hc hc' => ?_⟩
          · rwa [le_antisymm hc' hc]
          · omega
      | none =>
        rw [searchLayers_empty _ habort hbest] at h
        obtain ⟨cardinality, hle, hfound, haborted, hnone⟩ := ih (start + 1) h
        refine ⟨cardinality, by omega, hfound, fun c hc hc' => ?_, fun c hc hc' => ?_⟩
        · rcases Nat.eq_or_lt_of_le hc with rfl | hlt
          · exact habort
          · exact haborted c hlt hc'
        · rcases Nat.eq_or_lt_of_le hc with rfl | hlt
          · exact hbest
          · exact hnone c hlt hc'

omit [IsStrictOrderedRing K] in
/-- The verdict that no repair exists comes after every layer found nothing. -/
theorem searchLayers_elasticInfeasible (len start : Nat)
    (h : searchLayers input (collectRemovalGroups input.model) (List.range' start len) =
      .elasticInfeasible) :
    ∀ c, start ≤ c → c < start + len →
      (layerState input c).aborted = false ∧ (layerState input c).best = none := by
  induction len generalizing start with
  | zero =>
    intro c hc hc'
    omega
  | succ len ih =>
    rw [List.range'_succ] at h
    cases habort : (layerState input start).aborted with
    | true =>
      rw [searchLayers_aborted _ habort] at h
      cases h
    | false =>
      cases hbest : (layerState input start).best with
      | some found =>
        rw [searchLayers_found _ habort hbest] at h
        split at h <;> cases h
      | none =>
        rw [searchLayers_empty _ habort hbest] at h
        intro c hc hc'
        rcases Nat.eq_or_lt_of_le hc with rfl | hlt
        · exact ⟨habort, hbest⟩
        · exact ih (start + 1) h c hlt (by omega)

/-- A layer that found nothing leaves no repair of its size. -/
theorem no_repair_of_layer (hexact : ∀ m, (input.solveModel m).Exact m)
    (huniform : input.model.BlocksUniform input.foldData) {dropped : List Nat}
    (habort : (layerState input
      (knownGroups (collectRemovalGroups input.model) dropped).length).aborted = false)
    (hnone : (layerState input
      (knownGroups (collectRemovalGroups input.model) dropped).length).best = none)
    (amounts : RepairAmounts K) : ¬ IsRemovalRepair input dropped amounts := by
  obtain ⟨hexamined, -⟩ := layerState_examined habort
  have hsolve := hexamined.all_infeasible hnone _ (positionsOf_mem_combinations _ dropped)
  have hno := solveRemovalCandidate_no_repair hexact huniform hsolve amounts
  rwa [selectedGroups_positionsOf, isRemovalRepair_knownGroups] at hno

/-- What a reported repair promises: it repairs the model as cheaply as its drops allow, no repair drops
fewer groups, and none with as many drops is displayed cheaper. -/
structure RepairSound (input : InfeasibleDiagnosisInput K) (best : RemovalCandidate K) : Prop where
  isLeast : best.IsLeast input best.signature
  fewest : ∀ dropped amounts, IsRemovalRepair input dropped amounts →
    best.signature.length ≤ dropped.length
  data_displayed : ∀ dropped amounts, dropped.length = best.signature.length →
    IsRemovalRepair input dropped amounts →
      snapDiagnosticValue best.dataCost ≤
        snapDiagnosticValue (removalCost input dropped .dataOffset amounts)
  editable_displayed : ∀ dropped amounts, dropped.length = best.signature.length →
    IsRemovalRepair input dropped amounts →
    (∀ other, IsRemovalRepair input dropped other →
      removalCost input dropped .dataOffset amounts ≤ removalCost input dropped .dataOffset other) →
    snapDiagnosticValue (removalCost input dropped .dataOffset amounts) =
      snapDiagnosticValue best.dataCost →
      snapDiagnosticValue best.editableCost ≤
        snapDiagnosticValue (removalCost input dropped .editableLoosen amounts)
  examined : ∀ cardinality ≤ best.signature.length, ExaminesEachOnce input cardinality

/-- What the verdict that no repair exists promises. -/
structure NoRepairSound (input : InfeasibleDiagnosisInput K) : Prop where
  no_repair : ∀ dropped amounts, ¬ IsRemovalRepair input dropped amounts
  examined : ∀ cardinality ≤ (collectRemovalGroups input.model).length,
    ExaminesEachOnce input cardinality

omit [FloorRing K] in
/-- No cost of a repair is negative. -/
theorem removalCost_nonneg (huniform : input.model.BlocksUniform input.foldData) {dropped : List Nat}
    {amounts : RepairAmounts K} (h : IsRemovalRepair input dropped amounts)
    (tier : ElasticRepairTier) : 0 ≤ removalCost input dropped tier amounts := by
  obtain ⟨x, hx, hcost⟩ := h.exists_feasible (huniform.dropRemovalGroups dropped)
    (input.wellScoped.dropRemovalGroups dropped)
  have hwf := buildElasticModel_wellFormed input.sqrt (dropRemovalGroups input.model dropped)
    input.foldData
  have hvalue := hwf.tierValue_nonneg hx tier
  rw [tierValue_removalElastic] at hvalue
  exact hvalue.trans_eq (hcost tier)

omit [IsStrictOrderedRing K] in
/-- A diagnosis of either kind comes out of the layers. -/
theorem searchLayers_of_diagnoseInfeasible {diagnosis : Diagnosis K}
    (h : diagnoseInfeasible input = diagnosis) (hdiagnosed : diagnosis ≠ .undiagnosed)
    (hreachable : diagnosis ≠ .unreachableBounds) :
    searchLayers input (collectRemovalGroups input.model)
      (List.range' 0 ((collectRemovalGroups input.model).length + 1)) = diagnosis := by
  unfold diagnoseInfeasible at h
  split at h
  · exact absurd h.symm hreachable
  · dsimp only at h
    split at h
    · exact absurd h.symm hdiagnosed
    · rwa [List.range_eq_range'] at h

/-- A repair of the size of a layer belongs to a candidate the layer examined. -/
theorem Examined.exists_candidate (hexact : ∀ m, (input.solveModel m).Exact m)
    (huniform : input.model.BlocksUniform input.foldData) {dropped : List Nat} {state : SearchState K}
    (h : Examined input (collectRemovalGroups input.model)
      (combinations (knownGroups (collectRemovalGroups input.model) dropped).length
        (collectRemovalGroups input.model).length 0 []) state)
    {best : RemovalCandidate K} (hbest : state.best = some best) {amounts : RepairAmounts K}
    (hrepair : IsRemovalRepair input dropped amounts) :
    ∃ candidate : RemovalCandidate K,
      candidate.IsLeast input (knownGroups (collectRemovalGroups input.model) dropped) ∧
      displayedCost best ≤ displayedCost candidate := by
  have hmem := positionsOf_mem_combinations (collectRemovalGroups input.model) dropped
  cases hsolve : solveRemovalCandidate input (collectRemovalGroups input.model)
      (positionsOf (collectRemovalGroups input.model) dropped) with
  | error e =>
    cases e with
    | abort => exact absurd hsolve (h.not_abort _ hmem)
    | infeasible =>
      have hno := solveRemovalCandidate_no_repair hexact huniform hsolve amounts
      rw [selectedGroups_positionsOf, isRemovalRepair_knownGroups] at hno
      exact absurd hrepair hno
  | ok candidate =>
    refine ⟨candidate, ?_, (h.best_le best hbest).2 _ hmem candidate hsolve⟩
    rw [← selectedGroups_positionsOf]
    exact solveRemovalCandidate_isLeast hexact huniform hsolve

/-- A reported repair keeps its promise. -/
theorem repairSound_of_repair (hexact : ∀ m, (input.solveModel m).Exact m)
    (huniform : input.model.BlocksUniform input.foldData) {best : RemovalCandidate K}
    (h : diagnoseInfeasible input = .repair best) : RepairSound input best := by
  have hnodup := nodup_collectRemovalGroups input.model
  have hsearch := searchLayers_of_diagnoseInfeasible h (fun heq => by cases heq)
    (fun heq => by cases heq)
  obtain ⟨cardinality, -, hbest, habort, hnone⟩ := searchLayers_repair _ 0 hsearch
  obtain ⟨hexamined, -⟩ := layerState_examined (habort cardinality (Nat.zero_le _) le_rfl)
  obtain ⟨⟨selection, hselection, hsolve⟩, -⟩ := hexamined.best_le best hbest
  obtain ⟨-, hlength, hrange⟩ := mem_combinations_range.mp hselection
  have hleast := solveRemovalCandidate_isLeast hexact huniform hsolve
  have hsignature : best.signature.length = cardinality := by
    rw [hleast.signature, length_selectedGroups hrange, hlength]
  have hfewest : ∀ dropped amounts, IsRemovalRepair input dropped amounts →
      cardinality ≤ (knownGroups (collectRemovalGroups input.model) dropped).length := by
    intro dropped amounts hrepair
    by_contra hlt
    rw [not_le] at hlt
    exact no_repair_of_layer hexact huniform (habort _ (Nat.zero_le _) hlt.le)
      (hnone _ (Nat.zero_le _) hlt) amounts hrepair
  have hother : ∀ dropped amounts, dropped.length = best.signature.length →
      IsRemovalRepair input dropped amounts → ∃ candidate : RemovalCandidate K,
        candidate.IsLeast input (knownGroups (collectRemovalGroups input.model) dropped) ∧
        displayedCost best ≤ displayedCost candidate := by
    intro dropped amounts hsize hrepair
    have hle := length_knownGroups_le hnodup dropped
    have hge := hfewest dropped amounts hrepair
    obtain rfl : cardinality =
        (knownGroups (collectRemovalGroups input.model) dropped).length := by omega
    exact hexamined.exists_candidate hexact huniform hbest hrepair
  refine ⟨?_, fun dropped amounts hrepair => ?_, fun dropped amounts hsize hrepair => ?_,
    fun dropped amounts hsize hrepair hdata htie => ?_, fun c hc => ?_⟩
  · rw [hleast.signature]
    exact hleast
  · rw [hsignature]
    exact (hfewest dropped amounts hrepair).trans (length_knownGroups_le hnodup dropped)
  · obtain ⟨candidate, hcandidate, hle⟩ := hother dropped amounts hsize hrepair
    have hcost := hcandidate.data_le amounts ((isRemovalRepair_knownGroups _ _).mpr hrepair)
    rw [removalCost_knownGroups] at hcost
    have hnonneg : 0 ≤ candidate.dataCost := by
      rw [hcandidate.dataCost]
      exact removalCost_nonneg huniform hcandidate.isRepair _
    refine le_trans ?_ (snapDiagnosticValue_le hnonneg hcost)
    rcases Prod.Lex.toLex_le_toLex.mp hle with hlt | ⟨heq, -⟩
    · exact hlt.le
    · exact heq.le
  · obtain ⟨candidate, hcandidate, hle⟩ := hother dropped amounts hsize hrepair
    have hrepair' := (isRemovalRepair_knownGroups dropped amounts).mpr hrepair
    have hown := (isRemovalRepair_knownGroups dropped _).mp hcandidate.isRepair
    have hcost : removalCost input (knownGroups (collectRemovalGroups input.model) dropped)
        .dataOffset amounts ≤ candidate.dataCost := by
      rw [removalCost_knownGroups, hcandidate.dataCost, removalCost_knownGroups]
      exact hdata _ hown
    have heditable := hcandidate.editable_le amounts hrepair' hcost
    rw [removalCost_knownGroups] at heditable
    have hsame : candidate.dataCost = removalCost input dropped .dataOffset amounts := by
      rw [← removalCost_knownGroups]
      exact le_antisymm (hcandidate.data_le amounts hrepair') hcost
    have hnonneg : 0 ≤ candidate.editableCost := by
      rw [hcandidate.editableCost]
      exact removalCost_nonneg huniform hcandidate.isRepair _
    refine le_trans ?_ (snapDiagnosticValue_le hnonneg heditable)
    rcases Prod.Lex.toLex_le_toLex.mp hle with hlt | ⟨-, hle⟩
    · dsimp only at hlt
      rw [hsame, htie] at hlt
      exact absurd hlt (lt_irrefl _)
    · exact hle
  · rw [hsignature] at hc
    exact examinesEachOnce_of_not_aborted (habort c (Nat.zero_le _) hc)

/-- The verdict that no repair exists is true. -/
theorem noRepairSound_of_elasticInfeasible (hexact : ∀ m, (input.solveModel m).Exact m)
    (huniform : input.model.BlocksUniform input.foldData)
    (h : diagnoseInfeasible input = .elasticInfeasible) : NoRepairSound input := by
  have hlayers := searchLayers_elasticInfeasible _ 0
    (searchLayers_of_diagnoseInfeasible h (fun heq => by cases heq) fun heq => by cases heq)
  refine ⟨fun dropped amounts => ?_, fun c hc => ?_⟩
  · have hle : (knownGroups (collectRemovalGroups input.model) dropped).length ≤
        (collectRemovalGroups input.model).length := List.length_filter_le _ _
    obtain ⟨habort, hnone⟩ := hlayers
      (knownGroups (collectRemovalGroups input.model) dropped).length (Nat.zero_le _) (by omega)
    exact no_repair_of_layer hexact huniform habort hnone amounts
  · exact examinesEachOnce_of_not_aborted (hlayers c (Nat.zero_le _) (by omega)).1

/-- **A repair that is reported works, drops as few groups as any, and is displayed no dearer than any that
drops as many; that there is none is said only when there is none.** -/
theorem diagnoseInfeasible_sound (input : InfeasibleDiagnosisInput K)
    (hexact : ∀ m, (input.solveModel m).Exact m)
    (huniform : input.model.BlocksUniform input.foldData) :
    (∀ best, diagnoseInfeasible input = .repair best → RepairSound input best) ∧
      (diagnoseInfeasible input = .elasticInfeasible → NoRepairSound input) :=
  ⟨fun _ h => repairSound_of_repair hexact huniform h,
    fun h => noRepairSound_of_elasticInfeasible hexact huniform h⟩

end Display

/-! ## What display precision hides -/

/-- A backend that knows some models. -/
def answeringAll (answers : List (SolverModel ℚ × SolverResult ℚ)) : SolverModel ℚ → SolverResult ℚ :=
  answers.foldr (fun answer rest m => if m = answer.1 then answer.2 else rest m)
    fun _ => { status := .other, objectiveValue := 0 }

theorem answeringAll_exact {answers : List (SolverModel ℚ × SolverResult ℚ)}
    (h : ∀ answer ∈ answers, answer.2.Exact answer.1) (m : SolverModel ℚ) :
    (answeringAll answers m).Exact m := by
  induction answers with
  | nil => exact ⟨fun h => (by cases h), fun h => (by cases h), fun h => (by cases h),
      fun h => (by cases h), rfl⟩
  | cons answer answers ih =>
    show (if m = answer.1 then answer.2 else answeringAll answers m).Exact m
    by_cases hm : m = answer.1
    · rw [if_pos hm, hm]
      exact h answer List.mem_cons_self
    · rw [if_neg hm]
      exact ih fun other hother => h other (List.mem_cons_of_mem _ hother)

/-- The slacks of the named blocks alone are enough. -/
def NamedEditsRepair (input : InfeasibleDiagnosisInput ℚ) (best : RemovalCandidate ℚ) : Prop :=
  ∃ amounts, IsRemovalRepair input best.signature amounts ∧
    ∀ i block, (removalElastic input best.signature).slacks[i]? = some block →
      (¬ ∃ amount, ClauseEdit.loosen block amount ∈ best.edits) → amounts i = (0, 0)

/-- No repair with as many drops costs less data slack. -/
def DataSlackLeast (input : InfeasibleDiagnosisInput ℚ) (best : RemovalCandidate ℚ) : Prop :=
  ∀ dropped amounts, dropped.length = best.signature.length → IsRemovalRepair input dropped amounts →
    best.dataCost ≤ removalCost input dropped .dataOffset amounts

/-- `x <= cap` where the cap of the one row is zero, `SUM(y) <= 0`, and a construct that keeps `x` from
`0.000005` on and `y` from one on. -/
def faintModel : SolverModel ℚ where
  columns := [{ lower := 0, upper := openBound, objCoeff := 0 },
    { lower := 0, upper := openBound, objCoeff := 0 }]
  constraints :=
    [{ form := [(0, 1)], sense := .ge, rhs := .fin (5 / 10 ^ 6), provenance := { kind := .structural } },
     { form := [(1, 1)], sense := .ge, rhs := .fin 1, provenance := { kind := .structural } },
     { form := [(0, 1)], sense := .le, rhs := .fin 0
       provenance := { sourceClauseId := some 0, repairGroupId := some 0, shape := .perRowData } },
     { form := [(1, 1)], sense := .le, rhs := .fin 0
       provenance := { sourceClauseId := some 1, repairGroupId := some 1, shape := .sharedScalar } }]

/-- A pass over `faintModel`: the objectives of the two slacks and the budgets so far. -/
def faintPass (data editable : ℚ) (budgets : List (SolverRow ℚ)) : SolverModel ℚ where
  columns := [{ lower := 0, upper := openBound, objCoeff := 0 },
    { lower := 0, upper := openBound, objCoeff := 0 },
    { slackColumn with objCoeff := data }, { slackColumn with objCoeff := editable }]
  constraints :=
    [{ form := [(0, 1)], sense := .ge, rhs := .fin (5 / 10 ^ 6), provenance := { kind := .structural } },
     { form := [(1, 1)], sense := .ge, rhs := .fin 1, provenance := { kind := .structural } },
     { form := [(0, 1), (2, -1)], sense := .le, rhs := .fin 0
       provenance := { sourceClauseId := some 0, repairGroupId := some 0, shape := .perRowData } },
     { form := [(1, 1), (3, -1)], sense := .le, rhs := .fin 0
       provenance := { sourceClauseId := some 1, repairGroupId := some 1, shape := .sharedScalar } }] ++
    budgets

/-- What both passes are solved with. -/
def faintSolution : List ℚ := [5 / 10 ^ 6, 1, 5 / 10 ^ 6, 1]

/-- The data slack, frozen. -/
def faintBudget : SolverRow ℚ :=
  { form := [(2, 1)], sense := .le, rhs := .fin (5 / 10 ^ 6), provenance := { kind := .structural } }

/-- Both slacks are forced. -/
theorem faintPass_isOptimal {data editable : ℚ} {budgets : List (SolverRow ℚ)} (hdata : 0 ≤ data)
    (heditable : 0 ≤ editable)
    (hfeasible : (faintPass data editable budgets).Feasible (point faintSolution)) :
    (faintPass data editable budgets).IsOptimal (point faintSolution) := by
  have hobjective : ∀ x : Nat → ℚ,
      (faintPass data editable budgets).objectiveValue x = data * x 2 + editable * x 3 := by
    intro x
    simp [SolverModel.objectiveValue, SolverModel.objective, faintPass]
  refine ⟨hfeasible, fun y hy => ?_⟩
  have hrows : ∀ row ∈ (faintPass 0 0 []).constraints, row.Holds y := fun row hrow =>
    hy.constraints row (List.mem_append_left _ hrow)
  simp only [faintPass, List.append_nil, List.forall_mem_cons, SolverRow.Holds, meetsRhs_ge_fin,
    meetsRhs_le_fin, Form.eval_cons, Form.eval_nil] at hrows
  obtain ⟨hx, hy, hxcap, hycap, -⟩ := hrows
  rw [hobjective, hobjective]
  show ¬ data * y 2 + editable * y 3 < data * (5 / 10 ^ 6) + editable * 1
  have h2 : data * (5 / 10 ^ 6) ≤ data * y 2 := mul_le_mul_of_nonneg_left (by linarith) hdata
  have h3 : editable * 1 ≤ editable * y 3 := mul_le_mul_of_nonneg_left (by linarith) heditable
  linarith

/-- What the solver answers to the passes over `faintModel`. -/
def faintAnswers : List (SolverModel ℚ × SolverResult ℚ) :=
  [faintPass 1 0 [], faintPass 0 1 [faintBudget]].map fun pass =>
    (pass, { status := .optimal, solution := faintSolution
             objectiveValue := pass.objectiveValue (point faintSolution) })

theorem faintAnswers_exact : ∀ answer ∈ faintAnswers, answer.2.Exact answer.1 := by
  intro answer h
  obtain ⟨pass, hpass, rfl⟩ := List.mem_map.mp h
  have hoptimal : pass.IsOptimal (point faintSolution) ∧ pass.numVars = 4 := by
    rcases List.mem_cons.mp hpass with rfl | hpass
    · exact ⟨faintPass_isOptimal zero_le_one le_rfl (SolverModel.feasible_point (by decide +kernel)
        (by decide +kernel) ⟨rfl, rfl, rfl⟩), rfl⟩
    · rw [List.mem_singleton.mp hpass]
      exact ⟨faintPass_isOptimal le_rfl zero_le_one (SolverModel.feasible_point (by decide +kernel)
        (by decide +kernel) ⟨rfl, rfl, rfl⟩), rfl⟩
  exact .of_optimal hoptimal.2.symm hoptimal.1

def faintInput : InfeasibleDiagnosisInput ℚ where
  model := faintModel
  wellScoped := ⟨by decide +kernel, by decide +kernel, by decide +kernel, by decide +kernel⟩
  solveModel := answeringAll faintAnswers
  -- every norm of this model is one
  sqrt := fun v => v

theorem faintInput_uniform : faintInput.model.BlocksUniform faintInput.foldData := by
  unfold SolverModel.BlocksUniform
  decide +kernel

theorem faintInput_exact (m : SolverModel ℚ) : (faintInput.solveModel m).Exact m :=
  answeringAll_exact faintAnswers_exact m

/-- The repair reported for `faintModel`. -/
theorem faintInput_repair : ∃ best, diagnoseInfeasible faintInput = .repair best ∧
    best.signature = [] ∧ best.repairSolution = faintSolution ∧ best.dataCost = 5 / 10 ^ 6 := by
  have hreport : (match diagnoseInfeasible faintInput with
      | .repair best => decide (best.signature = [] ∧ best.repairSolution = faintSolution ∧
          best.dataCost = 5 / 10 ^ 6)
      | _ => false) = true := by decide +kernel
  cases h : diagnoseInfeasible faintInput with
  | repair best =>
    rw [h] at hreport
    exact ⟨best, rfl, of_decide_eq_true hreport⟩
  | undiagnosed =>
    rw [h] at hreport
    cases hreport
  | unreachableBounds =>
    rw [h] at hreport
    cases hreport
  | elasticInfeasible =>
    rw [h] at hreport
    cases hreport

/-- The slacks of `faintModel`. -/
theorem faintInput_slacks : (removalElastic faintInput []).slacks =
    [{ rows := [2], posCol := 2, sense := .le, tier := .dataOffset, weight := 1 },
     { rows := [3], posCol := 3, sense := .le, tier := .editableLoosen, weight := 1 }] := by
  decide +kernel

/-- The data block of `faintModel` stays under the noise floor, and nothing works without it. -/
theorem faintInput_not_named {best : RemovalCandidate ℚ}
    (h : diagnoseInfeasible faintInput = .repair best) (hsignature : best.signature = [])
    (hsolution : best.repairSolution = faintSolution) (hcost : best.dataCost = 5 / 10 ^ 6) :
    ¬ NamedEditsRepair faintInput best := by
  rintro ⟨amounts, hrepair, hunnamed⟩
  have hleast := (repairSound_of_repair faintInput_exact faintInput_uniform h).isLeast
  rw [hsignature] at hleast hrepair hunnamed
  have hzero : amounts 0 = (0, 0) := by
    refine hunnamed 0 _ (by rw [faintInput_slacks]; rfl) ?_
    rw [hleast.named _ (by rw [faintInput_slacks]; exact List.mem_cons_self), hsolution]
    decide +kernel
  have hle := hleast.data_le amounts hrepair
  have hpaid : removalCost faintInput [] .dataOffset amounts = 0 := by
    unfold removalCost
    rw [faintInput_slacks]
    simp [tierTotal, slackTierCoefficient, BlockSlackRef.spent, hzero]
  rw [hcost, hpaid] at hle
  norm_num at hle

/-- Two clauses that exclude each other, either of which may be dropped: `z = 1`, which lets the data
offset be one, and `z = 0`, which asks for a ten-millionth more. -/
def rivalModel : SolverModel ℚ where
  columns := [{ lower := 0, upper := openBound, objCoeff := 0 }, { lower := 0, upper := 1, objCoeff := 0 }]
  constraints :=
    [{ form := [(1, 1)], sense := .eq, rhs := .fin 1
       provenance := { sourceClauseId := some 0, removalGroupId := some 0, kind := .userMechanism } },
     { form := [(1, 1)], sense := .eq, rhs := .fin 0
       provenance := { sourceClauseId := some 1, removalGroupId := some 1, kind := .userMechanism } },
     { form := [(0, 1), (1, 1 / 10 ^ 7)], sense := .ge, rhs := .fin (1 + 1 / 10 ^ 7)
       provenance := { kind := .structural } },
     { form := [(0, 1)], sense := .le, rhs := .fin 0
       provenance := { sourceClauseId := some 2, repairGroupId := some 2, shape := .perRowData } }]

/-- A pass over `rivalModel` that keeps some of the two clauses. -/
def rivalPass (kept : List (SolverRow ℚ)) : SolverModel ℚ where
  columns := [{ lower := 0, upper := openBound, objCoeff := 0 },
    { lower := 0, upper := 1, objCoeff := 0 }, { slackColumn with objCoeff := 1 }]
  constraints := kept ++
    [{ form := [(0, 1), (1, 1 / 10 ^ 7)], sense := .ge, rhs := .fin (1 + 1 / 10 ^ 7)
       provenance := { kind := .structural } },
     { form := [(0, 1), (2, -1)], sense := .le, rhs := .fin 0
       provenance := { sourceClauseId := some 2, repairGroupId := some 2, shape := .perRowData } }]

/-- `z = value`, which belongs to a removal group. -/
def rivalClause (group : Nat) (value : ℚ) : SolverRow ℚ :=
  { form := [(1, 1)], sense := .eq, rhs := .fin value
    provenance := { sourceClauseId := some group, removalGroupId := some group
                    kind := .userMechanism } }

theorem rivalPass_isOptimal {group : Nat} {value slack : ℚ} (hslack : slack = 1 + 1 / 10 ^ 7 - value / 10 ^ 7)
    (hfeasible : (rivalPass [rivalClause group value]).Feasible (point [slack, value, slack])) :
    (rivalPass [rivalClause group value]).IsOptimal (point [slack, value, slack]) := by
  have hobjective : ∀ x : Nat → ℚ,
      (rivalPass [rivalClause group value]).objectiveValue x = x 2 := by
    intro x
    simp [SolverModel.objectiveValue, SolverModel.objective, rivalPass]
  refine ⟨hfeasible, fun y hy => ?_⟩
  have hrows := hy.constraints
  simp only [rivalPass, rivalClause, List.singleton_append, List.forall_mem_cons, SolverRow.Holds,
    meetsRhs_ge_fin, meetsRhs_le_fin, meetsRhs_eq_fin, Form.eval_cons, Form.eval_nil] at hrows
  obtain ⟨hvalue, hfloor, hcap, -⟩ := hrows
  rw [hobjective, hobjective]
  show ¬ y 2 < slack
  linarith

/-- With both clauses nothing is feasible. -/
theorem rivalPass_not_feasible :
    ¬ (rivalPass [rivalClause 0 1, rivalClause 1 0]).IsFeasible := by
  rintro ⟨x, hx⟩
  have hrows := hx.constraints
  simp only [rivalPass, rivalClause, List.cons_append, List.nil_append, List.forall_mem_cons,
    SolverRow.Holds, meetsRhs_eq_fin, Form.eval_cons, Form.eval_nil] at hrows
  linarith [hrows.1, hrows.2.1]

/-- What the solver answers to the passes over `rivalModel`. -/
def rivalAnswers : List (SolverModel ℚ × SolverResult ℚ) :=
  [(rivalPass [rivalClause 0 1, rivalClause 1 0], { status := .infeasible, objectiveValue := 0 }),
   (rivalPass [rivalClause 1 0],
    { status := .optimal, solution := [1 + 1 / 10 ^ 7, 0, 1 + 1 / 10 ^ 7]
      objectiveValue := (rivalPass [rivalClause 1 0]).objectiveValue
        (point [1 + 1 / 10 ^ 7, 0, 1 + 1 / 10 ^ 7]) }),
   (rivalPass [rivalClause 0 1],
    { status := .optimal, solution := [1, 1, 1]
      objectiveValue := (rivalPass [rivalClause 0 1]).objectiveValue (point [1, 1, 1]) })]

theorem rivalAnswers_exact : ∀ answer ∈ rivalAnswers, answer.2.Exact answer.1 := by
  unfold rivalAnswers
  rw [List.forall_mem_cons, List.forall_mem_cons, List.forall_mem_singleton]
  refine ⟨⟨fun h => (by cases h), fun _ => rivalPass_not_feasible, fun h => (by cases h),
    fun h => (by cases h), rfl⟩, .of_optimal rfl (rivalPass_isOptimal (by norm_num) ?_),
    .of_optimal rfl (rivalPass_isOptimal (by norm_num) ?_)⟩
  · exact SolverModel.feasible_point (by decide +kernel) (by decide +kernel) ⟨rfl, rfl, rfl⟩
  · exact SolverModel.feasible_point (by decide +kernel) (by decide +kernel) ⟨rfl, rfl, rfl⟩

def rivalInput : InfeasibleDiagnosisInput ℚ where
  model := rivalModel
  wellScoped := ⟨by decide +kernel, by decide +kernel, by decide +kernel, by decide +kernel⟩
  solveModel := answeringAll rivalAnswers
  sqrt := fun v => v

theorem rivalInput_exact (m : SolverModel ℚ) : (rivalInput.solveModel m).Exact m :=
  answeringAll_exact rivalAnswers_exact m

theorem rivalInput_uniform : rivalInput.model.BlocksUniform rivalInput.foldData := by
  unfold SolverModel.BlocksUniform
  decide +kernel

theorem rivalInput_groups : collectRemovalGroups rivalInput.model = [0, 1] := by
  have hids : (rivalInput.model.constraints.filterMap (·.provenance.removalGroupId) ++
      rivalInput.model.quadraticConstraints.filterMap (·.provenance.removalGroupId) ++
      rivalInput.model.indicatorConstraints.filterMap (·.provenance.removalGroupId) ++
      rivalInput.model.generalConstraints.filterMap (·.provenance.removalGroupId)).dedup = [0, 1] := by
    decide +kernel
  unfold collectRemovalGroups
  rw [hids]
  exact List.mergeSort_of_pairwise (by decide)

/-- Three layers are searched. -/
theorem rivalInput_search :
    diagnoseInfeasible rivalInput = searchLayers rivalInput [0, 1] [0, 1, 2] := by
  have hreachable : hasUnreachableClause rivalInput.model = false := by decide +kernel
  unfold diagnoseInfeasible
  rw [hreachable, if_neg Bool.false_ne_true, rivalInput_groups]
  rfl

/-- The repair reported for `rivalModel` drops the first clause. -/
theorem rivalInput_repair : ∃ best, diagnoseInfeasible rivalInput = .repair best ∧
    best.signature = [0] ∧ best.dataCost = 1 + 1 / 10 ^ 7 := by
  have hreport : (match searchLayers rivalInput [0, 1] [0, 1, 2] with
      | .repair best => decide (best.signature = [0] ∧ best.dataCost = 1 + 1 / 10 ^ 7)
      | _ => false) = true := by decide +kernel
  rw [rivalInput_search]
  cases h : searchLayers rivalInput [0, 1] [0, 1, 2] with
  | repair best =>
    rw [h] at hreport
    exact ⟨best, rfl, of_decide_eq_true hreport⟩
  | undiagnosed =>
    rw [h] at hreport
    cases hreport
  | unreachableBounds =>
    rw [h] at hreport
    cases hreport
  | elasticInfeasible =>
    rw [h] at hreport
    cases hreport

/-- Dropping the second clause of `rivalModel` costs one. -/
theorem rivalInput_cheaper : IsRemovalRepair rivalInput [1] (fun _ => (1, 0)) ∧
    removalCost rivalInput [1] .dataOffset (fun _ => (1, 0)) = 1 := by
  refine ⟨⟨fun _ => ⟨zero_le_one, le_rfl⟩, point [1, 1], ?_⟩, by decide +kernel⟩
  exact SolverModel.feasible_point (by decide +kernel) (by decide +kernel) ⟨rfl, rfl, rfl⟩

/-- What is named is not the whole repair, and another selection may cost less than the display shows. -/
theorem not_repair_exact :
    (¬ ∀ input : InfeasibleDiagnosisInput ℚ, (∀ m, (input.solveModel m).Exact m) →
      input.model.BlocksUniform input.foldData → ∀ best,
        diagnoseInfeasible input = .repair best → NamedEditsRepair input best) ∧
    ¬ ∀ input : InfeasibleDiagnosisInput ℚ, (∀ m, (input.solveModel m).Exact m) →
      input.model.BlocksUniform input.foldData → ∀ best,
        diagnoseInfeasible input = .repair best → DataSlackLeast input best := by
  constructor
  · intro hnamed
    obtain ⟨best, h, hsignature, hsolution, hcost⟩ := faintInput_repair
    exact faintInput_not_named h hsignature hsolution hcost
      (hnamed faintInput faintInput_exact faintInput_uniform best h)
  · intro hleast
    obtain ⟨best, h, hsignature, hcost⟩ := rivalInput_repair
    obtain ⟨hrepair, hcheaper⟩ := rivalInput_cheaper
    have hle := hleast rivalInput rivalInput_exact rivalInput_uniform best h [1] _
      (by rw [hsignature]; rfl) hrepair
    rw [hcost, hcheaper] at hle
    norm_num at hle

theorem diagnoseInfeasible_sound_faint :
    (∀ best, diagnoseInfeasible faintInput = .repair best → RepairSound faintInput best) ∧
      (diagnoseInfeasible faintInput = .elasticInfeasible → NoRepairSound faintInput) :=
  diagnoseInfeasible_sound faintInput faintInput_exact faintInput_uniform

end Decidb
