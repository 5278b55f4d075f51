import Decidb.Diagnostics.ElasticModel
import Decidb.Linear.System
import Decidb.Solver.Proofs.SolverModelProofs

/-!
# What the elastic program means

Its feasible assignments are the repairs: an assignment of the columns of the model that meets every bound
moved by what the slack columns spend. The slack columns are the ones after the last column of the model,
each wired once.
-/

namespace Decidb

open Linear

variable {K : Type*}

/-! ## Lists with positions -/

theorem forall_mem_mapIdx {α β : Type*} {l : List α} {f : Nat → α → β} {P : β → Prop} :
    (∀ b ∈ l.mapIdx f, P b) ↔ ∀ i a, l[i]? = some a → P (f i a) := by
  constructor
  · intro h i a hi
    refine h _ (List.mem_iff_getElem?.mpr ⟨i, ?_⟩)
    rw [List.getElem?_mapIdx, hi]
    rfl
  · intro h b hb
    obtain ⟨i, hi⟩ := List.mem_iff_getElem?.mp hb
    rw [List.getElem?_mapIdx] at hi
    obtain ⟨a, ha, rfl⟩ := Option.map_eq_some_iff.mp hi
    exact h i a ha

theorem map_filter_zipIdx {α β : Type*} (l : List α) (p : α → Bool) (f : α → β) :
    ((l.zipIdx.filter fun q => p q.1).map fun q => f q.1) = (l.filter p).map f := by
  have hfilter : l.filter p = (l.zipIdx.filter fun q => p q.1).map Prod.fst := by
    conv_lhs => rw [← List.zipIdx_map_fst 0 l]
    rw [List.filter_map]
    rfl
  rw [hfilter, List.map_map]
  rfl

/-! ## Columns -/

/-- The columns of a block. -/
def BlockSlackRef.columns (block : BlockSlackRef K) : List Nat := block.posCol :: block.negCol.toList

/-- The columns allotted are consecutive. -/
theorem allotColumns_columns (next : Nat) (blocks : List (BlockSlackRef K)) :
    (allotColumns next blocks).flatMap (·.columns) =
      List.range' next ((allotColumns next blocks).map (·.width)).sum := by
  induction blocks generalizing next with
  | nil => rfl
  | cons block blocks ih =>
    rw [allotColumns, List.flatMap_cons, ih, List.map_cons, List.sum_cons]
    have hwidth : BlockSlackRef.width
        { block with
          posCol := next
          negCol := if block.sense = .eq then some (next + 1) else none } = block.width := rfl
    rw [hwidth, ← List.range'_append_1]
    congr 1
    unfold BlockSlackRef.columns BlockSlackRef.width
    split <;> simp [List.range']

/-- What a block keeps when it gets its columns. -/
theorem mem_allotColumns {next : Nat} {blocks : List (BlockSlackRef K)} {block : BlockSlackRef K}
    (h : block ∈ allotColumns next blocks) :
    (∃ b ∈ blocks, block.rows = b.rows ∧ block.sense = b.sense ∧ block.tier = b.tier ∧
      block.weight = b.weight ∧ block.quadratic = b.quadratic) ∧
    block.negCol = if block.sense = .eq then some (block.posCol + 1) else none := by
  induction blocks generalizing next with
  | nil => exact absurd h List.not_mem_nil
  | cons b blocks ih =>
    rcases List.mem_cons.mp h with rfl | h
    · exact ⟨⟨b, List.mem_cons_self, rfl, rfl, rfl, rfl, rfl⟩, rfl⟩
    · obtain ⟨⟨c, hc, hshape⟩, hneg⟩ := ih h
      exact ⟨⟨c, List.mem_cons_of_mem _ hc, hshape⟩, hneg⟩

/-- The columns of a block lie in the slack columns. -/
theorem column_mem_range {next : Nat} {blocks : List (BlockSlackRef K)} {block : BlockSlackRef K}
    {c : Nat} (h : block ∈ allotColumns next blocks) (hc : c ∈ block.columns) :
    next ≤ c ∧ c < next + ((allotColumns next blocks).map (·.width)).sum := by
  have hmem : c ∈ (allotColumns next blocks).flatMap (·.columns) :=
    List.mem_flatMap.mpr ⟨block, h, hc⟩
  rw [allotColumns_columns] at hmem
  exact List.mem_range'_1.mp hmem

variable [Field K] [LinearOrder K]

/-! ## Amounts -/

/-- What a block spends at an assignment of its columns. -/
def BlockSlackRef.amountAt (block : BlockSlackRef K) (x : Nat → K) : K × K :=
  (x block.posCol, (block.negCol.map x).getD 0)

/-- What every block spends. -/
def amountsAt (slacks : List (BlockSlackRef K)) (x : Nat → K) : RepairAmounts K := fun i =>
  (slacks[i]?.map (·.amountAt x)).getD (0, 0)

omit [LinearOrder K] in
theorem amountsAt_of_mem_zipIdx {slacks : List (BlockSlackRef K)} {x : Nat → K}
    {q : BlockSlackRef K × Nat} (h : q ∈ slacks.zipIdx) : amountsAt slacks x q.2 = q.1.amountAt x := by
  have hget : slacks[q.2]? = some q.1 := List.mem_zipIdx_iff_getElem?.mp h
  rw [amountsAt, hget]
  rfl

omit [LinearOrder K] in
/-- What is wired into a row is what its blocks take off its left-hand side. -/
theorem eval_wireEntries {block : BlockSlackRef K} {sense : Sense} (x : Nat → K)
    (hsense : block.sense = sense)
    (hneg : block.negCol = if block.sense = .eq then some (block.posCol + 1) else none) :
    Form.eval (wireEntries block sense) x = -loosening sense (block.amountAt x) := by
  cases sense with
  | ge => simp [wireEntries, loosening, BlockSlackRef.amountAt]
  | le => simp [wireEntries, loosening, BlockSlackRef.amountAt]
  | eq =>
    rw [hsense, if_pos rfl] at hneg
    simp only [wireEntries, loosening, BlockSlackRef.amountAt, hneg, Option.getD_some,
      Option.map_some, Form.eval_cons, Form.eval_nil]
    ring

/-- The senses the blocks of a row agree on. -/
def SensesAgree (slacks : List (BlockSlackRef K)) (quadratic : Bool) (r : Nat) (sense : Sense) : Prop :=
  ∀ block ∈ slacks, block.quadratic = quadratic → r ∈ block.rows → block.sense = sense

omit [LinearOrder K] in
theorem eval_slackEntries {next : Nat} {blocks : List (BlockSlackRef K)} {quadratic : Bool} {r : Nat}
    {sense : Sense} (x : Nat → K)
    (hagree : SensesAgree (allotColumns next blocks) quadratic r sense) :
    Form.eval (slackEntries (allotColumns next blocks) quadratic r sense) x =
      -rowLoosening (allotColumns next blocks) (amountsAt (allotColumns next blocks) x) quadratic r
        sense := by
  unfold slackEntries rowLoosening
  rw [Form.eval_flatMap]
  have hamounts : ∀ q ∈ (allotColumns next blocks).zipIdx.filter fun q =>
      q.1.quadratic = quadratic && q.1.rows.contains r,
      loosening sense (amountsAt (allotColumns next blocks) x q.2) =
        loosening sense (q.1.amountAt x) := by
    intro q hq
    rw [amountsAt_of_mem_zipIdx (List.mem_filter.mp hq).1]
  rw [List.map_congr_left hamounts, map_filter_zipIdx _
    (fun block : BlockSlackRef K => block.quadratic = quadratic && block.rows.contains r)
    fun block => loosening sense (block.amountAt x), List.sum_neg, List.map_map]
  refine congrArg List.sum (List.map_congr_left fun block hblock => ?_)
  obtain ⟨hmem, htest⟩ := List.mem_filter.mp hblock
  rw [Bool.and_eq_true, decide_eq_true_eq, List.contains_iff_mem] at htest
  exact eval_wireEntries x (hagree block hmem htest.1 htest.2) (mem_allotColumns hmem).2

omit [LinearOrder K] in
/-- The objective terms of a tier add up to what the tier is paid. -/
theorem eval_tierTotal {next : Nat} {blocks : List (BlockSlackRef K)} (tier : ElasticRepairTier)
    (x : Nat → K) :
    tierTotal (allotColumns next blocks) tier (amountsAt (allotColumns next blocks) x) =
      ((allotColumns next blocks).map fun block => slackTierCoefficient block tier *
        (block.columns.map x).sum).sum := by
  unfold tierTotal
  have hspent : ∀ q ∈ (allotColumns next blocks).zipIdx,
      slackTierCoefficient q.1 tier * q.1.spent (amountsAt (allotColumns next blocks) x q.2) =
        slackTierCoefficient q.1 tier * (q.1.columns.map x).sum := by
    intro q hq
    rw [amountsAt_of_mem_zipIdx hq]
    have hneg := (mem_allotColumns (List.fst_mem_of_mem_zipIdx hq)).2
    unfold BlockSlackRef.spent BlockSlackRef.amountAt BlockSlackRef.columns
    rw [hneg]
    split <;> simp
  rw [List.map_congr_left hspent]
  have hfst : (allotColumns next blocks).zipIdx.map (fun q =>
      slackTierCoefficient q.1 tier * (q.1.columns.map x).sum) =
      ((allotColumns next blocks).zipIdx.map Prod.fst).map fun block =>
        slackTierCoefficient block tier * (block.columns.map x).sum := by
    rw [List.map_map]
    rfl
  rw [hfst, List.zipIdx_map_fst]

/-- Any amounts can be written into the slack columns. -/
theorem exists_slackColumns (blocks : List (BlockSlackRef K)) :
    ∀ (next : Nat) (y : Nat → K) (amounts : RepairAmounts K),
      (∀ i, 0 ≤ (amounts i).1 ∧ 0 ≤ (amounts i).2) →
      ∃ x, AgreeBelow next x y ∧
        (∀ c, next ≤ c → c < next + ((allotColumns next blocks).map (·.width)).sum → 0 ≤ x c) ∧
        ∀ i block, (allotColumns next blocks)[i]? = some block →
          block.amountAt x = ((amounts i).1, if block.sense = .eq then (amounts i).2 else 0) := by
  induction blocks with
  | nil =>
    intro next y amounts _
    refine ⟨y, AgreeBelow.refl _ _, fun c hc hc' => ?_, fun i block h => by cases h⟩
    simp only [allotColumns, List.map_nil, List.sum_nil] at hc'
    omega
  | cons b blocks ih =>
    intro next y amounts hnonneg
    obtain ⟨x, hagree, hx, hamount⟩ := ih (next + b.width)
      (fun c => if c = next then (amounts 0).1 else if c = next + 1 ∧ b.sense = .eq then
        (amounts 0).2 else y c) (fun i => amounts (i + 1)) fun i => hnonneg (i + 1)
    have hwidth : 1 ≤ b.width := by
      unfold BlockSlackRef.width
      split <;> omega
    have hpos : x next = (amounts 0).1 := (hagree next (by omega)).trans (if_pos rfl)
    have hnegcol : b.sense = .eq → x (next + 1) = (amounts 0).2 := by
      intro heq
      have : b.width = 2 := if_pos heq
      exact (hagree (next + 1) (by omega)).trans ((if_neg (by omega)).trans (if_pos ⟨rfl, heq⟩))
    refine ⟨x, fun c hc => ?_, fun c hc hc' => ?_, fun i block h => ?_⟩
    · exact (hagree c (by omega)).trans ((if_neg (by omega)).trans (if_neg (by omega)))
    · by_cases hlt : c < next + b.width
      · by_cases hfirst : c = next
        · rw [hfirst, hpos]
          exact (hnonneg 0).1
        · have heq : b.sense = .eq := by
            by_contra hne
            have : b.width = 1 := if_neg hne
            omega
          have htwo : b.width = 2 := if_pos heq
          obtain rfl : c = next + 1 := by omega
          rw [hnegcol heq]
          exact (hnonneg 0).2
      · refine hx c (by omega) ?_
        rw [allotColumns, List.map_cons, List.sum_cons] at hc'
        have : BlockSlackRef.width
            { b with posCol := next, negCol := if b.sense = .eq then some (next + 1) else none } =
            b.width := rfl
        omega
    · cases i with
      | zero =>
        obtain rfl : _ = block := Option.some.inj h
        unfold BlockSlackRef.amountAt
        by_cases heq : b.sense = .eq
        · simp [heq, hpos, hnegcol heq]
        · simp [heq, hpos]
      | succ i => exact hamount i block h

/-! ## Bounds moved -/

theorem meetsRhs_shift [IsStrictOrderedRing K] (sense : Sense) (v t : K) (rhs : SolverRhs K) :
    MeetsRhs sense (v + -t) rhs ↔ MeetsRhs sense v (rhs.shift t) := by
  induction rhs using WithBot.recBotCoe with
  | bot =>
    have hfin : ∀ k : K, SolverRhs.fin k ≠ (⊥ : SolverRhs K) := fun k => WithBot.coe_ne_bot
    cases sense with
    | le => exact iff_of_false (fun h => hfin _ (le_bot_iff.mp h)) fun h => hfin _ (le_bot_iff.mp h)
    | ge => exact iff_of_true bot_le bot_le
    | eq => exact iff_of_false (hfin _) (hfin _)
  | coe rhs =>
    induction rhs using WithTop.recTopCoe with
    | top =>
      have hfin : ∀ k : K, ((k : WithTop K) : WithBot (WithTop K)) ≠ ((⊤ : WithTop K) :
          WithBot (WithTop K)) := fun k h => WithTop.coe_ne_top (WithBot.coe_inj.mp h)
      cases sense with
      | le => exact iff_of_true (WithBot.coe_le_coe.mpr le_top) (WithBot.coe_le_coe.mpr le_top)
      | ge =>
        refine iff_of_false (fun h => ?_) fun h => ?_
        · exact WithTop.coe_ne_top (top_le_iff.mp (WithBot.coe_le_coe.mp h))
        · exact WithTop.coe_ne_top (top_le_iff.mp (WithBot.coe_le_coe.mp h))
      | eq => exact iff_of_false (hfin _) (hfin _)
    | coe k =>
      have hshift : SolverRhs.shift ((k : WithTop K) : WithBot (WithTop K)) t = SolverRhs.fin (k + t) :=
        rfl
      rw [hshift]
      cases sense with
      | le =>
        rw [show ((k : WithTop K) : WithBot (WithTop K)) = SolverRhs.fin k from rfl, meetsRhs_le_fin,
          meetsRhs_le_fin]
        constructor <;> intro h <;> linarith
      | ge =>
        rw [show ((k : WithTop K) : WithBot (WithTop K)) = SolverRhs.fin k from rfl, meetsRhs_ge_fin,
          meetsRhs_ge_fin]
        constructor <;> intro h <;> linarith
      | eq =>
        rw [show ((k : WithTop K) : WithBot (WithTop K)) = SolverRhs.fin k from rfl, meetsRhs_eq_fin,
          meetsRhs_eq_fin]
        constructor <;> intro h <;> linarith

/-! ## The blocks of a model -/

/-- The slacks `BuildElasticModel` allots. -/
theorem buildElasticModel_slacks (sqrt : K → K) (base : SolverModel K) (foldData : Bool) :
    (buildElasticModel sqrt base foldData).slacks = allotColumns base.numVars
      (linearBlocks sqrt foldData base ++ quadraticBlocks sqrt base) := rfl

/-- A linear block takes the rows of its key, or the one row that does not fold. -/
theorem mem_linearBlocks {sqrt : K → K} {foldData : Bool} {base : SolverModel K}
    {block : BlockSlackRef K} (h : block ∈ linearBlocks sqrt foldData base) :
    ∃ first row, base.constraints[first]? = some row ∧ row.provenance.isSlackable = true ∧
      block.sense = row.sense ∧ block.quadratic = false ∧
      block.tier = row.provenance.tier ∧
      block.weight = (if row.provenance.isDataOffset then 1
        else editableWeight (refNorm sqrt base) (row.norm sqrt)) ∧
      ((row.provenance.folds foldData = true ∧
        block.rows = blockRows foldData base.constraints row.provenance) ∨ block.rows = [first]) := by
  obtain ⟨⟨row, first⟩, hq, hblock⟩ := List.mem_filterMap.mp h
  have hrow : base.constraints[first]? = some row := List.mem_zipIdx_iff_getElem?.mp hq
  dsimp only at hblock
  cases hslack : row.provenance.isSlackable with
  | false =>
    rw [hslack] at hblock
    cases hblock
  | true =>
    rw [hslack, Bool.not_true, if_neg Bool.false_ne_true] at hblock
    by_cases hfolds : row.provenance.folds foldData = true
    · rw [if_pos hfolds] at hblock
      split at hblock
      · cases hblock
      · obtain rfl := Option.some.inj hblock
        exact ⟨first, row, hrow, hslack, rfl, rfl, rfl, rfl, Or.inl ⟨hfolds, rfl⟩⟩
    · rw [if_neg hfolds] at hblock
      obtain rfl := Option.some.inj hblock
      exact ⟨first, row, hrow, hslack, rfl, rfl, rfl, rfl, Or.inr rfl⟩

omit [Field K] [LinearOrder K] in
theorem mem_blockRows {foldData : Bool} {constraints : List (SolverRow K)}
    {p : ConstraintProvenance} {r : Nat} (h : r ∈ blockRows foldData constraints p) :
    ∃ row, constraints[r]? = some row ∧ row.provenance.isSlackable = true ∧
      row.provenance.folds foldData = true ∧
      row.provenance.blockKey foldData = p.blockKey foldData := by
  obtain ⟨⟨row, i⟩, hq, rfl⟩ := List.mem_map.mp h
  obtain ⟨hmem, htest⟩ := List.mem_filter.mp hq
  rw [Bool.and_eq_true, Bool.and_eq_true, decide_eq_true_eq] at htest
  exact ⟨row, List.mem_zipIdx_iff_getElem?.mp hmem, htest.1.1, htest.1.2, htest.2⟩

theorem mem_quadraticBlocks {sqrt : K → K} {base : SolverModel K} {block : BlockSlackRef K}
    (h : block ∈ quadraticBlocks sqrt base) :
    ∃ r row, base.quadraticConstraints[r]? = some row ∧ block.sense = row.sense ∧
      block.quadratic = true ∧ block.rows = [r] ∧
      block.weight = editableWeight (refNorm sqrt base) (row.norm sqrt) := by
  obtain ⟨⟨row, r⟩, hq, hblock⟩ := List.mem_filterMap.mp h
  dsimp only at hblock
  split at hblock
  · cases hblock
  · obtain rfl := Option.some.inj hblock
    exact ⟨r, row, List.mem_zipIdx_iff_getElem?.mp hq, rfl, rfl, rfl, rfl⟩

/-- With uniform blocks every slack of a row has the sense of the row. -/
theorem sensesAgree_linear {sqrt : K → K} {foldData : Bool} {base : SolverModel K}
    (huniform : base.BlocksUniform foldData) {r : Nat} {row : SolverRow K}
    (hr : base.constraints[r]? = some row) :
    SensesAgree (buildElasticModel sqrt base foldData).slacks false r row.sense := by
  intro block hblock hlinear hmem
  obtain ⟨⟨b, hb, hrows, hsense, -, -, hquadratic⟩, -⟩ := mem_allotColumns hblock
  rw [hrows] at hmem
  rw [hsense]
  rcases List.mem_append.mp hb with hb | hb
  · obtain ⟨first, row', hfirst, hslack', hs, -, -, -, hwhich⟩ := mem_linearBlocks hb
    rw [hs]
    rcases hwhich with ⟨hfolds', hrows'⟩ | hrows'
    · rw [hrows'] at hmem
      obtain ⟨row'', hrow'', hslack, hfolds, hkey⟩ := mem_blockRows hmem
      obtain rfl : row = row'' := Option.some.inj (hr.symm.trans hrow'')
      exact (huniform row (List.mem_of_getElem? hr) row' (List.mem_of_getElem? hfirst) hslack
        hslack' hfolds hfolds' hkey).symm
    · rw [hrows', List.mem_singleton] at hmem
      rw [← hmem, hr] at hfirst
      rw [Option.some.inj hfirst]
  · obtain ⟨-, -, -, -, hq, -⟩ := mem_quadraticBlocks hb
    rw [hlinear, hq] at hquadratic
    cases hquadratic

theorem sensesAgree_quadratic {sqrt : K → K} {foldData : Bool} {base : SolverModel K} {r : Nat}
    {row : SolverQuadraticRow K} (hr : base.quadraticConstraints[r]? = some row) :
    SensesAgree (buildElasticModel sqrt base foldData).slacks true r row.sense := by
  intro block hblock hquad hmem
  obtain ⟨⟨b, hb, hrows, hsense, -, -, hquadratic⟩, -⟩ := mem_allotColumns hblock
  rw [hrows] at hmem
  rw [hsense]
  rcases List.mem_append.mp hb with hb | hb
  · obtain ⟨-, -, -, -, -, hq, -⟩ := mem_linearBlocks hb
    rw [hquad, hq] at hquadratic
    cases hquadratic
  · obtain ⟨r', row', hr', hs, -, hrows', -⟩ := mem_quadraticBlocks hb
    rw [hrows', List.mem_singleton] at hmem
    rw [← hmem, hr] at hr'
    rw [hs, Option.some.inj hr']

section

variable [IsStrictOrderedRing K]

/-- The reference norm is positive. -/
theorem refNorm_pos (sqrt : K → K) (base : SolverModel K) : 0 < refNorm sqrt base := by
  unfold refNorm
  cases h : ((editableNorms sqrt base).filter fun n => 0 < n).min? with
  | none => exact one_pos
  | some n =>
    have hn := List.min?_mem h
    exact of_decide_eq_true (List.mem_filter.mp hn).2

theorem editableWeight_pos (sqrt : K → K) (base : SolverModel K) (norm : K) :
    0 < editableWeight (refNorm sqrt base) norm := by
  unfold editableWeight
  split
  · exact div_pos (refNorm_pos sqrt base) (by assumption)
  · exact one_pos

/-- No slack has a negative coefficient in a tier. -/
theorem slackTierCoefficient_nonneg {sqrt : K → K} {foldData : Bool} {base : SolverModel K}
    {block : BlockSlackRef K} (h : block ∈ (buildElasticModel sqrt base foldData).slacks)
    (tier : ElasticRepairTier) : 0 ≤ slackTierCoefficient block tier := by
  obtain ⟨⟨b, hb, -, -, -, hweight, -⟩, -⟩ := mem_allotColumns h
  have hpos : 0 < block.weight := by
    rw [hweight]
    rcases List.mem_append.mp hb with hb | hb
    · obtain ⟨-, row, -, -, -, -, -, hw, -⟩ := mem_linearBlocks hb
      rw [hw]
      split
      · exact one_pos
      · exact editableWeight_pos sqrt base _
    · obtain ⟨-, row, -, -, -, -, hw⟩ := mem_quadraticBlocks hb
      rw [hw]
      exact editableWeight_pos sqrt base _
  unfold slackTierCoefficient
  split
  · exact le_rfl
  · split
    · exact hpos.le
    · exact zero_le_one

/-! ## The elastic program is the loosened model -/

theorem slackColumn_inBox (v : K) : (slackColumn : SolverColumn K).InBox v ↔ 0 ≤ v := by
  have hinf : (0 : K) < effectiveInfinity := by
    unfold effectiveInfinity
    positivity
  have hbelow : (slackColumn : SolverColumn K).openBelow = false := by
    unfold SolverColumn.openBelow slackColumn
    rw [decide_eq_false_iff_not]
    dsimp only
    linarith
  have habove : (slackColumn : SolverColumn K).openAbove = true := by
    unfold SolverColumn.openAbove slackColumn effectiveInfinity
    rw [decide_eq_true_eq]
    exact pow_le_pow_right₀ (by norm_num) (by norm_num)
  constructor
  · intro h
    exact h.lower_le.resolve_left (by rw [hbelow]; exact Bool.false_ne_true)
  · exact fun h => ⟨Or.inr h, Or.inl habove⟩

omit [Field K] [LinearOrder K] [IsStrictOrderedRing K] in
/-- What is asked of the columns of the model and of some appended ones. -/
theorem forall_columns_append_replicate {columns : List (SolverColumn K)} {c : SolverColumn K} {w : Nat}
    {P : SolverColumn K → K → Prop} (x : Nat → K) :
    (∀ i (column : SolverColumn K), (columns ++ List.replicate w c)[i]? = some column →
      P column (x i)) ↔
      (∀ i (column : SolverColumn K), columns[i]? = some column → P column (x i)) ∧
      ∀ i, columns.length ≤ i → i < columns.length + w → P c (x i) := by
  constructor
  · intro h
    refine ⟨fun i column hi => h i column ?_, fun i hi hlt => h i c ?_⟩
    · rw [List.getElem?_append_left (List.getElem?_eq_some_iff.mp hi).1]
      exact hi
    · rw [List.getElem?_append_right hi, List.getElem?_replicate, if_pos (by omega)]
  · rintro ⟨hl, hr⟩ i column hi
    by_cases hlt : i < columns.length
    · rw [List.getElem?_append_left hlt] at hi
      exact hl i column hi
    · rw [List.getElem?_append_right (by omega), List.getElem?_replicate] at hi
      split at hi
      · obtain rfl := Option.some.inj hi
        exact hr i (by omega) (by omega)
      · cases hi

omit [IsStrictOrderedRing K] in
/-- What is asked of the columns of the elastic program: what the model asks of its own, and the same of
every slack. -/
theorem forall_elasticColumns (sqrt : K → K) (base : SolverModel K) (foldData : Bool)
    {P : SolverColumn K → K → Prop}
    (hP : ∀ c d : SolverColumn K, c.domain = d.domain → ∀ v, P c v ↔ P d v) (x : Nat → K) :
    (∀ i (column : SolverColumn K),
        (buildElasticModel sqrt base foldData).model.columns[i]? = some column → P column (x i)) ↔
      (∀ i (column : SolverColumn K), base.columns[i]? = some column → P column (x i)) ∧
      ∀ c, base.numVars ≤ c → c < base.numVars +
        ((buildElasticModel sqrt base foldData).slacks.map (·.width)).sum → P slackColumn (x c) := by
  have hzeroed : (base.columns.map fun column => { column with objCoeff := 0 }).length =
      base.numVars := List.length_map _
  refine (forall_columns_append_replicate x).trans ?_
  rw [hzeroed]
  refine and_congr_left' ?_
  have hdomain : ({ columns := base.columns.map fun column => { column with objCoeff := 0 } } :
      SolverModel K).columns.map (·.domain) = base.columns.map (·.domain) := by
    rw [List.map_map]
    rfl
  exact SolverModel.forall_columns_congr hP hdomain x

/-- No slack is negative. -/
theorem slackColumns_nonneg {sqrt : K → K} {base : SolverModel K} {foldData : Bool} {x : Nat → K}
    (h : (buildElasticModel sqrt base foldData).model.Feasible x) {c : Nat} (hc : base.numVars ≤ c)
    (hlt : c < base.numVars + ((buildElasticModel sqrt base foldData).slacks.map (·.width)).sum) :
    0 ≤ x c :=
  (slackColumn_inBox _).mp (((forall_elasticColumns sqrt base foldData
    (fun c d h v => SolverColumn.inBox_congr (c := c) (d := d) h v) x).mp h.boxes).2 c hc hlt)

/-- **The feasible assignments of the elastic program are those of the model loosened by what the slack
columns spend, none of them negative.** -/
theorem buildElasticModel_feasible_iff {sqrt : K → K} {foldData : Bool} {base : SolverModel K}
    (huniform : base.BlocksUniform foldData) (x : Nat → K) :
    (buildElasticModel sqrt base foldData).model.Feasible x ↔
      (base.loosen (buildElasticModel sqrt base foldData).slacks
        (amountsAt (buildElasticModel sqrt base foldData).slacks x)).Feasible x ∧
      ∀ c, base.numVars ≤ c → c < base.numVars +
        ((buildElasticModel sqrt base foldData).slacks.map (·.width)).sum → 0 ≤ x c := by
  have hbox := forall_elasticColumns sqrt base foldData
    (fun c d h v => SolverColumn.inBox_congr (c := c) (d := d) h v) x
  have hint := forall_elasticColumns sqrt base foldData
    (fun c d h v => SolverColumn.integral_congr (c := c) (d := d) h v) x
  have hrows : (∀ row ∈ (buildElasticModel sqrt base foldData).model.constraints, row.Holds x) ↔
      ∀ row ∈ (base.loosen (buildElasticModel sqrt base foldData).slacks
        (amountsAt (buildElasticModel sqrt base foldData).slacks x)).constraints, row.Holds x := by
    refine forall_mem_mapIdx.trans (Iff.trans ?_ forall_mem_mapIdx.symm)
    refine forall_congr' fun r => forall_congr' fun row => forall_congr' fun hr => ?_
    unfold SolverRow.Holds
    rw [Form.eval_append, eval_slackEntries x (sensesAgree_linear huniform hr)]
    exact meetsRhs_shift _ _ _ _
  have hquad : (∀ row ∈ (buildElasticModel sqrt base foldData).model.quadraticConstraints,
      row.Holds x) ↔
      ∀ row ∈ (base.loosen (buildElasticModel sqrt base foldData).slacks
        (amountsAt (buildElasticModel sqrt base foldData).slacks x)).quadraticConstraints,
        row.Holds x := by
    refine forall_mem_mapIdx.trans (Iff.trans ?_ forall_mem_mapIdx.symm)
    refine forall_congr' fun r => forall_congr' fun row => forall_congr' fun hr => ?_
    unfold SolverQuadraticRow.Holds SolverQuadraticRow.value
    rw [Form.eval_append, eval_slackEntries x (sensesAgree_quadratic hr), add_right_comm]
    exact meetsRhs_shift _ _ _ _
  constructor
  · intro h
    obtain ⟨hb, hs⟩ := hbox.mp h.boxes
    exact ⟨⟨⟨hb, hrows.mp h.constraints, hquad.mp h.quadraticConstraints, h.indicatorConstraints,
      h.generalConstraints⟩, (hint.mp h.integral).1⟩,
      fun c hc hlt => (slackColumn_inBox _).mp (hs c hc hlt)⟩
  · rintro ⟨h, hs⟩
    refine ⟨⟨hbox.mpr ⟨h.boxes, fun c hc hlt => (slackColumn_inBox _).mpr (hs c hc hlt)⟩,
      hrows.mpr h.constraints, hquad.mpr h.quadraticConstraints, h.indicatorConstraints,
      h.generalConstraints⟩, hint.mpr ⟨h.integral, fun c _ _ hinteger => ?_⟩⟩
    cases hinteger

end

/-! ## A model reads its own columns -/

/-- Feasibility depends on the columns of the model. -/
theorem SolverModel.WellScoped.feasible_of_agree {model : SolverModel K} (h : model.WellScoped)
    {x y : Nat → K} (hxy : AgreeBelow model.numVars x y) (hx : model.Feasible x) : model.Feasible y := by
  have hcol : ∀ i (column : SolverColumn K), model.columns[i]? = some column → x i = y i :=
    fun i column hi => hxy i (List.getElem?_eq_some_iff.mp hi).1
  refine ⟨⟨fun i column hi => hcol i column hi ▸ hx.boxes i column hi, fun row hrow => ?_,
    fun row hrow => ?_, fun indicator hind => ?_, fun general hgen => ?_⟩,
    fun i column hi => hcol i column hi ▸ hx.integral i column hi⟩
  · have hform := h.constraints row hrow
    unfold SolverRow.Holds
    rw [← Form.eval_congr fun e he => hxy e.1 (hform e he)]
    exact hx.constraints row hrow
  · obtain ⟨hlinear, hquad⟩ := h.quadraticConstraints row hrow
    have hproducts : Form.eval row.quad (fun p => x p.1 * x p.2) =
        Form.eval row.quad fun p => y p.1 * y p.2 := by
      refine Form.eval_congr fun e he => ?_
      rw [hxy _ (hquad e he).1, hxy _ (hquad e he).2]
    unfold SolverQuadraticRow.Holds SolverQuadraticRow.value
    rw [← Form.eval_congr fun e he => hxy e.1 (hlinear e he), ← hproducts]
    exact hx.quadraticConstraints row hrow
  · obtain ⟨hbinary, hform⟩ := h.indicatorConstraints indicator hind
    intro hone
    rw [← hxy _ hbinary] at hone
    rw [← Form.eval_congr fun e he => hxy e.1 (hform e he)]
    exact hx.indicatorConstraints indicator hind hone
  · obtain ⟨hresult, hargs⟩ := h.generalConstraints general hgen
    have hx' := hx.generalConstraints general hgen
    have hmap : ∀ f : K → K, general.argumentColumns.map (fun c => f (x c)) =
        general.argumentColumns.map fun c => f (y c) :=
      fun f => List.map_congr_left fun c hc => congrArg f (hxy c (hargs c hc))
    unfold SolverGeneral.Holds at hx' ⊢
    rw [← hxy _ hresult]
    cases hkind : general.kind with
    | abs =>
      rw [hkind] at hx'
      exact (hmap fun v => |v|) ▸ hx'
    | min =>
      rw [hkind] at hx'
      exact (hmap fun v => v) ▸ hx'
    | max =>
      rw [hkind] at hx'
      exact (hmap fun v => v) ▸ hx'

omit [LinearOrder K] in
theorem SolverModel.WellScoped.loosen {model : SolverModel K} (h : model.WellScoped)
    (slacks : List (BlockSlackRef K)) (amounts : RepairAmounts K) :
    (model.loosen slacks amounts).WellScoped := by
  refine ⟨?_, ?_, h.indicatorConstraints, h.generalConstraints⟩
  · exact forall_mem_mapIdx.mpr fun r row hr => h.constraints row (List.mem_of_getElem? hr)
  · exact forall_mem_mapIdx.mpr fun r row hr => h.quadraticConstraints row (List.mem_of_getElem? hr)

theorem SolverModel.WellScoped.dropRemovalGroups {model : SolverModel K} (h : model.WellScoped)
    (ids : List Nat) : (dropRemovalGroups model ids).WellScoped where
  constraints := fun row hrow => h.constraints row (List.mem_filter.mp hrow).1
  quadraticConstraints := fun row hrow => h.quadraticConstraints row (List.mem_filter.mp hrow).1
  indicatorConstraints := fun row hrow => h.indicatorConstraints row (List.mem_filter.mp hrow).1
  generalConstraints := fun row hrow => h.generalConstraints row (List.mem_filter.mp hrow).1

/-- Dropping groups keeps the blocks uniform. -/
theorem SolverModel.BlocksUniform.dropRemovalGroups {model : SolverModel K} {foldData : Bool}
    (h : model.BlocksUniform foldData) (ids : List Nat) :
    (Decidb.dropRemovalGroups model ids).BlocksUniform foldData :=
  fun r hr s hs => h r (List.mem_filter.mp hr).1 s (List.mem_filter.mp hs).1

section

variable [IsStrictOrderedRing K]

/-- **Every repair is a feasible assignment of the elastic program that pays no more, and conversely.** -/
theorem SolverModel.IsRepair.exists_feasible {sqrt : K → K} {foldData : Bool} {base : SolverModel K}
    (huniform : base.BlocksUniform foldData) (hscoped : base.WellScoped) {amounts : RepairAmounts K}
    (h : base.IsRepair (buildElasticModel sqrt base foldData).slacks amounts) :
    ∃ x, (buildElasticModel sqrt base foldData).model.Feasible x ∧
      ∀ tier, tierTotal (buildElasticModel sqrt base foldData).slacks tier
        (amountsAt (buildElasticModel sqrt base foldData).slacks x) =
        tierTotal (buildElasticModel sqrt base foldData).slacks tier amounts := by
  set slacks := (buildElasticModel sqrt base foldData).slacks
  obtain ⟨y, hy⟩ := h.isFeasible
  obtain ⟨x, hagree, hnonneg, hamount⟩ := exists_slackColumns
    (linearBlocks sqrt foldData base ++ quadraticBlocks sqrt base) base.numVars y amounts h.nonneg
  have hat : ∀ q ∈ slacks.zipIdx, amountsAt slacks x q.2 =
      ((amounts q.2).1, if q.1.sense = .eq then (amounts q.2).2 else 0) := by
    intro q hq
    rw [amountsAt_of_mem_zipIdx hq]
    exact hamount q.2 q.1 (List.mem_zipIdx_iff_getElem?.mp hq)
  -- a block that is no equality has one slack, and only that one moves its rows
  have hloosening : ∀ quadratic r sense, SensesAgree slacks quadratic r sense →
      rowLoosening slacks (amountsAt slacks x) quadratic r sense =
        rowLoosening slacks amounts quadratic r sense := by
    intro quadratic r sense hsenses
    unfold rowLoosening
    refine congrArg List.sum (List.map_congr_left fun q hq => ?_)
    obtain ⟨hmem, htest⟩ := List.mem_filter.mp hq
    rw [Bool.and_eq_true, decide_eq_true_eq, List.contains_iff_mem] at htest
    have hsense := hsenses q.1 (List.fst_mem_of_mem_zipIdx hmem) htest.1 htest.2
    rw [hat q hmem, hsense]
    cases sense <;> simp [loosening]
  have hmodel : base.loosen slacks (amountsAt slacks x) = base.loosen slacks amounts := by
    unfold SolverModel.loosen
    congr 1
    · refine List.ext_getElem? fun r => ?_
      rw [List.getElem?_mapIdx, List.getElem?_mapIdx]
      cases hr : base.constraints[r]? with
      | none => rfl
      | some row =>
        rw [Option.map_some, Option.map_some,
          hloosening false r row.sense (sensesAgree_linear huniform hr)]
    · refine List.ext_getElem? fun r => ?_
      rw [List.getElem?_mapIdx, List.getElem?_mapIdx]
      cases hr : base.quadraticConstraints[r]? with
      | none => rfl
      | some row =>
        rw [Option.map_some, Option.map_some,
          hloosening true r row.sense (sensesAgree_quadratic hr)]
  refine ⟨x, (buildElasticModel_feasible_iff huniform x).mpr ⟨?_, hnonneg⟩, fun tier => ?_⟩
  · rw [hmodel]
    exact (hscoped.loosen slacks amounts).feasible_of_agree hagree.symm hy
  · unfold tierTotal
    refine congrArg List.sum (List.map_congr_left fun q hq => ?_)
    rw [hat q hq]
    unfold BlockSlackRef.spent
    split <;> simp

/-- A feasible assignment of the elastic program is a repair. -/
theorem isRepair_of_feasible {sqrt : K → K} {foldData : Bool} {base : SolverModel K}
    (huniform : base.BlocksUniform foldData) {x : Nat → K}
    (h : (buildElasticModel sqrt base foldData).model.Feasible x) :
    base.IsRepair (buildElasticModel sqrt base foldData).slacks
      (amountsAt (buildElasticModel sqrt base foldData).slacks x) := by
  obtain ⟨hfeasible, hnonneg⟩ := (buildElasticModel_feasible_iff huniform x).mp h
  refine ⟨fun i => ?_, x, hfeasible⟩
  unfold amountsAt
  cases hi : (buildElasticModel sqrt base foldData).slacks[i]? with
  | none => exact ⟨le_rfl, le_rfl⟩
  | some block =>
    have hmem := List.mem_of_getElem? hi
    have hcol : ∀ c ∈ block.columns, 0 ≤ x c := fun c hc =>
      have hrange := column_mem_range hmem hc
      hnonneg c hrange.1 hrange.2
    refine ⟨hcol _ List.mem_cons_self, ?_⟩
    show 0 ≤ (block.negCol.map x).getD 0
    cases hneg : block.negCol with
    | none => exact le_rfl
    | some c => exact hcol c (by simp [BlockSlackRef.columns, hneg])

end

end Decidb
