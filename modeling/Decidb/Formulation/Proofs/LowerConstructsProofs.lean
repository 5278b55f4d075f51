import Decidb.Formulation.LowerConstructs
import Decidb.Formulation.Proofs.ColumnLayoutProofs

/-!
# Lowered rows say what the conditional ones say

The boxes the constants are derived from are those the model declares, so a lowered row is met by every
value of the columns when its condition does not hold and says the same as before when it does.
-/

namespace Decidb

open Linear

variable {input : SolverInput} {layout : ColumnLayout} {a : Nat → ℚ}

/-! ## Boxes -/

/-- The column the model declares at a place. -/
def Declares (input : SolverInput) (layout : ColumnLayout) (col : Nat) (b : BuiltColumn) : Prop :=
  (∃ v inst, inst < layout.numInstances v ∧ layout.instanceColumn v inst = col ∧
    b = builtVariableColumn input v) ∨
  ∃ g box, input.globalColumns[g]? = some box ∧ col = layout.globalBlockStart + g ∧
    b = builtGlobalColumn box

/-- How many columns there are. -/
def columnCount (input : SolverInput) (layout : ColumnLayout) : Nat :=
  layout.globalBlockStart + input.globalColumns.length

theorem exists_declares {col : Nat} (h : col < columnCount input layout) :
    ∃ b, Declares input layout col b := by
  by_cases hcol : col < layout.globalBlockStart
  · obtain ⟨v, inst, -, hinst, heq⟩ := ColumnLayout.ownerOf_spec hcol
    exact ⟨_, Or.inl ⟨v, inst, hinst, heq, rfl⟩⟩
  · have hg : col - layout.globalBlockStart < input.globalColumns.length := by
      unfold columnCount at h
      omega
    exact ⟨_, Or.inr ⟨_, _, List.getElem?_eq_getElem hg, by omega, rfl⟩⟩

theorem admits_of_declares (h : InBuiltBoxes input layout a) {col : Nat} {b : BuiltColumn}
    (hb : Declares input layout col b) : b.Admits (a col) := by
  rcases hb with ⟨v, inst, hinst, rfl, rfl⟩ | ⟨g, box, hbox, rfl, rfl⟩
  · exact h.decisions v inst hinst
  · exact h.globals g box hbox

/-- A binary column keeps the ends of its variable. -/
theorem builtVariableColumn_ends (input : SolverInput) (v : Nat) :
    (builtVariableColumn input v).lo = (builtVariableColumn input v).lower ∧
      (builtVariableColumn input v).hi = (builtVariableColumn input v).upper := by
  unfold BuiltColumn.lo BuiltColumn.hi
  by_cases hbin : (builtVariableColumn input v).isBinary = true
  · have hends := hbin
    unfold builtVariableColumn at hends
    simp only [Bool.and_eq_true, Bool.not_eq_true', Bool.or_eq_false_iff, decide_eq_false_iff_not,
      not_lt] at hends
    rw [if_pos hbin, if_pos hbin]
    exact ⟨max_eq_left hends.2.1, min_eq_left hends.2.2⟩
  · rw [if_neg hbin, if_neg hbin]
    exact ⟨rfl, rfl⟩

/-- The box a constant is derived from is the declared one, but for an upper end that is open in
both. -/
theorem flatColumnBox_spec {col : Nat} {b : BuiltColumn} (h : Declares input layout col b) :
    (flatColumnBox input (.ofSolvedModel input) layout col).1 = b.lo ∧
      (b.hi = (flatColumnBox input (.ofSolvedModel input) layout col).2 ∨
        b.hi = min (flatColumnBox input (.ofSolvedModel input) layout col).2 openBound) := by
  unfold flatColumnBox
  rcases h with ⟨v, inst, hinst, rfl, rfl⟩ | ⟨g, box, hbox, rfl, rfl⟩
  · rw [if_neg (not_le.mpr (ColumnLayout.instanceColumn_lt hinst)),
      ColumnLayout.ownerOf_instanceColumn hinst]
    obtain ⟨hlo, hhi⟩ := builtVariableColumn_ends input v
    rw [hlo, hhi]
    refine ⟨rfl, ?_⟩
    by_cases hbool : input.variableTypes[v]? = some .boolean
    · left
      simp only [builtVariableColumn, hbool, if_true, SolvedBox.ofSolvedModel, Option.getD_some]
      exact min_comm _ _
    · right
      simp only [builtVariableColumn, hbool, if_false, SolvedBox.ofSolvedModel, Option.getD_some]
      exact min_comm _ _
  · have hlower : (input.globalColumns.map (·.lower)).getD g 0 = box.lower := by
      simp [List.getD, hbox]
    have hupper : (input.globalColumns.map (·.upper)).getD g 0 = box.upper := by
      simp [List.getD, hbox]
    have htype : input.isBooleanGlobal g = box.isInteger := by
      simp [SolverInput.isBooleanGlobal, hbox]
    rw [if_pos (Nat.le_add_right _ _), Nat.add_sub_cancel_left]
    simp only [SolvedBox.ofSolvedModel, hlower, hupper, htype]
    unfold BuiltColumn.lo BuiltColumn.hi builtGlobalColumn
    cases box.isInteger
    · exact ⟨rfl, Or.inl rfl⟩
    · exact ⟨rfl, Or.inl rfl⟩

/-- **The values the model admits lie within the box the constants are derived from.** -/
theorem flatColumnBox_contains {col : Nat} {b : BuiltColumn} (h : Declares input layout col b) :
    (flatColumnBox input (.ofSolvedModel input) layout col).1 ≤ b.lo ∧
      b.hi ≤ (flatColumnBox input (.ofSolvedModel input) layout col).2 := by
  obtain ⟨hlo, hhi⟩ := flatColumnBox_spec h
  refine ⟨hlo.le, ?_⟩
  rcases hhi with hhi | hhi
  · exact hhi.le
  · exact hhi.le.trans (min_le_left _ _)

/-- An end is open in the derived box exactly when the model declares it open. -/
theorem isOpenEnd_reachEnd {col : Nat} {b : BuiltColumn} (h : Declares input layout col b)
    (hiEnd : Bool) (c : ℚ) :
    isOpenEnd (reachEnd hiEnd c (flatColumnBox input (.ofSolvedModel input) layout col)) =
      isOpenEnd (reachEnd hiEnd c (b.lo, b.hi)) := by
  obtain ⟨hlo, hhi⟩ := flatColumnBox_spec h
  unfold reachEnd
  split
  · rcases hhi with hhi | hhi
    · rw [hhi]
    · show _ = isOpenEnd b.hi
      rw [hhi]
      unfold isOpenEnd
      have hopen : solverInfinity ≤ openBound := by norm_num [solverInfinity, openBound]
      have hneg : ¬ openBound ≤ -solverInfinity := by norm_num [solverInfinity, openBound]
      simp only [le_min_iff, hopen, and_true, min_le_iff, hneg, or_false]
  · rw [hlo]

/-- A column of the model stays on its side of an end that is not open. -/
theorem mul_le_reachEnd (h : InBuiltBoxes input layout a) {col : Nat} {b : BuiltColumn}
    (hb : Declares input layout col b) {c : ℚ} (hc : c ≠ 0) {hiEnd : Bool}
    (hend : isOpenEnd (reachEnd hiEnd c (flatColumnBox input (.ofSolvedModel input) layout col)) =
      false) :
    if hiEnd then c * a col ≤ c * reachEnd hiEnd c (flatColumnBox input (.ofSolvedModel input)
        layout col)
      else c * reachEnd hiEnd c (flatColumnBox input (.ofSolvedModel input) layout col) ≤
        c * a col := by
  obtain ⟨hlo, hhi⟩ := flatColumnBox_contains hb
  obtain ⟨hlower, hupper, -⟩ := admits_of_declares h hb
  rw [isOpenEnd_reachEnd hb] at hend
  unfold isOpenEnd reachEnd at hend
  unfold reachEnd
  simp only [Bool.or_eq_false_iff, decide_eq_false_iff_not, not_le] at hend
  cases hiEnd with
  | true =>
    rw [if_pos rfl]
    by_cases hpos : 0 < c
    · simp only [hpos, decide_true, if_true] at hend ⊢
      have hle : a col ≤ b.hi := hupper.resolve_left (not_le.mpr hend.1)
      exact mul_le_mul_of_nonneg_left (hle.trans hhi) hpos.le
    · have hneg : c < 0 := lt_of_le_of_ne (not_lt.mp hpos) hc
      simp only [hpos, decide_false, Bool.false_eq_true, if_false] at hend ⊢
      have hle : b.lo ≤ a col := hlower.resolve_left (not_le.mpr hend.2)
      exact mul_le_mul_of_nonpos_left (hlo.trans hle) hneg.le
  | false =>
    rw [if_neg Bool.false_ne_true]
    by_cases hpos : 0 < c
    · simp only [hpos, decide_true, Bool.true_eq_false, if_false] at hend ⊢
      have hle : b.lo ≤ a col := hlower.resolve_left (not_le.mpr hend.2)
      exact mul_le_mul_of_nonneg_left (hlo.trans hle) hpos.le
    · have hneg : c < 0 := lt_of_le_of_ne (not_lt.mp hpos) hc
      simp only [hpos, decide_false, if_true] at hend ⊢
      have hle : a col ≤ b.hi := hupper.resolve_left (not_le.mpr hend.1)
      exact mul_le_mul_of_nonpos_left (hle.trans hhi) hneg.le

/-! ## Reach -/

/-- **A row is refused exactly when the model declares open an end its reach depends on.** -/
theorem flatRowReach_error_iff {hiEnd : Bool} {form : Form Nat ℚ}
    (hcols : ∀ t ∈ form, t.1 < columnCount input layout) :
    (∃ col, flatRowReach input (.ofSolvedModel input) layout hiEnd form = .error col) ↔
      ∃ t ∈ form, t.2 ≠ 0 ∧ ∃ b, Declares input layout t.1 b ∧
        isOpenEnd (reachEnd hiEnd t.2 (b.lo, b.hi)) = true := by
  induction form with
  | nil => simp [flatRowReach]
  | cons t form ih =>
    have ih := ih fun u hu => hcols u (List.mem_cons_of_mem _ hu)
    obtain ⟨b, hb⟩ := exists_declares (hcols t List.mem_cons_self)
    unfold flatRowReach
    rw [List.exists_mem_cons_iff]
    by_cases hzero : t.2 = 0
    · rw [if_pos hzero, ih]
      simp [hzero]
    · rw [if_neg hzero]
      simp only
      rw [isOpenEnd_reachEnd hb]
      by_cases hopen : isOpenEnd (reachEnd hiEnd t.2 (b.lo, b.hi)) = true
      · rw [if_pos hopen]
        exact iff_of_true ⟨_, rfl⟩ (Or.inl ⟨hzero, b, hb, hopen⟩)
      · rw [if_neg hopen]
        have hmap : (∃ col, (flatRowReach input (.ofSolvedModel input) layout hiEnd form).map
            (t.2 * reachEnd hiEnd t.2 (flatColumnBox input (.ofSolvedModel input) layout t.1) + ·) =
              .error col) ↔
            ∃ col, flatRowReach input (.ofSolvedModel input) layout hiEnd form = .error col := by
          cases flatRowReach input (.ofSolvedModel input) layout hiEnd form <;> simp [Except.map]
        rw [hmap, ih]
        constructor
        · exact Or.inr
        · rintro (⟨-, b', hb', hopen'⟩ | hrest)
          · rw [← isOpenEnd_reachEnd hb', isOpenEnd_reachEnd hb] at hopen'
            exact absurd hopen' hopen
          · exact hrest

/-- The reach bounds the left-hand side. -/
theorem flatRowReach_bounds (h : InBuiltBoxes input layout a) {hiEnd : Bool} {form : Form Nat ℚ}
    (hcols : ∀ t ∈ form, t.1 < columnCount input layout) : ∀ {reach : ℚ},
    flatRowReach input (.ofSolvedModel input) layout hiEnd form = .ok reach →
    if hiEnd then form.eval a ≤ reach else reach ≤ form.eval a := by
  induction form with
  | nil =>
    intro reach hreach
    obtain rfl : 0 = reach := Except.ok.inj hreach
    cases hiEnd <;> simp
  | cons t form ih =>
    intro reach hreach
    have ih := @ih fun u hu => hcols u (List.mem_cons_of_mem _ hu)
    obtain ⟨b, hb⟩ := exists_declares (hcols t List.mem_cons_self)
    unfold flatRowReach at hreach
    rw [Form.eval_cons]
    by_cases hzero : t.2 = 0
    · rw [if_pos hzero] at hreach
      rw [hzero, zero_mul, zero_add]
      exact ih hreach
    · rw [if_neg hzero] at hreach
      simp only at hreach
      split at hreach
      · cases hreach
      · rename_i hopen
        have hend := mul_le_reachEnd h hb hzero (Bool.eq_false_iff.mpr hopen)
        cases hrest : flatRowReach input (.ofSolvedModel input) layout hiEnd form with
        | error col =>
          rw [hrest] at hreach
          cases hreach
        | ok rest =>
          rw [hrest] at hreach
          obtain rfl := Except.ok.inj hreach
          have ih := ih hrest
          cases hiEnd with
          | true =>
            simp only [if_true] at ih hend ⊢
            exact add_le_add hend ih
          | false =>
            simp only [Bool.false_eq_true, if_false] at ih hend ⊢
            exact add_le_add hend ih

/-! ## Rows -/

/-- **A row relaxed beyond its reach says what the conditional row says.** -/
theorem relaxedRow_holds {ic : IndicatorConstraintSpec} {M : ℚ} (hsense : ic.row.sense ≠ .eq)
    (hvalue : ic.binaryValue = 0 ∨ ic.binaryValue = 1)
    (hM : if ic.row.sense = .le then ic.row.form.eval a ≤ ic.row.rhs + M
      else ic.row.rhs - M ≤ ic.row.form.eval a)
    (hz : a ic.binaryColumn = 0 ∨ a ic.binaryColumn = 1) :
    (relaxedRow ic M).Holds a ↔ ic.Holds a := by
  unfold relaxedRow IndicatorConstraintSpec.Holds Row.Holds
  cases hs : ic.row.sense with
  | eq => exact absurd hs hsense
  | le =>
    rw [hs, if_pos rfl] at hM
    rcases hvalue with hv | hv <;> rcases hz with hz | hz
    · simp [hv, hz, hs, Sense.Holds]
    · simp only [hv, hz, hs, Sense.Holds, if_true, Form.eval_append, Form.eval_cons,
        Form.eval_nil, one_ne_zero, false_implies, iff_true]
      linarith
    · simp only [hv, hz, hs, Sense.Holds, one_ne_zero, if_false, if_true, Form.eval_append,
        Form.eval_cons, Form.eval_nil, zero_ne_one, false_implies, iff_true]
      linarith
    · simp [hv, hz, hs, Sense.Holds]
  | ge =>
    rw [hs, if_neg (by decide)] at hM
    rcases hvalue with hv | hv <;> rcases hz with hz | hz
    · simp [hv, hz, hs, Sense.Holds]
    · simp only [hv, hz, hs, Sense.Holds, if_true, reduceCtorEq, if_false, Form.eval_append,
        Form.eval_cons, Form.eval_nil, one_ne_zero, false_implies, iff_true]
      linarith
    · simp only [hv, hz, hs, Sense.Holds, one_ne_zero, if_false, reduceCtorEq, Form.eval_append,
        Form.eval_cons, Form.eval_nil, zero_ne_one, false_implies, iff_true]
      linarith
    · simp [hv, hz, hs, Sense.Holds]

/-- The row a condition is lowered to, when it is not refused. -/
theorem lowerIndicator_holds {varNames : List String} {ic : IndicatorConstraintSpec}
    {row : RawConstraint} (hcols : ∀ t ∈ ic.row.form, t.1 < columnCount input layout)
    (hsense : ic.row.sense ≠ .eq) (hvalue : ic.binaryValue = 0 ∨ ic.binaryValue = 1)
    (h : lowerIndicator input (.ofSolvedModel input) layout varNames ic = .ok row)
    (ha : InBuiltBoxes input layout a) (hz : a ic.binaryColumn = 0 ∨ a ic.binaryColumn = 1) :
    row.Holds a ↔ ic.Holds a := by
  unfold lowerIndicator at h
  simp only at h
  split at h
  · unfold throwUnboundedBigMNaming at h
    split at h <;> cases h
  · rename_i reach hreach
    obtain rfl := Except.ok.inj h
    have hbound := flatRowReach_bounds ha hcols hreach
    refine relaxedRow_holds hsense hvalue ?_ hz
    by_cases hle : ic.row.sense = .le
    · simp only [hle, decide_true, if_true] at hbound ⊢
      have := le_max_left (reach - ic.row.rhs) 0
      linarith
    · simp only [hle, decide_false, Bool.false_eq_true, if_false] at hbound ⊢
      have := le_max_left (ic.row.rhs - reach) 0
      linarith

theorem lowerIndicator_error_iff {varNames : List String} {ic : IndicatorConstraintSpec}
    (hcols : ∀ t ∈ ic.row.form, t.1 < columnCount input layout) :
    (∃ e, lowerIndicator input (.ofSolvedModel input) layout varNames ic = .error e) ↔
      ∃ t ∈ ic.row.form, t.2 ≠ 0 ∧ ∃ b, Declares input layout t.1 b ∧
        isOpenEnd (reachEnd (ic.row.sense = .le) t.2 (b.lo, b.hi)) = true := by
  rw [← flatRowReach_error_iff hcols]
  unfold lowerIndicator
  simp only
  cases flatRowReach input (.ofSolvedModel input) layout (ic.row.sense = .le) ic.row.form with
  | error col =>
    simp only [Except.error.injEq, exists_eq', iff_true]
    unfold throwUnboundedBigMNaming
    split <;> exact ⟨_, rfl⟩
  | ok reach => simp

/-! ## The pass -/

/-- An input whose conditional rows are as the `<>` pass emits them: one-sided, on a zero-one condition,
over columns there are. -/
structure ConditionalInput where
  input : SolverInput
  layout : ColumnLayout
  sense_ne : ∀ ic ∈ input.indicatorConstraints, ic.row.sense ≠ .eq
  binaryValue : ∀ ic ∈ input.indicatorConstraints, ic.binaryValue = 0 ∨ ic.binaryValue = 1
  columns : ∀ ic ∈ input.indicatorConstraints, ∀ t ∈ ic.row.form,
    t.1 < columnCount input layout

/-- What the pass makes of an input: every conditional row has one ordinary row in its place, which the
assignments inside the boxes of the model satisfy exactly when they satisfy the conditional one. -/
structure LoweredExactly (q : ConditionalInput) (out : SolverInput) : Prop where
  boxes : ∀ a, InBuiltBoxes out q.layout a ↔ InBuiltBoxes q.input q.layout a
  indicators : out.indicatorConstraints = []
  sameAssignments : ∀ a, InBuiltBoxes q.input q.layout a →
    (∀ ic ∈ q.input.indicatorConstraints, a ic.binaryColumn = 0 ∨ a ic.binaryColumn = 1) →
    ((∀ r ∈ out.globalConstraints, r.Holds a) ↔
      (∀ r ∈ q.input.globalConstraints, r.Holds a) ∧ ∀ ic ∈ q.input.indicatorConstraints, ic.Holds a)
  rows : ∃ lowered, out.globalConstraints = q.input.globalConstraints ++ lowered ∧
    ∀ a, InBuiltBoxes q.input q.layout a →
      (∀ ic ∈ q.input.indicatorConstraints, a ic.binaryColumn = 0 ∨ a ic.binaryColumn = 1) →
      List.Forall₂ (fun row ic => row.Holds a ↔ ic.Holds a) lowered q.input.indicatorConstraints

/-- The refusal: some entry of some conditional row depends on an end the model declares open. -/
def OpenReach (q : ConditionalInput) : Prop :=
  ∃ ic ∈ q.input.indicatorConstraints, ∃ t ∈ ic.row.form, t.2 ≠ 0 ∧
    ∃ b, Declares q.input q.layout t.1 b ∧
      isOpenEnd (reachEnd (ic.row.sense = .le) t.2 (b.lo, b.hi)) = true

theorem mapM_lowerIndicator (q : ConditionalInput) (varNames : List String)
    {l : List IndicatorConstraintSpec} (hl : ∀ ic ∈ l, ic ∈ q.input.indicatorConstraints) :
    ((∃ e, l.mapM (lowerIndicator q.input (.ofSolvedModel q.input) q.layout varNames) = .error e) ↔
      ∃ ic ∈ l, ∃ e, lowerIndicator q.input (.ofSolvedModel q.input) q.layout varNames ic =
        .error e) ∧
    ∀ rows, l.mapM (lowerIndicator q.input (.ofSolvedModel q.input) q.layout varNames) = .ok rows →
      ∀ a, InBuiltBoxes q.input q.layout a →
        (∀ ic ∈ q.input.indicatorConstraints, a ic.binaryColumn = 0 ∨ a ic.binaryColumn = 1) →
        List.Forall₂ (fun row ic => row.Holds a ↔ ic.Holds a) rows l := by
  induction l with
  | nil =>
    refine ⟨by simp [pure, Except.pure], fun rows hrows a _ _ => ?_⟩
    obtain rfl : [] = rows := Except.ok.inj hrows
    exact .nil
  | cons ic l ih =>
    obtain ⟨iherror, ihok⟩ := ih fun ic hic => hl ic (List.mem_cons_of_mem _ hic)
    rw [List.mapM_cons, List.exists_mem_cons_iff]
    cases hic : lowerIndicator q.input (.ofSolvedModel q.input) q.layout varNames ic with
    | error e => exact ⟨iff_of_true ⟨e, rfl⟩ (Or.inl ⟨e, rfl⟩), fun rows hrows => by cases hrows⟩
    | ok row =>
      cases hrest : l.mapM (lowerIndicator q.input (.ofSolvedModel q.input) q.layout varNames) with
      | error e =>
        rw [hrest] at iherror
        exact ⟨iff_of_true ⟨e, rfl⟩ (Or.inr (iherror.mp ⟨e, rfl⟩)), fun rows hrows => by cases hrows⟩
      | ok rest =>
        rw [hrest] at iherror
        refine ⟨iff_of_false (by rintro ⟨e, he⟩; cases he) ?_, fun rows hrows a ha hz => ?_⟩
        · rintro (⟨e, he⟩ | hex)
          · cases he
          · obtain ⟨e, he⟩ := iherror.mpr hex
            cases he
        · obtain rfl : row :: rest = rows := Except.ok.inj hrows
          have hmem := hl ic List.mem_cons_self
          exact .cons (lowerIndicator_holds (q.columns ic hmem) (q.sense_ne ic hmem)
            (q.binaryValue ic hmem) hic ha (hz ic hmem)) (ihok rest hrest a ha hz)

theorem forall_of_forall₂ {lowered : List RawConstraint} {l : List IndicatorConstraintSpec}
    (h : List.Forall₂ (fun row ic => row.Holds a ↔ ic.Holds a) lowered l) :
    (∀ r ∈ lowered, r.Holds a) ↔ ∀ ic ∈ l, ic.Holds a := by
  induction h with
  | nil => simp
  | cons hrow _ ih => rw [List.forall_mem_cons, List.forall_mem_cons, hrow, ih]

/-- Rows that say the same one by one say the same together. -/
theorem loweredExactly_of_rows {q : ConditionalInput} {out : SolverInput}
    (hboxes : ∀ a, InBuiltBoxes out q.layout a ↔ InBuiltBoxes q.input q.layout a)
    (hindicators : out.indicatorConstraints = []) {lowered : List RawConstraint}
    (hout : out.globalConstraints = q.input.globalConstraints ++ lowered)
    (hrows : ∀ a, InBuiltBoxes q.input q.layout a →
      (∀ ic ∈ q.input.indicatorConstraints, a ic.binaryColumn = 0 ∨ a ic.binaryColumn = 1) →
      List.Forall₂ (fun row ic => row.Holds a ↔ ic.Holds a) lowered q.input.indicatorConstraints) :
    LoweredExactly q out := by
  refine ⟨hboxes, hindicators, fun a ha hz => ?_, lowered, hout, hrows⟩
  rw [hout, List.forall_mem_append, forall_of_forall₂ (hrows a ha hz)]

/-- **Lowering the conditional rows is a refinement**: it is refused exactly when an end some row's reach
depends on is open in the model, and otherwise puts in the place of every conditional row one that says
the same inside the boxes of the model. -/
theorem lowerDecideConstructs_exact (q : ConditionalInput) (varNames : List String) :
    ((∃ e, lowerDecideConstructs q.input q.layout (.ofSolvedModel q.input) varNames false =
        .error e) ↔ OpenReach q) ∧
    (∀ out, lowerDecideConstructs q.input q.layout (.ofSolvedModel q.input) varNames false = .ok out →
      LoweredExactly q out) ∧
    ∀ col b, Declares q.input q.layout col b →
      (flatColumnBox q.input (.ofSolvedModel q.input) q.layout col).1 ≤ b.lo ∧
        b.hi ≤ (flatColumnBox q.input (.ofSolvedModel q.input) q.layout col).2 := by
  obtain ⟨herror, hok⟩ := mapM_lowerIndicator q varNames fun ic hic => hic
  have hrefused : OpenReach q ↔ ∃ ic ∈ q.input.indicatorConstraints, ∃ e,
      lowerIndicator q.input (.ofSolvedModel q.input) q.layout varNames ic = .error e := by
    refine exists_congr fun ic => and_congr_right fun hic => ?_
    exact (lowerIndicator_error_iff (q.columns ic hic)).symm
  refine ⟨?_, fun out hout => ?_, fun col b hb => flatColumnBox_contains hb⟩
  · rw [hrefused, ← herror]
    unfold lowerDecideConstructs
    cases hnil : q.input.indicatorConstraints with
    | nil => simp [pure, Except.pure]
    | cons ic ics =>
      rw [← hnil, if_neg (by simp [hnil])]
      cases q.input.indicatorConstraints.mapM
        (lowerIndicator q.input (.ofSolvedModel q.input) q.layout varNames) <;> simp
  · unfold lowerDecideConstructs at hout
    by_cases hnil : q.input.indicatorConstraints = []
    · rw [if_pos (by simp [hnil])] at hout
      obtain rfl := Except.ok.inj hout
      refine loweredExactly_of_rows (fun a => Iff.rfl) hnil (List.append_nil _).symm
        fun a _ _ => ?_
      rw [hnil]
      exact .nil
    · rw [if_neg (by simpa using hnil)] at hout
      cases hrows : q.input.indicatorConstraints.mapM
          (lowerIndicator q.input (.ofSolvedModel q.input) q.layout varNames) with
      | error e =>
        rw [hrows] at hout
        cases hout
      | ok rows =>
        rw [hrows] at hout
        obtain rfl := Except.ok.inj hout
        exact loweredExactly_of_rows
          (fun a => ⟨fun h => ⟨h.decisions, h.globals⟩, fun h => ⟨h.decisions, h.globals⟩⟩) rfl rfl
          (hok rows hrows)

end Decidb
