import Decidb.Execution.Proofs.EvaluateConstraintProofs

/-!
# A lone MIN or MAX from the clause to the rows

The rewrite, the evaluation and the linearization put together: what the emitted rows admit, compared
with what the clause says under its WHEN and PER.
-/

namespace Decidb

open Linear

variable {indexer : VarIndexer} {input : SolverInput} {a b : Nat → ℚ}

/-! ## What the rows admit -/

/-- The emitted columns can be completed so that every row holds. -/
def RowsAdmit (indexer : VarIndexer) (width : Nat) (out : SolverInput) (a : Nat → ℚ) : Prop :=
  ∃ b, AgreeBelow width b a ∧ out.Holds indexer b ∧
    ∀ ec ∈ out.constraints, ec.PerRowHolds indexer indexer.numRows b

theorem perRowHolds_congr {ec : EvaluatedConstraint} {n : Nat} (hn : indexer.globalBlockStart ≤ n)
    (hab : AgreeBelow n a b) :
    ec.PerRowHolds indexer indexer.numRows a ↔ ec.PerRowHolds indexer indexer.numRows b := by
  unfold EvaluatedConstraint.PerRowHolds
  refine forall_congr' fun r => forall_congr' fun hr => forall_congr' fun _ => ?_
  rw [lhsValue_congr hr hn hab]

/-- What one evaluated constraint asks, tagged or not. -/
def ConstraintAsks (indexer : VarIndexer) (ec : EvaluatedConstraint) (a : Nat → ℚ) : Prop :=
  MinMaxAsks indexer indexer.numRows ec a ∧
    ∀ c ∈ remaining indexer.numRows ec, c.PerRowHolds indexer indexer.numRows a

/-- **The rows admit what the evaluated constraints ask.** -/
theorem rowsAdmit_iff {constraints : List EvaluatedConstraint} {out : SolverInput}
    {varNames : List String} {policy : NativeConstructPolicy} (hw : input.WellScoped indexer)
    (hcut : ∀ ec ∈ constraints, ec.minmaxAggType ≠ none →
      ∀ r, r < indexer.numRows → CutClean indexer ec.lhsTerms r)
    (hok : linearizeMinMaxConstraints { input with constraints } indexer varNames policy = .ok out)
    (ha : input.Holds indexer a) :
    RowsAdmit indexer (input.width indexer) out a ↔
      ∀ ec ∈ constraints, ConstraintAsks indexer ec a := by
  have hw' : SolverInput.WellScoped { input with constraints } indexer :=
    ⟨hw.numRows_eq, hw.rows, hw.generals, hw.indicators⟩
  have ha' : SolverInput.Holds { input with constraints } indexer a :=
    ⟨ha.inBoxes, ha.globals, ha.rows, ha.generals, ha.indicators⟩
  obtain ⟨-, hcons, hext⟩ := linearizeMinMaxConstraints_spec hw' hcut hok
  have hwidth : indexer.globalBlockStart ≤ input.width indexer := Nat.le_add_right _ _
  have hcompl := hext.completes_iff a
  unfold RowsAdmit ConstraintAsks
  rw [hcons]
  constructor
  · rintro ⟨b, hba, hb, hrows⟩ ec hec
    obtain ⟨-, hasks⟩ := hcompl.mp ⟨b, hba, hb⟩
    refine ⟨hasks ec hec, fun c hc => ?_⟩
    exact (perRowHolds_congr hwidth hba).mp (hrows c (List.mem_flatMap.mpr ⟨ec, hec, hc⟩))
  · intro h
    obtain ⟨b, hba, hb⟩ := hcompl.mpr ⟨ha', fun ec hec => (h ec hec).1⟩
    refine ⟨b, hba, hb, fun c hc => ?_⟩
    obtain ⟨ec, hec, hc'⟩ := List.mem_flatMap.mp hc
    exact (perRowHolds_congr hwidth hba).mpr ((h ec hec).2 c hc')

/-- A tagged clause asks its groups to reach their bounds. -/
theorem constraintAsks_hard {ec : EvaluatedConstraint} {isMax : Bool} {scale : Option ScaleFactor}
    {agg : Aggregate} {cmp : Comparison} {rhs : RhsExpr} {whens : List RowMask}
    {pers : List RowKey} (h : EvaluatesHard ec isMax scale agg cmp rhs whens pers indexer.numRows) :
    ConstraintAsks indexer ec a ↔
      GroupsReach (ReachesOwnSide isMax cmp) cmp rhs agg (scaledBody scale agg indexer a)
        indexer.numRows whens pers := by
  rw [← taggedReads_iff_groupsReach h, ← taggedReads_iff h.groupsInRange h.rhsUniform]
  unfold ConstraintAsks MinMaxAsks remaining
  rw [h.tag]
  cases isMax <;> simp

/-- An ordinary clause asks its rows for the comparison. -/
theorem constraintAsks_ordinary {ec : EvaluatedConstraint} (h : ec.minmaxAggType = none) :
    ConstraintAsks indexer ec a ↔ ec.PerRowHolds indexer indexer.numRows a := by
  unfold ConstraintAsks MinMaxAsks remaining
  rw [h]
  simp

/-! ## The prepared clauses -/

/-- A comparison under an optional PER over an optional WHEN. -/
def wrapped (mask : Option RowMask) (columns : Option RowKey) (c : DecideComparison) :
    ConstraintTree DecideComparison :=
  nest (columns.toList.map .inr ++ mask.toList.map .inl) (.comparison c)

theorem analyzeConstraint_wrapped (mask : Option RowMask) (columns : Option RowKey)
    (c : DecideComparison) :
    analyzeConstraint (fun _ => false) (wrapped mask columns c) none none =
      [⟨c, mask, columns⟩] := by
  cases mask <;> cases columns <;> rfl

theorem keptWrappers_wrapped (mask : Option RowMask) (columns : Option RowKey) :
    keptWrappers true (columns.toList.map .inr ++ mask.toList.map .inl) =
      mask.toList.map (Sum.inl : RowMask → Wrapper) := by
  cases mask <;> cases columns <;> rfl

/-- The one condition of an easy clause, its own or that of the clause. -/
theorem analyzeConstraint_easy {mask filter : Option RowMask} (hone : mask = none ∨ filter = none)
    (c : DecideComparison) :
    analyzeConstraint (fun _ => false)
        (nest (mask.toList.map .inl) (underFilter filter (.comparison c))) none none =
      [⟨c, mask.or filter, none⟩] := by
  rcases hone with rfl | rfl
  · cases filter <;> rfl
  · cases mask <;> rfl

theorem toList_or {mask filter : Option RowMask} (hone : mask = none ∨ filter = none) :
    (mask.or filter).toList = mask.toList ++ filter.toList := by
  rcases hone with rfl | rfl
  · cases filter <;> rfl
  · cases mask <;> rfl

/-- The clauses a lone MIN or MAX is prepared as. -/
def preparedClauses (c : DecideComparison) (scale : Option ScaleFactor) (agg : Aggregate)
    (mask : Option RowMask) (columns : Option RowKey) : List (DecideConstraint DecideComparison) :=
  if c.cmp = .eq then
    [⟨hardComparison scale agg (hardHalfCmp scale agg) c.rhs, mask, columns⟩,
      ⟨canonicalEasyHalf scale agg (easyHalfCmp scale agg) c.rhs, agg.filter, none⟩]
  else if asksEveryRow scale agg c.cmp then
    [⟨easyComparison scale agg c.cmp c.rhs, mask.or agg.filter, none⟩]
  else [⟨hardComparison scale agg c.cmp c.rhs, mask, columns⟩]

theorem analyzeConstraint_rewritten {c : DecideComparison} {scale : Option ScaleFactor}
    {agg : Aggregate} (hl : LoneMinMax c scale agg) {mask : Option RowMask}
    {columns : Option RowKey} (hone : mask = none ∨ agg.filter = none)
    {t : ConstraintTree DecideComparison}
    (h : rewriteMinMaxConstraints (wrapped mask columns c) = .ok t) :
    c.cmp ≠ .ne ∧ analyzeConstraint (fun _ => false) t none none =
      preparedClauses c scale agg mask columns := by
  unfold rewriteMinMaxConstraints wrapped at h
  rw [rewriteMinMax_nest] at h
  simp only [rewriteMinMaxInConstraint] at h
  cases hr : rewriteMinMaxComparison c with
  | error e => rw [hr] at h; cases h
  | ok r =>
    rw [hr] at h
    obtain rfl := Except.ok.inj h
    rcases rewriteMinMaxComparison_cases hr with ⟨-, hnot⟩ | ⟨scale', agg', hl', hne, hcase⟩
    · exact absurd hl (hnot scale agg)
    obtain ⟨rfl, rfl⟩ := hl.unique hl'
    refine ⟨hne, ?_⟩
    unfold preparedClauses
    rcases hcase with ⟨heq, rfl⟩ | ⟨hneq, heasy, rfl⟩ | ⟨hneq, hhard, rfl⟩
    · rw [if_pos heq]
      have hl := analyzeConstraint_wrapped mask columns
        (hardComparison scale' agg' (hardHalfCmp scale' agg') c.rhs)
      have hr := @analyzeConstraint_easy none agg'.filter (Or.inl rfl)
        (canonicalEasyHalf scale' agg' (easyHalfCmp scale' agg') c.rhs)
      exact congrArg₂ (· ++ ·) hl hr
    · rw [if_neg hneq, if_pos heasy]
      simp only [List.foldl_nil]
      rw [keptWrappers_wrapped]
      exact analyzeConstraint_easy hone _
    · rw [if_neg hneq, if_neg (by simp [hhard])]
      exact analyzeConstraint_wrapped mask columns _

/-! ## The pipeline -/

/-- When the emitted rows admit exactly what the clause says. -/
structure MinMaxExact (c : DecideComparison) (scale : Option ScaleFactor) (agg : Aggregate)
    (indexer : VarIndexer) (mask : Option RowMask) (columns : Option RowKey) (a : Nat → ℚ) :
    Prop where
  /-- A hard clause: in every group some scaled value lies at or beyond the bound on the reducer's
  own side exactly if in every group some scaled value satisfies the relation. -/
  hard : c.cmp ≠ .eq → asksEveryRow scale agg c.cmp = false →
    (GroupsReach (ReachesOwnSide (agg.name = .max) c.cmp) c.cmp c.rhs agg
        (scaledBody scale agg indexer a) indexer.numRows mask.toList columns.toList ↔
      GroupsReach (fun k v => c.cmp.Holds v k) c.cmp c.rhs agg (scaledBody scale agg indexer a)
        indexer.numRows mask.toList columns.toList)
  /-- An easy clause: every kept row meets the bounds of all kept rows exactly if every kept row of
  a group meets the bounds of its group. -/
  easy : c.cmp ≠ .eq → asksEveryRow scale agg c.cmp = true →
    (MeetsBounds c.cmp (scaledBody scale agg indexer a) c.rhs.value (fun _ => true)
        indexer.numRows (mask.toList ++ agg.filter.toList) [] ↔
      MeetsBounds c.cmp (scaledBody scale agg indexer a) c.rhs.value agg.keeps indexer.numRows
        mask.toList columns.toList)
  /-- An equality: both at once, its easy side over every row its own WHEN keeps. -/
  equality : c.cmp = .eq →
    ((GroupsReach (ReachesOwnSide (agg.name = .max) (hardHalfCmp scale agg)) (hardHalfCmp scale agg)
          c.rhs agg (scaledBody scale agg indexer a) indexer.numRows mask.toList columns.toList ∧
        MeetsBounds (easyHalfCmp scale agg)
          (fun r => scaledBody scale agg indexer a r - crossedOffset scale agg r)
          (fun rows i => (c.rhs.value rows i).sub (crossedOffset scale agg i)) (fun _ => true)
          indexer.numRows agg.filter.toList []) ↔
      (GroupsReach (fun k v => (hardHalfCmp scale agg).Holds v k) (hardHalfCmp scale agg) c.rhs agg
          (scaledBody scale agg indexer a) indexer.numRows mask.toList columns.toList ∧
        MeetsBounds (easyHalfCmp scale agg) (scaledBody scale agg indexer a) c.rhs.value agg.keeps
          indexer.numRows mask.toList columns.toList))

theorem asksEveryRow_hardHalf {scale : Option ScaleFactor} {agg : Aggregate}
    (hmm : agg.name.isMinMax = true) : asksEveryRow scale agg (hardHalfCmp scale agg) = false := by
  unfold asksEveryRow hardHalfCmp isEasyMinMax flipBySign
  cases hname : agg.name with
  | sum | avg => rw [hname] at hmm; cases hmm
  | min => by_cases hs : scaleSignAtPlanTime scale < 0 <;> simp [hs, Comparison.flip]
  | max => by_cases hs : scaleSignAtPlanTime scale < 0 <;> simp [hs, Comparison.flip]

theorem halves_isOrder (scale : Option ScaleFactor) (agg : Aggregate) :
    (easyHalfCmp scale agg).isOrder = true ∧ (hardHalfCmp scale agg).isOrder = true := by
  rcases halves_eq_directions scale agg with ⟨h1, h2⟩ | ⟨h1, h2⟩ <;> rw [h1, h2] <;> exact ⟨rfl, rfl⟩

theorem isOrder_of_ne {cmp : Comparison} (heq : cmp ≠ .eq) (hne : cmp ≠ .ne) :
    cmp.isOrder = true := by
  cases cmp with
  | eq => exact absurd rfl heq
  | ne => exact absurd rfl hne
  | lt | le | ge | gt => rfl

theorem child_ne_nil {agg : Aggregate} (h : agg.isDecideMinMax = true) : agg.child ≠ [] := by
  intro hnil
  have := (Bool.and_eq_true_iff.mp h).2
  rw [Aggregate.referencesDecide, hnil] at this
  cases this

theorem mapM_singleton {α β : Type} {f : α → Except String β} {x : α} {out : List β}
    (h : [x].mapM f = .ok out) : ∃ y, f x = .ok y ∧ out = [y] := by
  rw [List.mapM_cons, List.mapM_nil] at h
  cases hx : f x with
  | error e => rw [hx] at h; cases h
  | ok y => rw [hx] at h; exact ⟨y, rfl, (Except.ok.inj h).symm⟩

theorem mapM_pair {α β : Type} {f : α → Except String β} {x x' : α} {out : List β}
    (h : [x, x'].mapM f = .ok out) : ∃ y y', f x = .ok y ∧ f x' = .ok y' ∧ out = [y, y'] := by
  rw [List.mapM_cons] at h
  cases hx : f x with
  | error e => rw [hx] at h; cases h
  | ok y =>
    rw [hx] at h
    cases hrest : [x'].mapM f with
    | error e => rw [hrest] at h; cases h
    | ok ys =>
      rw [hrest] at h
      obtain ⟨y', hy', rfl⟩ := mapM_singleton hrest
      exact ⟨y, y', rfl, hy', (Except.ok.inj h).symm⟩

/-- **What the rows emitted for a lone MIN or MAX admit**, in terms of its rows and bounds. -/
theorem rowsAdmit_lone_iff {c : DecideComparison} {scale : Option ScaleFactor} {agg : Aggregate}
    (hl : LoneMinMax c scale agg) {mask : Option RowMask} {columns : Option RowKey}
    (hone : mask = none ∨ agg.filter = none) (hw : input.WellScoped indexer)
    (hcut : ∀ r, r < indexer.numRows → CutClean indexer (hardTerms scale agg) r)
    {out : SolverInput} {varNames : List String} {policy : NativeConstructPolicy}
    (hok : lowerMinMaxConstraint input indexer varNames policy (wrapped mask columns c) = .ok out)
    (ha : input.Holds indexer a) :
    c.cmp ≠ .ne ∧ (RowsAdmit indexer (input.width indexer) out a ↔
      if c.cmp = .eq then
        GroupsReach (ReachesOwnSide (agg.name = .max) (hardHalfCmp scale agg))
            (hardHalfCmp scale agg) c.rhs agg (scaledBody scale agg indexer a) indexer.numRows
            mask.toList columns.toList ∧
          MeetsBounds (easyHalfCmp scale agg)
            (fun r => scaledBody scale agg indexer a r - crossedOffset scale agg r)
            (fun rows i => (c.rhs.value rows i).sub (crossedOffset scale agg i)) (fun _ => true)
            indexer.numRows agg.filter.toList []
      else if asksEveryRow scale agg c.cmp then
        MeetsBounds c.cmp (scaledBody scale agg indexer a) c.rhs.value (fun _ => true)
          indexer.numRows (mask.toList ++ agg.filter.toList) []
      else
        GroupsReach (ReachesOwnSide (agg.name = .max) c.cmp) c.cmp c.rhs agg
          (scaledBody scale agg indexer a) indexer.numRows mask.toList columns.toList) := by
  unfold lowerMinMaxConstraint at hok
  split at hok
  · cases hok
  rename_i t ht
  split at hok
  · cases hok
  rename_i constraints hcons
  obtain ⟨hne, hprep⟩ := analyzeConstraint_rewritten hl hone ht
  refine ⟨hne, ?_⟩
  rw [hprep] at hcons
  have hchild := child_ne_nil hl.minMax
  have hhard : ∀ {ec : EvaluatedConstraint} {cmp : Comparison} {m : Option RowMask}
      {k : Option RowKey}, cmp.isOrder = true →
      evaluateConstraint indexer.numRows ⟨hardComparison scale agg cmp c.rhs, m, k⟩ = .ok ec →
      ∀ r, r < indexer.numRows → CutClean indexer ec.lhsTerms r := by
    intro ec cmp m k hcmp hec r hr
    rw [(evaluateConstraint_hard hcmp hchild hec).terms]
    exact hcut r hr
  unfold preparedClauses at hcons
  by_cases heq : c.cmp = .eq
  · rw [if_pos heq] at hcons ⊢
    obtain ⟨hard, easy, hh, he, rfl⟩ := mapM_pair hcons
    have hev := evaluateConstraint_hard (halves_isOrder scale agg).2 hchild hh
    have hee := evaluateConstraint_easy (a := a) (halves_isOrder scale agg).1 he
    rw [rowsAdmit_iff hw ?_ hok ha]
    · simp only [List.forall_mem_cons, List.not_mem_nil, false_implies, implies_true, and_true,
        constraintAsks_hard hev, constraintAsks_ordinary hee.1, hee.2]
      have hcanon := @canonicalEasyHalf_holdsUnder_iff indexer a scale agg
        (easyHalfCmp scale agg) c.rhs agg.filter.toList []
      exact and_congr_right fun _ => hcanon
    · intro ec hec ht
      rcases List.mem_pair.mp hec with rfl | rfl
      · exact hhard (halves_isOrder scale agg).2 hh
      · exact absurd hee.1 ht
  · have hcmp := isOrder_of_ne heq hne
    rw [if_neg heq] at hcons ⊢
    by_cases heasy : asksEveryRow scale agg c.cmp = true
    · rw [if_pos heasy] at hcons ⊢
      obtain ⟨easy, he, rfl⟩ := mapM_singleton hcons
      have hee := evaluateConstraint_easy (a := a) hcmp he
      rw [rowsAdmit_iff hw ?_ hok ha]
      · simp only [List.forall_mem_singleton, constraintAsks_ordinary hee.1, hee.2,
          easyComparison_holdsUnder_iff, toList_or hone, Option.toList_none]
      · intro ec hec ht
        rw [List.mem_singleton.mp hec] at ht
        exact absurd hee.1 ht
    · rw [if_neg heasy] at hcons ⊢
      obtain ⟨hard, hh, rfl⟩ := mapM_singleton hcons
      have hev := evaluateConstraint_hard hcmp hchild hh
      rw [rowsAdmit_iff hw ?_ hok ha]
      · simp only [List.forall_mem_singleton, constraintAsks_hard hev]
      · intro ec hec _
        rw [List.mem_singleton.mp hec]
        exact hhard hcmp hh

/-- Under a factor that is not negative, the own side of a reducer is the side a relation that is
not strict asks for. -/
theorem reachesOwnSide_iff {scale : Option ScaleFactor} {agg : Aggregate} {cmp : Comparison}
    (hmm : agg.name.isMinMax = true) (hsign : scaleSignAtPlanTime scale ≠ 0)
    (hf : 0 ≤ scaleFactorValue scale) (hcmp : cmp = .le ∨ cmp = .ge)
    (hhard : asksEveryRow scale agg cmp = false) (k : Bound) (v : ℚ) :
    ReachesOwnSide (agg.name = .max) cmp k v ↔ cmp.Holds v k := by
  have hord : cmp.isOrder = true := by rcases hcmp with rfl | rfl <;> rfl
  rcases asksSomeRow_cases hmm hsign hord hhard with ⟨hc, hcase⟩ | ⟨hc, hcase⟩
  · have hge : cmp = .ge := by
      rcases hc with rfl | rfl
      · rfl
      · rcases hcmp with h | h <;> cases h
    rcases hcase with ⟨hname, -⟩ | ⟨-, hneg⟩
    · rw [hge, hname]
      cases k <;> simp [ReachesOwnSide, classifyMinMaxBound, BoundSide, Comparison.Holds]
    · exact absurd hneg (not_lt.mpr hf)
  · have hle : cmp = .le := by
      rcases hc with rfl | rfl
      · rfl
      · rcases hcmp with h | h <;> cases h
    rcases hcase with ⟨hname, -⟩ | ⟨-, hneg⟩
    · rw [hle, hname]
      cases k <;> simp [ReachesOwnSide, classifyMinMaxBound, BoundSide, Comparison.Holds]
    · exact absurd hneg (not_lt.mpr hf)

/-- **A hard clause that is neither strict nor under a negative factor is lowered exactly.** -/
theorem minMaxExact_of_nonneg {c : DecideComparison} {scale : Option ScaleFactor} {agg : Aggregate}
    (hl : LoneMinMax c scale agg) (hf : 0 ≤ scaleFactorValue scale)
    (hcmp : c.cmp = .le ∨ c.cmp = .ge) (hhard : asksEveryRow scale agg c.cmp = false)
    {mask : Option RowMask} {columns : Option RowKey} :
    MinMaxExact c scale agg indexer mask columns a := by
  have hmm : agg.name.isMinMax = true := (Bool.and_eq_true_iff.mp hl.minMax).1
  refine ⟨fun _ _ => ?_, fun _ heasy => ?_, fun heq => ?_⟩
  · unfold GroupsReach
    simp only [reachesOwnSide_iff hmm hl.sign_ne hf hcmp hhard]
  · rw [hhard] at heasy
    cases heasy
  · rcases hcmp with h | h <;> rw [h] at heq <;> cases heq

/-- **An easy clause without PER and without a WHEN of its own is lowered exactly.** -/
theorem minMaxExact_of_ungrouped {c : DecideComparison} {scale : Option ScaleFactor}
    {agg : Aggregate} (hneq : c.cmp ≠ .eq) (heasy : asksEveryRow scale agg c.cmp = true)
    (hfilter : agg.filter = none) {mask : Option RowMask} :
    MinMaxExact c scale agg indexer mask none a := by
  refine ⟨fun _ hhard => ?_, fun _ _ => ?_, fun heq => absurd heq hneq⟩
  · rw [heasy] at hhard
    cases hhard
  · have hkeeps : agg.keeps = fun _ => true := by
      funext r
      simp [Aggregate.keeps, hfilter]
    rw [hfilter, hkeeps]
    simp only [Option.toList_none, List.append_nil]

/-! ## A negative factor -/

/-- `MAX(x)`. -/
def maxOfX : Aggregate where
  name := .max
  child := [{ variableIndex := some 0, rowCoefficients := fun _ => 1 }]

/-- The factor `-2`. -/
def minusTwo : ScaleFactor := ⟨-2, false, true⟩

/-- `-2 * MAX(x) <= -10`. -/
def scaledMax : DecideComparison where
  lhs := .reducers (.reducer (some minusTwo) maxOfX)
  cmp := .le
  rhs := .constant (-10)

/-- One INTEGER decision in `[0, 10]`, over one row. -/
def oneInteger : SolverInput where
  numRows := 1
  variableTypes := [.integer]
  lowerBounds := [0]
  upperBounds := [10]

theorem scaledMax_lowers : ∃ out,
    lowerMinMaxConstraint oneInteger (.rowScoped 1 0) [] {} (wrapped none none scaledMax) =
      .ok out := by
  have hok : (lowerMinMaxConstraint oneInteger (.rowScoped 1 0) [] {}
      (wrapped none none scaledMax)).toBool = true := by decide +kernel
  cases h : lowerMinMaxConstraint oneInteger (.rowScoped 1 0) [] {} (wrapped none none scaledMax) with
  | error e => rw [h] at hok; cases hok
  | ok out => exact ⟨out, rfl⟩

theorem scaledMax_lone : LoneMinMax scaledMax (some minusTwo) maxOfX :=
  ⟨rfl, rfl, by decide +kernel⟩

theorem scaledMax_clean : ∀ r, r < 1 →
    CutClean (.rowScoped 1 0) (hardTerms (some minusTwo) maxOfX) r := by
  intro r hr
  obtain rfl : r = 0 := Nat.lt_one_iff.mp hr
  constructor
  · intro t ht
    rw [List.mem_singleton.mp ht]
    right
    norm_num [coefficientCut, maskedTerm, scaledTerm, admits, scaleFactorValue, minusTwo, maxOfX]
  · intro t ht
    have hlink : (minMaxLink (.rowScoped 1 0) (hardTerms (some minusTwo) maxOfX) 0).form =
        [(0, 2)] := by decide +kernel
    rw [hlink] at ht
    rw [List.mem_singleton.mp ht]
    right
    norm_num [coefficientCut]

theorem oneInteger_wellScoped : oneInteger.WellScoped (.rowScoped 1 0) :=
  ⟨rfl, fun r hr => absurd hr (by simp [oneInteger]), fun r hr => absurd hr (by simp [oneInteger]),
    fun r hr => absurd hr (by simp [oneInteger])⟩

/-- `x = 0` lies in the box. -/
theorem oneInteger_holds : oneInteger.Holds (.rowScoped 1 0) (fun _ => 0) := by
  refine ⟨fun v box hv row hrow => ?_, fun i b hb => absurd hb (by simp [oneInteger]),
    fun r hr => absurd hr (by simp [oneInteger]), fun r hr => absurd hr (by simp [oneInteger]),
    fun r hr => absurd hr (by simp [oneInteger])⟩
  match v with
  | 0 =>
    obtain rfl := Option.some.inj hv
    exact ⟨Or.inr (by decide +kernel), Or.inr (by decide +kernel), fun _ => rfl⟩
  | v + 1 => cases hv

end Decidb
