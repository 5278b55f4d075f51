import Decidb.Optimizer.ClauseMeaning
import Decidb.Optimizer.Proofs.AggregateProofs

/-!
# What the MIN/MAX rewrites do to the wrappers of a comparison

A hard MIN/MAX stays where it was written. An easy one leaves its PER behind and takes its own WHEN
as a wrapper, the easy half of an equality leaves everything but its own WHEN, and a lifted
composition leaves everything.
-/

namespace Decidb

variable {indexer : VarIndexer} {a : Nat → ℚ}

/-! ## Trees under wrappers -/

/-- The enclosure a wrapper is. -/
def enclosureOf : Wrapper → Enclosure
  | .inl m => .when m
  | .inr k => .per k

theorem whenConditions_nest (ws : List Wrapper) :
    whenConditions (ws.map enclosureOf) = nestWhens ws := by
  induction ws with
  | nil => rfl
  | cons w ws ih =>
    cases w with
    | inl m => exact congrArg (m :: ·) ih
    | inr k => exact ih

theorem perColumnSets_nest (ws : List Wrapper) :
    perColumnSets (ws.map enclosureOf) = nestPers ws := by
  induction ws with
  | nil => rfl
  | cons w ws ih =>
    cases w with
    | inl m => exact ih
    | inr k => exact congrArg (k :: ·) ih

/-- The comparisons of a tree hold under a path. -/
def ConstraintTree.HoldsAt (t : ConstraintTree DecideComparison) (indexer : VarIndexer)
    (path : List Enclosure) (a : Nat → ℚ) : Prop :=
  ∀ leaf ∈ t.leaves path,
    leaf.1.HoldsUnder indexer (whenConditions leaf.2) (perColumnSets leaf.2) a

theorem holdsAt_comparison (c : DecideComparison) (path : List Enclosure) :
    (ConstraintTree.comparison c).HoldsAt indexer path a ↔
      c.HoldsUnder indexer (whenConditions path) (perColumnSets path) a := by
  simp [ConstraintTree.HoldsAt, ConstraintTree.leaves]

theorem holdsAt_nest (ws : List Wrapper) (t : ConstraintTree DecideComparison) :
    ∀ path, (nest ws t).HoldsAt indexer path a ↔
      t.HoldsAt indexer (path ++ ws.map enclosureOf) a := by
  induction ws with
  | nil => intro path; simp [nest]
  | cons w ws ih =>
    intro path
    cases w with
    | inl m =>
      have h := ih (path ++ [.when m])
      rw [List.append_assoc] at h
      exact h
    | inr k =>
      have h := ih (path ++ [.per k])
      rw [List.append_assoc] at h
      exact h

/-- Only the conditions and the columns of a path matter. -/
theorem holdsAt_congr (t : ConstraintTree DecideComparison) : ∀ path path' : List Enclosure,
    whenConditions path = whenConditions path' → perColumnSets path = perColumnSets path' →
      (t.HoldsAt indexer path a ↔ t.HoldsAt indexer path' a) := by
  induction t with
  | comparison c =>
    intro path path' hw hp
    rw [holdsAt_comparison, holdsAt_comparison, hw, hp]
  | placeholder => intro path path' _ _; simp [ConstraintTree.HoldsAt, ConstraintTree.leaves]
  | «when» t m ih =>
    intro path path' hw hp
    refine ih _ _ ?_ ?_
    · rw [whenConditions_append, whenConditions_append, hw]
    · rw [perColumnSets_append, perColumnSets_append, hp]
  | per t k ih =>
    intro path path' hw hp
    refine ih _ _ ?_ ?_
    · rw [whenConditions_append, whenConditions_append, hw]
    · rw [perColumnSets_append, perColumnSets_append, hp]
  | conjunction l r ihl ihr =>
    intro path path' hw hp
    have hw' : whenConditions (path ++ [.conjunction]) = whenConditions (path' ++ [.conjunction]) := by
      rw [whenConditions_append, whenConditions_append, hw]
    have hp' : perColumnSets (path ++ [.conjunction]) = perColumnSets (path' ++ [.conjunction]) := by
      rw [perColumnSets_append, perColumnSets_append, hp]
    have hl := ihl _ _ hw' hp'
    have hr := ihr _ _ hw' hp'
    unfold ConstraintTree.HoldsAt at hl hr ⊢
    simp only [ConstraintTree.leaves, List.forall_mem_append]
    rw [hl, hr]

/-- A conjunction says what its two sides say. -/
theorem holds_conjunction (l r : ConstraintTree DecideComparison) :
    (ConstraintTree.conjunction l r).Holds indexer a ↔ l.Holds indexer a ∧ r.Holds indexer a := by
  have hl := @holdsAt_congr indexer a l [.conjunction] [] rfl rfl
  have hr := @holdsAt_congr indexer a r [.conjunction] [] rfl rfl
  unfold ConstraintTree.HoldsAt at hl hr
  unfold ConstraintTree.Holds
  simp only [ConstraintTree.leaves, List.nil_append, List.forall_mem_append]
  rw [hl, hr]

theorem holds_foldl_conjunction (ts : List (ConstraintTree DecideComparison)) :
    ∀ t : ConstraintTree DecideComparison,
      (ts.foldl .conjunction t).Holds indexer a ↔
        t.Holds indexer a ∧ ∀ t' ∈ ts, t'.Holds indexer a := by
  induction ts with
  | nil => intro t; simp
  | cons t' ts ih =>
    intro t
    rw [List.foldl_cons, ih, holds_conjunction, List.forall_mem_cons, and_assoc]

/-- A nest says what its comparison says under the wrappers. -/
theorem holds_nest_comparison (ws : List Wrapper) (c : DecideComparison) :
    (nest ws (.comparison c)).Holds indexer a ↔
      c.HoldsUnder indexer (nestWhens ws) (nestPers ws) a := by
  have h := @holdsAt_nest indexer a ws (.comparison c) []
  rw [List.nil_append, holdsAt_comparison, whenConditions_nest, perColumnSets_nest] at h
  exact h

theorem holds_nest_placeholder (ws : List Wrapper) : (nest ws .placeholder).Holds indexer a := by
  have h := (@holdsAt_nest indexer a ws .placeholder []).mpr
    (by simp [ConstraintTree.HoldsAt, ConstraintTree.leaves])
  exact h

/-- An aggregate-local WHEN kept as a wrapper is the innermost one. -/
theorem nest_underFilter (ws : List Wrapper) (filter : Option RowMask)
    (t : ConstraintTree DecideComparison) :
    nest ws (underFilter filter t) = nest (ws ++ filter.toList.map .inl) t := by
  cases filter with
  | none => simp [underFilter]
  | some m => simp [underFilter, nest]

/-! ## The rewrites on a nest -/

/-- A composition is lifted out of the nest it stands in; anything else stays. -/
theorem rewriteComposed_nest (c : DecideComparison) (ws : List Wrapper) :
    ∀ {t clauses}, rewriteComposedMinMaxInConstraint (nest ws (.comparison c)) = .ok (t, clauses) →
      (rewriteComposedComparison c = .ok none ∧ t = nest ws (.comparison c) ∧ clauses = []) ∨
        ∃ clause, rewriteComposedComparison c = .ok (some clause) ∧ t = nest ws .placeholder ∧
          clauses = [clause] := by
  induction ws with
  | nil =>
    intro t clauses h
    simp only [nest, List.foldr_nil, rewriteComposedMinMaxInConstraint] at h
    split at h
    · cases h
    · rename_i hnone
      simp only [Except.ok.injEq, Prod.mk.injEq] at h
      exact Or.inl ⟨hnone, h.1.symm, h.2.symm⟩
    · rename_i clause hsome
      simp only [Except.ok.injEq, Prod.mk.injEq] at h
      exact Or.inr ⟨clause, hsome, h.1.symm, h.2.symm⟩
  | cons w ws ih =>
    intro t clauses h
    cases w with
    | inl m =>
      change rewriteComposedMinMaxInConstraint (.when (nest ws (.comparison c)) m) = _ at h
      simp only [rewriteComposedMinMaxInConstraint] at h
      split at h
      · cases h
      split at h
      · cases h
      rename_i t' clauses' hrec
      simp only [Except.ok.injEq, Prod.mk.injEq] at h
      obtain ⟨rfl, rfl⟩ := h
      rcases ih hrec with ⟨h1, rfl, rfl⟩ | ⟨clause, h1, rfl, rfl⟩
      · exact Or.inl ⟨h1, rfl, rfl⟩
      · exact Or.inr ⟨clause, h1, rfl, rfl⟩
    | inr k =>
      change rewriteComposedMinMaxInConstraint (.per (nest ws (.comparison c)) k) = _ at h
      simp only [rewriteComposedMinMaxInConstraint] at h
      split at h
      · cases h
      split at h
      · cases h
      rename_i t' clauses' hrec
      simp only [Except.ok.injEq, Prod.mk.injEq] at h
      obtain ⟨rfl, rfl⟩ := h
      rcases ih hrec with ⟨h1, rfl, rfl⟩ | ⟨clause, h1, rfl, rfl⟩
      · exact Or.inl ⟨h1, rfl, rfl⟩
      · exact Or.inr ⟨clause, h1, rfl, rfl⟩

/-- What is left of a nest around a rewritten comparison: an easy one loses every PER. -/
def keptWrappers (wasEasy : Bool) (ws : List Wrapper) : List Wrapper :=
  if wasEasy then ws.filter (·.isLeft) else ws

theorem rewriteMinMax_nest (ws : List Wrapper) (t : ConstraintTree DecideComparison) :
    rewriteMinMaxInConstraint (nest ws t) =
      (rewriteMinMaxInConstraint t).map fun r =>
        { r with constraint := nest (keptWrappers r.wasEasy ws) r.constraint } := by
  induction ws with
  | nil => cases h : rewriteMinMaxInConstraint t <;> simp [nest, keptWrappers, Except.map, h]
  | cons w ws ih =>
    cases w with
    | inl m =>
      change rewriteMinMaxInConstraint (.when (nest ws t) m) = _
      simp only [rewriteMinMaxInConstraint]
      rw [ih]
      cases rewriteMinMaxInConstraint t with
      | error e => rfl
      | ok r => cases hr : r.wasEasy <;> simp [Except.map, keptWrappers, nest, hr, List.filter_cons]
    | inr k =>
      change rewriteMinMaxInConstraint (.per (nest ws t) k) = _
      simp only [rewriteMinMaxInConstraint]
      rw [ih]
      cases rewriteMinMaxInConstraint t with
      | error e => rfl
      | ok r => cases hr : r.wasEasy <;> simp [Except.map, keptWrappers, nest, hr]

/-- A lone MIN/MAX over decisions whose factor has a known sign. -/
structure LoneMinMax (c : DecideComparison) (scale : Option ScaleFactor) (agg : Aggregate) :
    Prop where
  lhs_eq : c.lhs = .reducers (.reducer scale agg)
  minMax : agg.isDecideMinMax = true
  sign_ne : scaleSignAtPlanTime scale ≠ 0

/-- The relation of the easy half of an equality. -/
def easyHalfCmp (scale : Option ScaleFactor) (agg : Aggregate) : Comparison :=
  flipBySign (scaleSignAtPlanTime scale) (if agg.name = .max then .le else .ge)

/-- The relation of its hard half. -/
def hardHalfCmp (scale : Option ScaleFactor) (agg : Aggregate) : Comparison :=
  flipBySign (scaleSignAtPlanTime scale) (if agg.name = .max then .ge else .le)

/-- Whether the relation asks every row for the bound. -/
def asksEveryRow (scale : Option ScaleFactor) (agg : Aggregate) (cmp : Comparison) : Bool :=
  isEasyMinMax (agg.name = .max) (flipBySign (scaleSignAtPlanTime scale) cmp)

/-- What the rewrite makes of one comparison. -/
theorem rewriteMinMaxComparison_cases {c : DecideComparison} {r : MinMaxRewrite}
    (h : rewriteMinMaxComparison c = .ok r) :
    (r = { constraint := .comparison c } ∧ ∀ scale agg, ¬ LoneMinMax c scale agg) ∨
      ∃ scale agg, LoneMinMax c scale agg ∧ c.cmp ≠ .ne ∧
        ((c.cmp = .eq ∧ r =
            { constraint := .comparison (hardComparison scale agg (hardHalfCmp scale agg) c.rhs)
              generated := [underFilter agg.filter
                (.comparison (canonicalEasyHalf scale agg (easyHalfCmp scale agg) c.rhs))] }) ∨
          (c.cmp ≠ .eq ∧ asksEveryRow scale agg c.cmp = true ∧
            r = { constraint :=
                    underFilter agg.filter (.comparison (easyComparison scale agg c.cmp c.rhs))
                  wasEasy := true }) ∨
          (c.cmp ≠ .eq ∧ asksEveryRow scale agg c.cmp = false ∧
            r = { constraint := .comparison (hardComparison scale agg c.cmp c.rhs) })) := by
  unfold rewriteMinMaxComparison at h
  split at h
  · rename_i scale agg hlhs
    simp only at h
    split at h
    · rename_i hdeclined
      refine Or.inl ⟨(Except.ok.inj h).symm, fun scale' agg' hl => ?_⟩
      have heq := hlhs.symm.trans hl.lhs_eq
      simp only [DecideLhs.reducers.injEq, AggregateSum.reducer.injEq] at heq
      obtain ⟨rfl, rfl⟩ := heq
      simp [hl.minMax, hl.sign_ne] at hdeclined
    · rename_i hlone
      simp only [Bool.or_eq_true, Bool.not_eq_true', decide_eq_true_eq, not_or,
        Bool.not_eq_false] at hlone
      refine Or.inr ⟨scale, agg, ⟨hlhs, hlone.1, hlone.2⟩, ?_⟩
      split at h
      · cases h
      rename_i hne
      refine ⟨hne, ?_⟩
      split at h
      · rename_i heq
        exact Or.inl ⟨heq, by simpa [hardHalfCmp, easyHalfCmp] using (Except.ok.inj h).symm⟩
      · rename_i heq
        split at h
        · rename_i heasy
          exact Or.inr (Or.inl ⟨heq, heasy, (Except.ok.inj h).symm⟩)
        · rename_i hhard
          exact Or.inr (Or.inr ⟨heq, by simpa [asksEveryRow] using hhard, (Except.ok.inj h).symm⟩)
  · rename_i hnot
    exact Or.inl ⟨(Except.ok.inj h).symm, fun scale agg hl => hnot scale agg hl.lhs_eq⟩

/-! ## Easy comparisons -/

/-- The easy direction, by the sign of the factor. -/
theorem asksEveryRow_cases {scale : Option ScaleFactor} {agg : Aggregate} {cmp : Comparison}
    (hmm : agg.name.isMinMax = true) (hsign : scaleSignAtPlanTime scale ≠ 0)
    (heasy : asksEveryRow scale agg cmp = true) :
    ((cmp = .le ∨ cmp = .lt) ∧
        ((agg.name = .max ∧ 0 ≤ scaleFactorValue scale) ∨
          (agg.name = .min ∧ scaleFactorValue scale < 0))) ∨
      ((cmp = .ge ∨ cmp = .gt) ∧
        ((agg.name = .min ∧ 0 ≤ scaleFactorValue scale) ∨
          (agg.name = .max ∧ scaleFactorValue scale < 0))) := by
  unfold asksEveryRow isEasyMinMax flipBySign at heasy
  rcases scaleSign_spec scale with hs | ⟨hs, hf⟩ | ⟨hs, hf⟩
  · exact absurd hs hsign
  · rw [hs] at heasy
    cases hname : agg.name with
    | sum | avg => rw [hname] at hmm; cases hmm
    | max => cases hcmp : cmp <;> simp_all
    | min => cases hcmp : cmp <;> simp_all
  · rw [hs] at heasy
    cases hname : agg.name with
    | sum | avg => rw [hname] at hmm; cases hmm
    | max => cases hcmp : cmp <;> simp_all [Comparison.flip]
    | min => cases hcmp : cmp <;> simp_all [Comparison.flip]

/-- **A MIN or MAX in its easy direction meets a bound iff every row does.** -/
theorem easy_reduce_iff {scale : Option ScaleFactor} {agg : Aggregate} {cmp : Comparison}
    (hmm : agg.name.isMinMax = true) (hsign : scaleSignAtPlanTime scale ≠ 0)
    (heasy : asksEveryRow scale agg cmp = true) {vs : List ℚ} (hne : vs ≠ []) (k : Bound) :
    cmp.Holds (scaleFactorValue scale * agg.name.reduce vs) k ↔
      ∀ v ∈ vs, cmp.Holds (scaleFactorValue scale * v) k := by
  obtain ⟨hmem, hall⟩ := reduce_attained hmm hne
  refine ⟨fun h v hv => ?_, fun h => h _ hmem⟩
  have hv' := hall v hv
  rcases asksEveryRow_cases hmm hsign heasy with ⟨hcmp, hcase⟩ | ⟨hcmp, hcase⟩
  · refine Comparison.holds_of_le hcmp ?_ h
    rcases hcase with ⟨hname, hf⟩ | ⟨hname, hf⟩
    · rw [if_pos hname] at hv'
      exact mul_le_mul_of_nonneg_left hv' hf
    · rw [if_neg (by simp [hname])] at hv'
      exact mul_le_mul_of_nonpos_left hv' hf.le
  · refine Comparison.holds_of_ge hcmp ?_ h
    rcases hcase with ⟨hname, hf⟩ | ⟨hname, hf⟩
    · rw [if_neg (by simp [hname])] at hv'
      exact mul_le_mul_of_nonneg_left hv' hf
    · rw [if_pos hname] at hv'
      exact mul_le_mul_of_nonpos_left hv' hf.le

theorem mem_groupMates {whens : List RowMask} {pers : List RowKey} {n r₀ r : Nat} :
    r ∈ groupMates whens pers n r₀ ↔ r < n ∧ groupUnder whens pers r = groupUnder whens pers r₀ := by
  simp [groupMates]

theorem groupMates_congr {whens : List RowMask} {pers : List RowKey} {n r r₀ : Nat}
    (h : groupUnder whens pers r = groupUnder whens pers r₀) :
    groupMates whens pers n r = groupMates whens pers n r₀ := by
  simp [groupMates, h]

/-- A kept row of a group is one of its reducer's. -/
theorem mem_members {agg : Aggregate} {rows : List Nat} {r : Nat} :
    r ∈ agg.members rows ↔ r ∈ rows ∧ agg.keeps r = true := List.mem_filter

/-- The scaled body of a reducer at a row. -/
def scaledBody (scale : Option ScaleFactor) (agg : Aggregate) (indexer : VarIndexer) (a : Nat → ℚ)
    (r : Nat) : ℚ :=
  scaleFactorValue scale * rowValue agg.child r fun v => a (indexer.get v r)

/-- **A lone MIN or MAX in its easy direction asks every kept row for the bounds of its group.** -/
theorem lone_holdsUnder_iff {c : DecideComparison} {scale : Option ScaleFactor} {agg : Aggregate}
    (hl : LoneMinMax c scale agg) {cmp : Comparison} (heasy : asksEveryRow scale agg cmp = true)
    {whens : List RowMask} {pers : List RowKey} :
    DecideComparison.HoldsUnder { c with cmp } indexer whens pers a ↔
      MeetsBounds cmp (scaledBody scale agg indexer a) c.rhs.value agg.keeps indexer.numRows whens
        pers := by
  have hmm : agg.name.isMinMax = true := (Bool.and_eq_true_iff.mp hl.minMax).1
  have hin : ∀ rows r₀, (DecideComparison.HoldsIn { c with cmp } indexer a rows r₀ ↔
      ∀ r ∈ agg.members rows, ∀ i ∈ rows,
        cmp.Holds (scaledBody scale agg indexer a r) (c.rhs.value rows i)) := by
    intro rows r₀
    unfold DecideComparison.HoldsIn
    simp only [hl.lhs_eq, AggregateSum.Defined, AggregateSum.valueIn, Aggregate.valueOver]
    constructor
    · intro h r hr i hi
      have hne : agg.members rows ≠ [] := List.ne_nil_of_mem hr
      exact (easy_reduce_iff hmm hl.sign_ne heasy (by simpa using hne) _).mp (h hne i hi) _
        (List.mem_map_of_mem hr)
    · intro h hne i hi
      refine (easy_reduce_iff hmm hl.sign_ne heasy (by simpa using hne) _).mpr ?_
      simp only [List.forall_mem_map]
      exact fun r hr => h r hr i hi
  unfold DecideComparison.HoldsUnder MeetsBounds
  simp only [hin, mem_members, mem_groupMates]
  constructor
  · intro h r i hr hi hsome hgroup hkept
    exact h r hr hsome r ⟨⟨hr, rfl⟩, hkept⟩ i ⟨hi, hgroup⟩
  · rintro h r₀ hr₀ hsome r ⟨⟨hr, hrg⟩, hkept⟩ i ⟨hi, hig⟩
    have := h r i hr hi (hrg ▸ hsome) (hig.trans hrg.symm) hkept
    rwa [groupMates_congr hrg] at this

/-- **A per-row comparison that was a MIN or MAX asks every row for the bounds of its group.** -/
theorem easyComparison_holdsUnder_iff {scale : Option ScaleFactor} {agg : Aggregate}
    {cmp : Comparison} {rhs : RhsExpr} {whens : List RowMask} {pers : List RowKey} :
    (easyComparison scale agg cmp rhs).HoldsUnder indexer whens pers a ↔
      MeetsBounds cmp (scaledBody scale agg indexer a) rhs.value (fun _ => true) indexer.numRows
        whens pers := by
  unfold DecideComparison.HoldsUnder DecideComparison.HoldsIn MeetsBounds
  simp only [easyComparison, if_true, mem_groupMates]
  exact ⟨fun h r i hr hi hsome hgroup _ => h r hr hsome i ⟨hi, hgroup⟩,
    fun h r hr hsome i hi => h r i hr hi.1 hsome hi.2 trivial⟩

/-- The data a body without a factor adds at a row. -/
def crossedOffset (scale : Option ScaleFactor) (agg : Aggregate) (r : Nat) : ℚ :=
  decideRowFixedLhsOffset (crossingTerms scale agg.child) r

/-- What stays on the left is the body without its data. -/
theorem scaledBody_staying (scale : Option ScaleFactor) (agg : Aggregate) (r : Nat) :
    scaledBody scale { agg with child := stayingTerms scale agg.child } indexer a r =
      scaledBody scale agg indexer a r - crossedOffset scale agg r := by
  unfold scaledBody crossedOffset crossingTerms stayingTerms
  cases scale with
  | some s => simp [decideRowFixedLhsOffset]
  | none =>
    have hsplit : ∀ terms : List LhsTerm,
        rowValue (terms.filter fun t => !(t.variableIndex.isNone && t.summand)) r
            (fun v => a (indexer.get v r)) =
          rowValue terms r (fun v => a (indexer.get v r)) -
            decideRowFixedLhsOffset
              (terms.filter fun t => t.variableIndex.isNone && t.summand) r := by
      intro terms
      induction terms with
      | nil => simp [rowValue, rowVariablePart, decideRowFixedLhsOffset]
      | cons t terms ih =>
        unfold rowValue rowVariablePart decideRowFixedLhsOffset at ih ⊢
        cases hv : t.variableIndex with
        | none =>
          cases hsum : t.summand
          · simp only [hv, hsum, Option.isNone_none, Bool.and_false, Bool.not_false,
              List.filter_cons, if_true, List.map_cons, List.sum_cons, Bool.false_eq_true,
              if_false]
            linarith
          · simp only [hv, hsum, Option.isNone_none, Bool.and_true, Bool.not_true,
              List.filter_cons, if_true, List.map_cons, List.sum_cons, Bool.false_eq_true,
              if_false]
            linarith
        | some v =>
          simp only [hv, Option.isNone_some, Bool.false_and, Bool.not_false, List.filter_cons,
            if_true, List.map_cons, List.sum_cons, Bool.false_eq_true, if_false]
          linarith
    simp only [scaleFactorValue, one_mul, Option.isSome_none, Bool.false_eq_true, if_false,
      hsplit]

theorem cross_value (rhs : RhsExpr) (crossing : List LhsTerm) (rows : List Nat) (i : Nat) :
    (rhs.cross crossing).value rows i =
      (rhs.value rows i).sub (decideRowFixedLhsOffset crossing i) := by
  unfold RhsExpr.cross
  cases crossing with
  | nil =>
    simp only [List.isEmpty_nil, if_true, decideRowFixedLhsOffset, List.filter_nil, List.map_nil,
      List.sum_nil, Bound.sub, sub_zero]
    cases rhs.value rows i <;> rfl
  | cons t ts => rfl

/-- The easy half of an equality faces bounds the data of its body was moved to. -/
theorem canonicalEasyHalf_holdsUnder_iff {scale : Option ScaleFactor} {agg : Aggregate}
    {cmp : Comparison} {rhs : RhsExpr} {whens : List RowMask} {pers : List RowKey} :
    (canonicalEasyHalf scale agg cmp rhs).HoldsUnder indexer whens pers a ↔
      MeetsBounds cmp (fun r => scaledBody scale agg indexer a r - crossedOffset scale agg r)
        (fun rows i => (rhs.value rows i).sub (crossedOffset scale agg i)) (fun _ => true)
        indexer.numRows whens pers := by
  unfold canonicalEasyHalf
  rw [easyComparison_holdsUnder_iff]
  unfold MeetsBounds
  simp only [scaledBody_staying, cross_value, crossedOffset]

/-- A tagged MIN or MAX says what the written one says. -/
theorem hard_holdsUnder_iff {c : DecideComparison} {scale : Option ScaleFactor} {agg : Aggregate}
    (hl : LoneMinMax c scale agg) (cmp : Comparison) {whens : List RowMask} {pers : List RowKey} :
    (hardComparison scale agg cmp c.rhs).HoldsUnder indexer whens pers a ↔
      DecideComparison.HoldsUnder { c with cmp } indexer whens pers a := by
  unfold DecideComparison.HoldsUnder DecideComparison.HoldsIn hardComparison
  simp only [hl.lhs_eq, AggregateSum.Defined, AggregateSum.valueIn]

/-! ## Lifted compositions -/

/-- A composition over MIN or MAX has no value without rows. -/
theorem not_defined_nil {lhs : AggregateSum} (h : lhs.additiveContainsMinMax = true) :
    ¬ lhs.Defined [] := by
  induction lhs with
  | reducer scale agg => exact fun hd => hd rfl
  | constant k => cases h
  | add l r ihl ihr =>
    rintro ⟨hl, hr⟩
    rcases Bool.or_eq_true_iff.mp h with h | h
    · exact ihl h hl
    · exact ihr h hr
  | sub l r ihl ihr =>
    rintro ⟨hl, hr⟩
    rcases Bool.or_eq_true_iff.mp h with h | h
    · exact ihl h hl
    · exact ihr h hr
  | neg e ih => exact ih h

theorem additiveContainsMinMax_of_isComposed {lhs : AggregateSum} (h : lhs.isComposed = true) :
    lhs.additiveContainsMinMax = true := by
  unfold AggregateSum.isComposed at h
  rcases Bool.or_eq_true_iff.mp h with h | h
  · cases lhs with
    | reducer scale agg =>
      cases scale with
      | none => cases h
      | some s => exact (Bool.and_eq_true_iff.mp h).2
    | constant k => cases h
    | add l r => cases h
    | sub l r => cases h
    | neg e => cases h
  · exact (Bool.and_eq_true_iff.mp h).2

/-- Over all rows, the group's reading of an expression is the clause's. -/
theorem valueIn_range (lhs : AggregateSum) :
    lhs.valueIn indexer (List.range indexer.numRows) a = lhs.value indexer indexer.numRows a := by
  induction lhs with
  | reducer scale agg => rfl
  | constant k => rfl
  | add l r ihl ihr => simp only [AggregateSum.valueIn, AggregateSum.value, ihl, ihr]
  | sub l r ihl ihr => simp only [AggregateSum.valueIn, AggregateSum.value, ihl, ihr]
  | neg e ih => simp only [AggregateSum.valueIn, AggregateSum.value, ih]

theorem groupMates_nil (n r₀ : Nat) : groupMates [] [] n r₀ = List.range n := by
  simp [groupMates, groupUnder]

/-- **A lifted clause says what the comparison says without any wrapper.** -/
theorem composed_holds_iff {c : DecideComparison} {lhs : AggregateSum}
    (hlhs : c.lhs = .reducers lhs) (hcomp : lhs.isComposed = true)
    {terms : List ComposedMinMaxTerm} (hrhs : ∃ k, composedRhs ⟨lhs, c.cmp, c.rhs, terms⟩ = .ok k) :
    ComposedMinMaxConstraint.Holds ⟨lhs, c.cmp, c.rhs, terms⟩ indexer a ↔
      c.HoldsUnder indexer [] [] a := by
  obtain ⟨k, hk⟩ := hrhs
  have hconst : c.rhs = .constant k := by
    unfold composedRhs at hk
    cases hr : c.rhs with
    | constant k' => rw [hr] at hk; rw [Except.ok.inj hk]
    | rowVarying text value => rw [hr] at hk; cases hk
  have hnil := not_defined_nil (additiveContainsMinMax_of_isComposed hcomp)
  unfold ComposedMinMaxConstraint.Holds DecideComparison.HoldsUnder DecideComparison.HoldsIn
  simp only [hlhs, groupMates_nil, valueIn_range, hconst, RhsExpr.value]
  constructor
  · intro h r₀ _ _ hd i _
    exact h hd k (hconst ▸ hk)
  · intro h hd k' hk'
    have hk'' : k' = k := Except.ok.inj (hk'.symm.trans (hconst ▸ hk))
    rw [hk'']
    by_cases hn : indexer.numRows = 0
    · rw [hn] at hd
      exact absurd hd hnil
    · exact h 0 (Nat.pos_of_ne_zero hn) rfl hd 0 (List.mem_range.mpr (Nat.pos_of_ne_zero hn))

/-! ## The whole rewrite -/

/-- A comparison keeps its meaning through the rewrites. -/
structure WrappersKept (c : DecideComparison) (indexer : VarIndexer) (ws : List Wrapper)
    (a : Nat → ℚ) : Prop where
  /-- A lifted composition meets its bound over all rows iff it does over every group. -/
  composed : ∀ lhs, c.lhs = .reducers lhs → lhs.isComposed = true → ws ≠ [] →
    (c.HoldsUnder indexer [] [] a ↔ c.HoldsUnder indexer (nestWhens ws) (nestPers ws) a)
  /-- An equality that is reached from its hard side: every row its own WHEN keeps meets the bound
  of every such row, data exchanged, iff every kept row of a group meets the bounds of the group. -/
  equality : ∀ scale agg, LoneMinMax c scale agg → c.cmp = .eq →
    DecideComparison.HoldsUnder { c with cmp := hardHalfCmp scale agg } indexer (nestWhens ws)
        (nestPers ws) a →
      (MeetsBounds (easyHalfCmp scale agg)
          (fun r => scaledBody scale agg indexer a r - crossedOffset scale agg r)
          (fun rows i => (c.rhs.value rows i).sub (crossedOffset scale agg i)) (fun _ => true)
          indexer.numRows agg.filter.toList [] ↔
        MeetsBounds (easyHalfCmp scale agg) (scaledBody scale agg indexer a) c.rhs.value agg.keeps
          indexer.numRows (nestWhens ws) (nestPers ws))
  /-- An easy comparison: every row the conditions keep meets the bound of every such row, whatever
  their groups, iff every kept row of a group meets the bounds of the group. -/
  easy : ∀ scale agg, LoneMinMax c scale agg → c.cmp ≠ .eq → asksEveryRow scale agg c.cmp = true →
    (MeetsBounds c.cmp (scaledBody scale agg indexer a) c.rhs.value (fun _ => true)
        indexer.numRows (nestWhens ws ++ agg.filter.toList) [] ↔
      MeetsBounds c.cmp (scaledBody scale agg indexer a) c.rhs.value agg.keeps indexer.numRows
        (nestWhens ws) (nestPers ws))

/-- A lone MIN/MAX is no composition. -/
theorem not_isComposed_of_lone {c : DecideComparison} {scale : Option ScaleFactor} {agg : Aggregate}
    (hl : LoneMinMax c scale agg) {lhs : AggregateSum} (hlhs : c.lhs = .reducers lhs) :
    lhs.isComposed = false := by
  have heq := hlhs.symm.trans hl.lhs_eq
  simp only [DecideLhs.reducers.injEq] at heq
  subst heq
  cases scale with
  | none => rfl
  | some s =>
    simp [AggregateSum.isComposed, AggregateSum.unknownSignLoneMinMax, AggregateSum.isAddNode,
      AggregateSum.isSubNode, hl.sign_ne]

/-- A comparison has one factor and one reducer. -/
theorem LoneMinMax.unique {c : DecideComparison} {scale scale' : Option ScaleFactor}
    {agg agg' : Aggregate} (hl : LoneMinMax c scale agg) (hl' : LoneMinMax c scale' agg') :
    scale' = scale ∧ agg' = agg := by
  have heq := hl'.lhs_eq.symm.trans hl.lhs_eq
  simpa only [DecideLhs.reducers.injEq, AggregateSum.reducer.injEq] using heq

/-- What the comparison of a nest becomes when it is not lifted. -/
theorem rewriteMinMaxConstraints_nest {c : DecideComparison} {ws : List Wrapper}
    {t : ConstraintTree DecideComparison}
    (h : rewriteMinMaxConstraints (nest ws (.comparison c)) = .ok t) :
    ∃ r, rewriteMinMaxComparison c = .ok r ∧
      (t.Holds indexer a ↔
        (nest (keptWrappers r.wasEasy ws) r.constraint).Holds indexer a ∧
          ∀ t' ∈ r.generated, t'.Holds indexer a) := by
  unfold rewriteMinMaxConstraints at h
  rw [rewriteMinMax_nest] at h
  simp only [rewriteMinMaxInConstraint] at h
  cases hr : rewriteMinMaxComparison c with
  | error e => rw [hr] at h; cases h
  | ok r =>
    rw [hr] at h
    obtain rfl := Except.ok.inj h
    exact ⟨r, rfl, holds_foldl_conjunction _ _⟩

/-- A lifted comparison leaves nothing behind. -/
theorem rewriteMinMaxConstraints_placeholder {ws : List Wrapper}
    {t : ConstraintTree DecideComparison}
    (h : rewriteMinMaxConstraints (nest ws .placeholder) = .ok t) : t.Holds indexer a := by
  unfold rewriteMinMaxConstraints at h
  rw [rewriteMinMax_nest] at h
  obtain rfl := Except.ok.inj h
  exact holds_nest_placeholder ws

theorem nestWhens_append (ws ws' : List Wrapper) :
    nestWhens (ws ++ ws') = nestWhens ws ++ nestWhens ws' := List.filterMap_append

theorem nestPers_append (ws ws' : List Wrapper) :
    nestPers (ws ++ ws') = nestPers ws ++ nestPers ws' := List.filterMap_append

theorem nestWhens_inl (ms : List RowMask) : nestWhens (ms.map .inl) = ms := by
  induction ms with
  | nil => rfl
  | cons m ms ih => exact congrArg (m :: ·) ih

theorem nestPers_inl (ms : List RowMask) : nestPers (ms.map .inl) = [] := by
  induction ms with
  | nil => rfl
  | cons m ms ih => exact ih

theorem nestWhens_kept (ws : List Wrapper) : nestWhens (keptWrappers true ws) = nestWhens ws := by
  induction ws with
  | nil => rfl
  | cons w ws ih =>
    cases w with
    | inl m => exact congrArg (m :: ·) ih
    | inr k => exact ih

theorem nestPers_kept (ws : List Wrapper) : nestPers (keptWrappers true ws) = [] := by
  induction ws with
  | nil => rfl
  | cons w ws ih =>
    cases w with
    | inl m => exact ih
    | inr k => exact ih

/-- A comparison under the wrappers an easy rewrite keeps, and under its own WHEN. -/
theorem holds_kept_underFilter (ws : List Wrapper) (filter : Option RowMask)
    (c : DecideComparison) :
    (nest (keptWrappers true ws) (underFilter filter (.comparison c))).Holds indexer a ↔
      c.HoldsUnder indexer (nestWhens ws ++ filter.toList) [] a := by
  rw [nest_underFilter, holds_nest_comparison, nestWhens_append, nestPers_append, nestWhens_kept,
    nestPers_kept, nestWhens_inl, nestPers_inl, List.nil_append]

theorem holds_underFilter (filter : Option RowMask) (c : DecideComparison) :
    (underFilter filter (.comparison c)).Holds indexer a ↔
      c.HoldsUnder indexer filter.toList [] a := by
  have h := @holds_kept_underFilter indexer a [] filter c
  exact h

/-- The two halves of an equality are its two directions. -/
theorem halves_eq_directions (scale : Option ScaleFactor) (agg : Aggregate) :
    (easyHalfCmp scale agg = .le ∧ hardHalfCmp scale agg = .ge) ∨
      (easyHalfCmp scale agg = .ge ∧ hardHalfCmp scale agg = .le) := by
  unfold easyHalfCmp hardHalfCmp flipBySign
  by_cases hname : agg.name = .max
  · by_cases hs : scaleSignAtPlanTime scale < 0
    · simp [hname, hs, Comparison.flip]
    · simp [hname, hs]
  · by_cases hs : scaleSignAtPlanTime scale < 0
    · simp [hname, hs, Comparison.flip]
    · simp [hname, hs]

/-- The easy half of an equality asks every row. -/
theorem asksEveryRow_easyHalf {scale : Option ScaleFactor} {agg : Aggregate}
    (hmm : agg.name.isMinMax = true) : asksEveryRow scale agg (easyHalfCmp scale agg) = true := by
  unfold asksEveryRow easyHalfCmp isEasyMinMax flipBySign
  cases hname : agg.name with
  | sum | avg => rw [hname] at hmm; cases hmm
  | min => by_cases hs : scaleSignAtPlanTime scale < 0 <;> simp [hs, Comparison.flip]
  | max => by_cases hs : scaleSignAtPlanTime scale < 0 <;> simp [hs, Comparison.flip]

/-- An equality is its two halves. -/
theorem eq_holdsUnder_iff {c : DecideComparison} {scale : Option ScaleFactor} {agg : Aggregate}
    (hl : LoneMinMax c scale agg) (hcmp : c.cmp = .eq) {whens : List RowMask} {pers : List RowKey} :
    c.HoldsUnder indexer whens pers a ↔
      DecideComparison.HoldsUnder { c with cmp := hardHalfCmp scale agg } indexer whens pers a ∧
        DecideComparison.HoldsUnder { c with cmp := easyHalfCmp scale agg } indexer whens pers a := by
  have hboth : ∀ (v : ℚ) (k : Bound), c.cmp.Holds v k ↔
      (hardHalfCmp scale agg).Holds v k ∧ (easyHalfCmp scale agg).Holds v k := by
    intro v k
    rw [hcmp]
    rcases halves_eq_directions scale agg with ⟨he, hh⟩ | ⟨he, hh⟩
    · rw [he, hh, Comparison.holds_eq, Comparison.holds_ge, Comparison.holds_le]
      exact le_antisymm_iff.trans and_comm
    · rw [he, hh, Comparison.holds_eq, Comparison.holds_ge, Comparison.holds_le]
      exact le_antisymm_iff
  unfold DecideComparison.HoldsUnder DecideComparison.HoldsIn
  simp only [hl.lhs_eq, hboth]
  constructor
  · intro h
    exact ⟨fun r₀ hr₀ hsome hd i hi => (h r₀ hr₀ hsome hd i hi).1,
      fun r₀ hr₀ hsome hd i hi => (h r₀ hr₀ hsome hd i hi).2⟩
  · rintro ⟨h1, h2⟩ r₀ hr₀ hsome hd i hi
    exact ⟨h1 r₀ hr₀ hsome hd i hi, h2 r₀ hr₀ hsome hd i hi⟩

/-- A lifted comparison is read over all rows. -/
theorem wrappersKept_iff_composed {c : DecideComparison} {lhs : AggregateSum} {ws : List Wrapper}
    (hlhs : c.lhs = .reducers lhs) (hcomp : lhs.isComposed = true) :
    (c.HoldsUnder indexer [] [] a ↔ c.HoldsUnder indexer (nestWhens ws) (nestPers ws) a) ↔
      WrappersKept c indexer ws a := by
  have hnot : ∀ scale agg, ¬ LoneMinMax c scale agg := fun scale agg hl => by
    rw [not_isComposed_of_lone hl hlhs] at hcomp
    cases hcomp
  constructor
  · intro h
    exact ⟨fun _ _ _ _ => h, fun _ _ hl => absurd hl (hnot _ _),
      fun _ _ hl => absurd hl (hnot _ _)⟩
  · intro h
    by_cases hws : ws = []
    · subst hws
      exact Iff.rfl
    · exact h.composed lhs hlhs hcomp hws

/-- A comparison nothing takes apart stays where it is. -/
theorem wrappersKept_of_untouched {c : DecideComparison} {lhs : AggregateSum} {ws : List Wrapper}
    (hlhs : c.lhs = .reducers lhs) (hcomp : lhs.isComposed = false)
    (hnot : ∀ scale agg, ¬ LoneMinMax c scale agg) : WrappersKept c indexer ws a := by
  refine ⟨fun lhs' hlhs' hcomp' _ => ?_, fun _ _ hl => absurd hl (hnot _ _),
    fun _ _ hl => absurd hl (hnot _ _)⟩
  rw [DecideLhs.reducers.inj (hlhs'.symm.trans hlhs), hcomp] at hcomp'
  cases hcomp'

/-- The clauses an equality is split into. -/
theorem wrappersKept_iff_equality {c : DecideComparison} {scale : Option ScaleFactor}
    {agg : Aggregate} (hl : LoneMinMax c scale agg) (heq : c.cmp = .eq) {ws : List Wrapper} :
    ((DecideComparison.HoldsUnder { c with cmp := hardHalfCmp scale agg } indexer (nestWhens ws)
            (nestPers ws) a ∧
          (canonicalEasyHalf scale agg (easyHalfCmp scale agg) c.rhs).HoldsUnder indexer
            agg.filter.toList [] a) ↔
        c.HoldsUnder indexer (nestWhens ws) (nestPers ws) a) ↔
      WrappersKept c indexer ws a := by
  have hmm : agg.name.isMinMax = true := (Bool.and_eq_true_iff.mp hl.minMax).1
  rw [eq_holdsUnder_iff hl heq, lone_holdsUnder_iff hl (asksEveryRow_easyHalf hmm),
    canonicalEasyHalf_holdsUnder_iff, and_congr_right_iff]
  constructor
  · intro h
    refine ⟨fun lhs hlhs hcomp _ => ?_, fun _ _ hl' _ => ?_, fun _ _ _ hne => absurd heq hne⟩
    · rw [not_isComposed_of_lone hl hlhs] at hcomp
      cases hcomp
    · obtain ⟨rfl, rfl⟩ := hl.unique hl'
      exact h
  · intro h
    exact h.equality scale agg hl heq

/-- What is left of an easy comparison. -/
theorem wrappersKept_iff_easy {c : DecideComparison} {scale : Option ScaleFactor} {agg : Aggregate}
    (hl : LoneMinMax c scale agg) (hne : c.cmp ≠ .eq) (heasy : asksEveryRow scale agg c.cmp = true)
    {ws : List Wrapper} :
    ((easyComparison scale agg c.cmp c.rhs).HoldsUnder indexer (nestWhens ws ++ agg.filter.toList)
          [] a ↔
        c.HoldsUnder indexer (nestWhens ws) (nestPers ws) a) ↔
      WrappersKept c indexer ws a := by
  have hwritten := @lone_holdsUnder_iff indexer a _ _ _ hl _ heasy (nestWhens ws) (nestPers ws)
  rw [easyComparison_holdsUnder_iff]
  constructor
  · intro h
    refine ⟨fun lhs hlhs hcomp _ => ?_, fun _ _ _ heq => absurd heq hne, fun _ _ hl' _ _ => ?_⟩
    · rw [not_isComposed_of_lone hl hlhs] at hcomp
      cases hcomp
    · obtain ⟨rfl, rfl⟩ := hl.unique hl'
      exact h.trans hwritten
  · intro h
    exact (h.easy scale agg hl hne heasy).trans hwritten.symm

/-- A hard comparison that is no equality stays where it is. -/
theorem wrappersKept_of_hard {c : DecideComparison} {scale : Option ScaleFactor} {agg : Aggregate}
    (hl : LoneMinMax c scale agg) (hne : c.cmp ≠ .eq) (hhard : asksEveryRow scale agg c.cmp = false)
    {ws : List Wrapper} : WrappersKept c indexer ws a := by
  refine ⟨fun lhs hlhs hcomp _ => ?_, fun _ _ _ heq => absurd heq hne, fun _ _ hl' _ heasy => ?_⟩
  · rw [not_isComposed_of_lone hl hlhs] at hcomp
    cases hcomp
  · obtain ⟨rfl, rfl⟩ := hl.unique hl'
    rw [hhard] at heasy
    cases heasy

/-- `RewriteMinMaxConstraints` on a comparison that was not lifted. -/
theorem wrappersKept_iff_rewritten {c : DecideComparison} {lhs : AggregateSum} {ws : List Wrapper}
    {t : ConstraintTree DecideComparison} (hlhs : c.lhs = .reducers lhs)
    (hcomp : lhs.isComposed = false)
    (h : rewriteMinMaxConstraints (nest ws (.comparison c)) = .ok t) :
    (t.Holds indexer a ↔ c.HoldsUnder indexer (nestWhens ws) (nestPers ws) a) ↔
      WrappersKept c indexer ws a := by
  obtain ⟨r, hr, hholds⟩ := @rewriteMinMaxConstraints_nest indexer a _ _ _ h
  rw [hholds]
  rcases rewriteMinMaxComparison_cases hr with ⟨rfl, hnot⟩ | ⟨scale, agg, hl, -, hcase⟩
  · have hstay : (nest (keptWrappers false ws) (.comparison c)).Holds indexer a ↔
        c.HoldsUnder indexer (nestWhens ws) (nestPers ws) a := holds_nest_comparison ws c
    exact iff_of_true (by simpa using hstay) (wrappersKept_of_untouched hlhs hcomp hnot)
  · rcases hcase with ⟨heq, rfl⟩ | ⟨hne, heasy, rfl⟩ | ⟨hne, hhard, rfl⟩
    · have hstay := (@holds_nest_comparison indexer a ws
        (hardComparison scale agg (hardHalfCmp scale agg) c.rhs)).trans (hard_holdsUnder_iff hl _)
      rw [← wrappersKept_iff_equality hl heq, ← hstay, ← holds_underFilter]
      simp [keptWrappers]
    · rw [← wrappersKept_iff_easy hl hne heasy, ← holds_kept_underFilter]
      simp
    · have hstay := (@holds_nest_comparison indexer a ws
        (hardComparison scale agg c.cmp c.rhs)).trans (hard_holdsUnder_iff hl c.cmp)
      exact iff_of_true (by simpa [keptWrappers] using hstay) (wrappersKept_of_hard hl hne hhard)

/-- What lifts a comparison. -/
theorem rewriteComposedComparison_cases {c : DecideComparison} {lhs : AggregateSum}
    {result : Option ComposedMinMaxConstraint} (hlhs : c.lhs = .reducers lhs)
    (h : rewriteComposedComparison c = .ok result) :
    (result = none ∧ lhs.isComposed = false) ∨
      ∃ terms, result = some ⟨lhs, c.cmp, c.rhs, terms⟩ ∧ lhs.isComposed = true := by
  unfold rewriteComposedComparison at h
  simp only [hlhs] at h
  split at h
  · rename_i hcomp
    split at h
    · cases h
    · rename_i terms _
      exact Or.inr ⟨terms, (Except.ok.inj h).symm, hcomp⟩
  · rename_i hcomp
    exact Or.inl ⟨(Except.ok.inj h).symm, by simpa using hcomp⟩

/-- `MAX(x) = 5`. -/
def maxIsFive : DecideComparison where
  lhs := .reducers (.reducer none
    { name := .max, child := [{ variableIndex := some 0, rowCoefficients := fun _ => 1 }] })
  cmp := .eq
  rhs := .constant 5

/-- Keeps the first row. -/
def firstRow : RowMask := fun r => r = 0

/-- The first row is at 5, the second above. -/
def fiveThenSeven : Nat → ℚ := fun c => if c = 0 then 5 else 7

theorem exists_rewriteMinMaxClauses_maxIsFive : ∃ t,
    rewriteMinMaxClauses (nest [.inl firstRow] (.comparison maxIsFive)) = .ok (t, []) ∧
      rewriteMinMaxConstraints (nest [.inl firstRow] (.comparison maxIsFive)) = .ok t :=
  ⟨_, rfl, rfl⟩

theorem maxIsFive_holdsUnder_firstRow :
    maxIsFive.HoldsUnder (.rowScoped 2 0) (nestWhens [.inl firstRow]) (nestPers [.inl firstRow])
      fiveThenSeven := by
  intro r₀ hr₀ hsome
  have hr : r₀ = 0 := by simpa [firstRow, nestWhens] using (groupUnder_isSome.mp hsome).1
  subst hr
  have hrows : groupMates (nestWhens [.inl firstRow]) (nestPers [.inl firstRow]) 2 0 = [0] := by
    decide
  intro _ i hi
  have hvalue : AggregateSum.valueIn (.rowScoped 2 0) [0] fiveThenSeven (.reducer none
      { name := .max, child := [{ variableIndex := some 0, rowCoefficients := fun _ => 1 }] }) =
        5 := by decide +kernel
  change Comparison.eq.Holds (AggregateSum.valueIn _ (groupMates _ _ 2 0) _ _) (.fin 5)
  rw [hrows, hvalue]
  rfl

/-- The easy half was moved out of the WHEN and meets the second row. -/
theorem not_wrappersKept_maxIsFive :
    ¬ WrappersKept maxIsFive (.rowScoped 2 0) [.inl firstRow] fiveThenSeven := by
  intro h
  have hl : LoneMinMax maxIsFive none
      { name := .max, child := [{ variableIndex := some 0, rowCoefficients := fun _ => 1 }] } :=
    ⟨rfl, rfl, by decide⟩
  obtain ⟨hhard, heasy⟩ := (eq_holdsUnder_iff hl rfl).mp maxIsFive_holdsUnder_firstRow
  rw [lone_holdsUnder_iff hl (asksEveryRow_easyHalf rfl)] at heasy
  have hmoved := (h.equality _ _ hl rfl hhard).mpr heasy 1 1 (by decide) (by decide) rfl rfl rfl
  revert hmoved
  show ¬ Comparison.le.Holds (scaledBody none _ (.rowScoped 2 0) fiveThenSeven 1 - 0) (.fin (5 - 0))
  decide +kernel

end Decidb
