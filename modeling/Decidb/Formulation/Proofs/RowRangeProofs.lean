import Decidb.Formulation.Proofs.AbsLinkProofs
import Decidb.Formulation.Proofs.ComposedMinMaxProofs
import Decidb.Formulation.Proofs.MinMaxConstraintProofs
import Decidb.Formulation.Proofs.NormCountProofs
import Decidb.Formulation.RowRange

/-!
# Derived ranges contain every reachable value

Each walk is the same over the terms it counts, and those have no coefficient below the cut; what is
known of clean rows carries over.
-/

namespace Decidb

variable {terms : List LhsTerm} {row : Nat} {lower upper : List ℚ} {skip : Option Nat}

/-! ## Terms that count -/

theorem mem_countedTerms {t : LhsTerm} : t ∈ countedTerms skip row terms ↔
    t ∈ terms ∧ ¬ (t.variableIndex.isSome ∧ t.variableIndex = skip) ∧
      coefficientCut ≤ |t.rowCoefficients row| := by
  unfold countedTerms
  rw [List.mem_filter, Bool.and_eq_true, Bool.not_eq_true', decide_eq_true_eq, ← Bool.not_eq_true,
    Bool.and_eq_true, beq_iff_eq]

theorem noTiny_countedTerms : NoTinyCoefficient (countedTerms skip row terms) row :=
  fun _ ht => Or.inr (mem_countedTerms.mp ht).2.2

/-- Without a coefficient below the cut, everything counts. -/
theorem countedPart_none (h : NoTinyCoefficient terms row) (x : Nat → ℚ) :
    countedPart none terms row x = rowVariablePart terms row x := by
  unfold countedPart
  induction terms with
  | nil => rfl
  | cons t terms ih =>
    have htail := ih fun u hu => h u (List.mem_cons_of_mem _ hu)
    rw [rowVariablePart_cons, ← htail]
    by_cases hcut : coefficientCut ≤ |t.rowCoefficients row|
    · have hcons : countedTerms none row (t :: terms) = t :: countedTerms none row terms := by
        unfold countedTerms
        refine List.filter_cons_of_pos ?_
        cases hv : t.variableIndex <;> simp [hcut]
      rw [hcons, rowVariablePart_cons]
    · have hcons : countedTerms none row (t :: terms) = countedTerms none row terms := by
        unfold countedTerms
        exact List.filter_cons_of_neg (by simp [hcut])
      have h0 := (h t List.mem_cons_self).resolve_right hcut
      have hzero : termContribution row x t = 0 := by
        unfold termContribution
        cases t.variableIndex <;> simp [h0]
      rw [hcons, hzero, zero_add]

/-- A walk that passes over what does not count is the walk over what does. -/
theorem foldl_countedTerms {α : Type} {f g : α → LhsTerm → α} (acc : α)
    (hcounts : ∀ acc t, t ∈ countedTerms skip row [t] → f acc t = g acc t)
    (hskips : ∀ acc t, t ∉ countedTerms skip row [t] → f acc t = acc) :
    terms.foldl f acc = (countedTerms skip row terms).foldl g acc := by
  unfold countedTerms at hcounts hskips ⊢
  rw [List.foldl_filter]
  refine List.foldl_ext _ _ _ fun acc t _ => ?_
  split
  · rename_i h
    exact hcounts acc t (List.mem_filter.mpr ⟨List.mem_singleton_self t, h⟩)
  · rename_i h
    exact hskips acc t fun hmem => h (List.mem_filter.mp hmem).2

theorem mem_countedTerms_self {t : LhsTerm} : t ∈ countedTerms skip row [t] ↔
    ¬ (t.variableIndex.isSome ∧ t.variableIndex = skip) ∧
      coefficientCut ≤ |t.rowCoefficients row| := by
  rw [mem_countedTerms, and_iff_right (List.mem_singleton_self t)]

/-! ## The signed range -/

theorem decideRowSignedRange_counted : decideRowSignedRange terms row lower upper skip =
    decideRowSignedRange (countedTerms skip row terms) row lower upper := by
  refine foldl_countedTerms _ (fun acc t ht => ?_) fun acc t ht => ?_
  · obtain ⟨hne, hcut⟩ := mem_countedTerms_self.mp ht
    unfold signedRangeStep
    cases hv : t.variableIndex with
    | none => rfl
    | some v =>
      have hskip : some v ≠ skip := fun h => hne ⟨by rw [hv]; rfl, by rw [hv, h]⟩
      simp only [hskip, if_false, reduceCtorEq]
  · rw [mem_countedTerms_self, not_and_or, not_not, not_le] at ht
    unfold signedRangeStep
    cases hv : t.variableIndex with
    | none => rfl
    | some v =>
      rw [hv] at ht
      dsimp only
      rcases ht with ⟨-, hskip⟩ | htiny
      · rw [if_pos hskip]
      · rw [if_pos htiny, ite_self]

/-- A term that counts leaves an end open where its own box does, or where it was open before. -/
theorem signedRangeStep_open (lower upper : List ℚ) (acc : Option ℚ × Option ℚ) {t : LhsTerm}
    (hcut : coefficientCut ≤ |t.rowCoefficients row|) :
    ((signedRangeStep row lower upper none acc t).1 = none ↔
        acc.1 = none ∨ OpensLow lower upper row t) ∧
      ((signedRangeStep row lower upper none acc t).2 = none ↔
        acc.2 = none ∨ OpensHigh lower upper row t) := by
  unfold signedRangeStep OpensLow OpensHigh
  cases hv : t.variableIndex with
  | none => simp
  | some v =>
    simp only [reduceCtorEq, if_false, not_lt.mpr hcut, Option.some.injEq, exists_eq_left']
    cases hl : lower[v]? with
    | none => simp
    | some lb =>
      cases hu : upper[v]? with
      | none => simp
      | some ub =>
        by_cases hneg : t.rowCoefficients row < 0
        · by_cases hlb : lb ≤ -solverInfinity <;> by_cases hub : solverInfinity ≤ ub <;>
            simp [hneg, hlb, hub]
        · by_cases hlb : lb ≤ -solverInfinity <;> by_cases hub : solverInfinity ≤ ub <;>
            simp [hneg, hlb, hub]

theorem foldl_signedRange_open (lower upper : List ℚ)
    (hcut : ∀ t ∈ terms, coefficientCut ≤ |t.rowCoefficients row|) :
    ∀ acc : Option ℚ × Option ℚ,
      ((terms.foldl (signedRangeStep row lower upper none) acc).1 = none ↔
        acc.1 = none ∨ ∃ t ∈ terms, OpensLow lower upper row t) ∧
      ((terms.foldl (signedRangeStep row lower upper none) acc).2 = none ↔
        acc.2 = none ∨ ∃ t ∈ terms, OpensHigh lower upper row t) := by
  induction terms with
  | nil => exact fun acc => by simp
  | cons t terms ih =>
    intro acc
    obtain ⟨hlow, hhigh⟩ := signedRangeStep_open lower upper acc (hcut t List.mem_cons_self)
    obtain ⟨ihlow, ihhigh⟩ := ih (fun u hu => hcut u (List.mem_cons_of_mem _ hu))
      (signedRangeStep row lower upper none acc t)
    rw [List.foldl_cons, List.exists_mem_cons_iff, List.exists_mem_cons_iff, ← or_assoc, ← or_assoc,
      ← hlow, ← hhigh]
    exact ⟨ihlow, ihhigh⟩

/-- **The signed range of a row.** -/
theorem signedRangeExact (terms : List LhsTerm) (row : Nat) (lower upper : List ℚ)
    (skip : Option Nat) : SignedRangeExact terms row lower upper skip := by
  have hcut : ∀ t ∈ countedTerms skip row terms, coefficientCut ≤ |t.rowCoefficients row| :=
    fun t ht => (mem_countedTerms.mp ht).2.2
  have hopen := foldl_signedRange_open lower upper hcut (some 0, some 0)
  refine ⟨fun x hx => ?_, ?_, ?_⟩
  · rw [decideRowSignedRange_counted]
    exact decideRowSignedRange_brackets hx noTiny_countedTerms
  · rw [decideRowSignedRange_counted, decideRowSignedRange, hopen.1]
    simp
  · rw [decideRowSignedRange_counted, decideRowSignedRange, hopen.2]
    simp

/-! ## The Big-M -/

theorem decideRowTermRange_counted : decideRowTermRange terms row lower upper =
    decideRowTermRange (countedTerms none row terms) row lower upper := by
  refine foldl_countedTerms _ (fun _ _ _ => rfl) fun acc t ht => ?_
  rw [mem_countedTerms_self, not_and_or, not_not, not_le] at ht
  unfold termRangeStep
  cases hv : t.variableIndex with
  | none => rfl
  | some v =>
    rw [hv] at ht
    have htiny := ht.resolve_left fun h => by cases h.2
    simp only [reduceCtorEq, if_false, if_pos htiny]

/-- A term that counts leaves the unsigned reach open where its box is open on either side, and otherwise
adds what its value can come to. -/
theorem termRangeStep_counted (acc : ℚ × Bool) {t : LhsTerm}
    (hcut : coefficientCut ≤ |t.rowCoefficients row|)
    (hbox : ∀ v, t.variableIndex = some v → v < lower.length ∧ v < upper.length) :
    ((termRangeStep row lower upper none acc t).2 = true ↔
        acc.2 = true ∨ OpensLow lower upper row t ∨ OpensHigh lower upper row t) ∧
      ((termRangeStep row lower upper none acc t).2 = false → ∀ x, InBox lower upper x →
        acc.1 + |termContribution row x t| ≤ (termRangeStep row lower upper none acc t).1) := by
  unfold termRangeStep OpensLow OpensHigh termContribution
  cases hv : t.variableIndex with
  | none => simp
  | some v =>
    obtain ⟨hl, hu⟩ := hbox v hv
    simp only [reduceCtorEq, if_false, not_lt.mpr hcut, Option.some.injEq, exists_eq_left',
      List.getElem?_eq_getElem hl, List.getElem?_eq_getElem hu, List.getD_eq_getElem _ _ hl,
      List.getD_eq_getElem _ _ hu]
    by_cases hopen : solverInfinity ≤ upper[v] ∨ lower[v] ≤ -solverInfinity
    · rw [if_pos hopen]
      refine ⟨?_, fun h => by cases h⟩
      by_cases hneg : t.rowCoefficients row < 0 <;> simp only [hneg, if_true, if_false] <;> tauto
    · rw [if_neg hopen]
      rw [not_or] at hopen
      refine ⟨?_, fun _ x hx => ?_⟩
      · by_cases hneg : t.rowCoefficients row < 0 <;> simp [hneg, hopen.1, hopen.2]
      · obtain ⟨hlo, hhi⟩ := hx v _ _ (List.getElem?_eq_getElem hl) (List.getElem?_eq_getElem hu)
        rw [abs_mul]
        refine add_le_add le_rfl (mul_le_mul_of_nonneg_left ?_ (abs_nonneg _))
        exact abs_le_max_abs_abs (hlo.resolve_left hopen.2) (hhi.resolve_left hopen.1)

theorem foldl_termRange_counted (hcut : ∀ t ∈ terms, coefficientCut ≤ |t.rowCoefficients row|)
    (hbox : HasBoxes lower upper terms) : ∀ acc : ℚ × Bool,
      ((terms.foldl (termRangeStep row lower upper none) acc).2 = true ↔
        acc.2 = true ∨ ∃ t ∈ terms, OpensLow lower upper row t ∨ OpensHigh lower upper row t) ∧
      ((terms.foldl (termRangeStep row lower upper none) acc).2 = false → ∀ x, InBox lower upper x →
        acc.1 + |rowVariablePart terms row x| ≤
          (terms.foldl (termRangeStep row lower upper none) acc).1) := by
  induction terms with
  | nil => exact fun acc => by simp [rowVariablePart]
  | cons t terms ih =>
    intro acc
    obtain ⟨hopen, hreach⟩ := termRangeStep_counted acc (hcut t List.mem_cons_self)
      (hbox t List.mem_cons_self)
    obtain ⟨ihopen, ihreach⟩ := ih (fun u hu => hcut u (List.mem_cons_of_mem _ hu))
      (fun u hu => hbox u (List.mem_cons_of_mem _ hu)) (termRangeStep row lower upper none acc t)
    rw [List.foldl_cons]
    refine ⟨?_, fun hclosed x hx => ?_⟩
    · rw [ihopen, hopen, List.exists_mem_cons_iff, or_assoc]
    · have hstep : (termRangeStep row lower upper none acc t).2 = false := by
        rw [← Bool.not_eq_true, ihopen, not_or, Bool.not_eq_true] at hclosed
        exact hclosed.1
      have hfirst := hreach hstep x hx
      have hrest := ihreach hclosed x hx
      have htri := abs_add_le (termContribution row x t) (rowVariablePart terms row x)
      rw [rowVariablePart_cons]
      linarith

/-- The unsigned reach of a row. -/
theorem decideRowTermRange_spec (row : Nat) (hbox : HasBoxes lower upper terms) :
    ((decideRowTermRange terms row lower upper).2 = false ↔ ∀ t ∈ countedTerms none row terms,
        ¬ OpensLow lower upper row t ∧ ¬ OpensHigh lower upper row t) ∧
      ((decideRowTermRange terms row lower upper).2 = false → ∀ x, InBox lower upper x →
        |countedPart none terms row x| ≤ (decideRowTermRange terms row lower upper).1) := by
  have hfold := foldl_termRange_counted
    (fun t ht => (mem_countedTerms.mp ht).2.2 : ∀ t ∈ countedTerms none row terms,
      coefficientCut ≤ |t.rowCoefficients row|)
    (fun t ht => hbox t (mem_countedTerms.mp ht).1 : HasBoxes lower upper _) (0, false)
  rw [decideRowTermRange_counted]
  refine ⟨?_, fun hclosed x hx => ?_⟩
  · rw [← Bool.not_eq_true, decideRowTermRange, hfold.1]
    simp only [Bool.false_eq_true, false_or, not_exists, not_and, not_or]
  · have := hfold.2 hclosed x hx
    rwa [zero_add] at this

/-- **The Big-M of a constraint.** -/
theorem bigMExact {ec : EvaluatedConstraint} {box : FormulationBox}
    (hbox : HasBoxes box.lower box.upper ec.lhsTerms) (numRows : Nat) (varNames : List String) :
    BigMExact ec box numRows varNames := by
  have hspec := fun r => decideRowTermRange_spec r hbox
  refine ⟨fun M hM r hr hin x hx k hk => ?_, ?_, fun h => ?_⟩
  · obtain ⟨k', hk', hclosed, hle⟩ := decideTightPerRowBigM_ok hM r hr hin
    obtain rfl : k = k' := Bound.fin.inj (hk.symm.trans hk')
    have hreach := (hspec r).2 hclosed x hx
    have htri := abs_sub (countedPart none ec.lhsTerms r x) k
    linarith
  · rintro ⟨M, hM⟩ r hr hin
    obtain ⟨k, hk, hclosed, -⟩ := decideTightPerRowBigM_ok hM r hr hin
    exact ⟨⟨k, hk⟩, (hspec r).1.mp hclosed⟩
  · refine decideTightPerRowBigM_isOk fun r hr hin => ?_
    obtain ⟨⟨k, hk⟩, hclosed⟩ := h r hr hin
    exact ⟨k, hk, (hspec r).1.mpr hclosed⟩

/-! ## Families -/

/-- Two values of a closed range are at most its span apart, either way around. -/
theorem AuxRange.abs_sub_le_span {r : AuxRange} {y z : ℚ} (hb : r.unbounded = false)
    (hy : r.Contains y) (hz : r.Contains z) : |z - y| ≤ r.span := by
  rw [abs_le]
  have h1 := AuxRange.sub_le_span hb hy hz
  have h2 := AuxRange.sub_le_span hb hz hy
  constructor <;> linarith

theorem foldl_cover (members : List AuxRange) : ∀ range : AuxRange,
    (∀ y, range.Contains y → (members.foldl AuxRange.cover range).Contains y) ∧
      (∀ m ∈ members, ∀ y, m.Contains y → (members.foldl AuxRange.cover range).Contains y) ∧
      ((members.foldl AuxRange.cover range).loUnbounded = true ↔
        range.loUnbounded = true ∨ ∃ m ∈ members, m.loUnbounded = true) ∧
      ((members.foldl AuxRange.cover range).hiUnbounded = true ↔
        range.hiUnbounded = true ∨ ∃ m ∈ members, m.hiUnbounded = true) := by
  induction members with
  | nil => exact fun range => by simp
  | cons m members ih =>
    intro range
    obtain ⟨hkeep, hmem, hlo, hhi⟩ := ih (range.cover m)
    rw [List.foldl_cons]
    refine ⟨fun y hy => hkeep y (AuxRange.cover_contains_left hy), fun m' hm' y hy => ?_, ?_, ?_⟩
    · rcases List.mem_cons.mp hm' with rfl | hm'
      · exact hkeep y (AuxRange.cover_contains_right hy)
      · exact hmem m' hm' y hy
    · rw [hlo, List.exists_mem_cons_iff, ← or_assoc]
      exact or_congr_left (by simp [AuxRange.cover])
    · rw [hhi, List.exists_mem_cons_iff, ← or_assoc]
      exact or_congr_left (by simp [AuxRange.cover])

/-- **A family folded by `Cover`.** -/
theorem familyCovered (members : List AuxRange) :
    FamilyCovered (members.foldl AuxRange.cover {}) members := by
  obtain ⟨-, hmem, hlo, hhi⟩ := foldl_cover members {}
  refine ⟨hmem, ?_, ?_, fun hb m hm y z hy hz => AuxRange.abs_sub_le_span hb (hmem m hm y hy) hz⟩
  · rw [hlo]
    simp
  · rw [hhi]
    simp

/-- The reach of one row is open where its signed range is. -/
theorem minMaxMember_range (input : SolverInput) (indexer : VarIndexer) (ec : EvaluatedConstraint)
    (r : Nat) :
    (∀ x, InBox input.lowerBounds input.upperBounds x →
      (minMaxMember input indexer ec r).range.Contains
        (countedPart none ec.lhsTerms r x + decideRowFixedLhsOffset ec.lhsTerms r)) ∧
      ((minMaxMember input indexer ec r).range.loUnbounded = true ↔
        ∃ t ∈ countedTerms none r ec.lhsTerms, OpensLow input.lowerBounds input.upperBounds r t) ∧
      ((minMaxMember input indexer ec r).range.hiUnbounded = true ↔
        ∃ t ∈ countedTerms none r ec.lhsTerms, OpensHigh input.lowerBounds input.upperBounds r t) := by
  obtain ⟨hbrackets, hlow, hhigh⟩ := signedRangeExact ec.lhsTerms r input.lowerBounds
    input.upperBounds none
  unfold minMaxMember
  rw [← hlow, ← hhigh]
  generalize decideRowSignedRange ec.lhsTerms r input.lowerBounds input.upperBounds = range at *
  obtain ⟨lo, hi⟩ := range
  refine ⟨fun x hx => ?_, ?_, ?_⟩
  · obtain ⟨hlo, hhi⟩ := hbrackets x hx
    refine AuxRange.coverRowSided_contains ⟨fun l hl => ?_, fun u hu => ?_⟩
    · obtain ⟨l', hl', rfl⟩ := Option.map_eq_some_iff.mp hl
      exact add_le_add (hlo l' hl') le_rfl
    · obtain ⟨u', hu', rfl⟩ := Option.map_eq_some_iff.mp hu
      exact add_le_add (hhi u' hu') le_rfl
  · cases lo <;> cases hi <;>
      simp [AuxRange.coverRowSided, AuxRange.markLoUnbounded, AuxRange.markHiUnbounded]
  · cases lo <;> cases hi <;>
      simp [AuxRange.coverRowSided, AuxRange.markLoUnbounded, AuxRange.markHiUnbounded]

/-- **The family of a group of a hard MIN/MAX.** -/
theorem groupRangeExact (input : SolverInput) (indexer : VarIndexer) (ec : EvaluatedConstraint) {g : Nat}
    (hg : g < ec.groupCount) : ∃ group, (buildMinMaxGroups input indexer ec)[g]? = some group ∧
      GroupRangeExact input ec g group := by
  have hget : (buildMinMaxGroups input indexer ec)[g]? = some
      { members := (groupRows ec input.numRows g).map (minMaxMember input indexer ec)
        family := ((groupRows ec input.numRows g).map (minMaxMember input indexer ec)).foldl
          (fun family m => family.cover m.range) {}
        firstRow := (groupRows ec input.numRows g).head? } := by
    unfold buildMinMaxGroups
    rw [List.getElem?_map, List.getElem?_range hg]
    rfl
  refine ⟨_, hget, ?_⟩
  set rows := groupRows ec input.numRows g with hrows
  have hfamily : (rows.map (minMaxMember input indexer ec)).foldl
      (fun family m => family.cover m.range) {} =
        ((rows.map (minMaxMember input indexer ec)).map (·.range)).foldl AuxRange.cover {} :=
    List.foldl_map.symm
  have hcovered := familyCovered ((rows.map (minMaxMember input indexer ec)).map (·.range))
  rw [← hfamily] at hcovered
  refine ⟨hcovered, fun x hx r hr => ?_, ?_, ?_⟩
  · exact hcovered.contains _ (List.mem_map_of_mem (List.mem_map_of_mem hr)) _
      ((minMaxMember_range input indexer ec r).1 x hx)
  · rw [hcovered.loUnbounded_iff]
    simp only [List.mem_map, exists_exists_and_eq_and, (minMaxMember_range input indexer ec _).2.1]
    rfl
  · rw [hcovered.hiUnbounded_iff]
    simp only [List.mem_map, exists_exists_and_eq_and, (minMaxMember_range input indexer ec _).2.2]
    rfl

/-! ## Composed terms -/

theorem coverComposedRow_counted (range : AuxRange) : coverComposedRow lower upper terms range row =
    coverComposedRow lower upper (countedTerms none row terms) range row := by
  unfold coverComposedRow
  have hfold : terms.foldl (composedRowStep lower upper row) (range, 0, 0) =
      (countedTerms none row terms).foldl (composedRowStep lower upper row) (range, 0, 0) := by
    refine foldl_countedTerms _ (fun _ _ _ => rfl) fun acc t ht => ?_
    rw [mem_countedTerms_self, not_and_or, not_not, not_le] at ht
    unfold composedRowStep
    refine if_pos (ht.resolve_left fun h => ?_)
    rw [h.2] at h
    cases h.1
  rw [hfold]

/-- One term opens the range where its box is open on either side, both ends at once. -/
theorem composedRowStep_unbounded {acc : AuxRange × ℚ × ℚ} {t : LhsTerm}
    (hcut : coefficientCut ≤ |t.rowCoefficients row|) :
    (composedRowStep lower upper row acc t).1.unbounded = true ↔
      acc.1.unbounded = true ∨ OpensLow lower upper row t ∨ OpensHigh lower upper row t := by
  have hmark : ∀ v, (acc.1.markUnbounded (some v)).unbounded = true := fun v => rfl
  unfold composedRowStep OpensLow OpensHigh
  simp only [not_lt.mpr hcut, if_false]
  cases hv : t.variableIndex with
  | none => simp
  | some v =>
    simp only [Option.some.injEq, exists_eq_left']
    cases hl : lower[v]? with
    | none => simp [hmark]
    | some lb =>
      cases hu : upper[v]? with
      | none => simp [hmark]
      | some ub =>
        dsimp only
        by_cases hopen : solverInfinity ≤ ub ∨ lb ≤ -solverInfinity
        · rw [if_pos hopen]
          by_cases hneg : t.rowCoefficients row < 0 <;> simp only [hneg, if_true, if_false, hmark] <;>
            tauto
        · rw [if_neg hopen]
          rw [not_or] at hopen
          by_cases hneg : t.rowCoefficients row < 0 <;> simp [hneg, hopen.1, hopen.2]

theorem coverComposedRow_unbounded (range : AuxRange) :
    (coverComposedRow lower upper terms range row).unbounded = true ↔ range.unbounded = true ∨
      ∃ t ∈ countedTerms none row terms, OpensLow lower upper row t ∨ OpensHigh lower upper row t := by
  rw [coverComposedRow_counted]
  have hfold : ∀ (l : List LhsTerm), (∀ t ∈ l, coefficientCut ≤ |t.rowCoefficients row|) →
      ∀ acc : AuxRange × ℚ × ℚ, (l.foldl (composedRowStep lower upper row) acc).1.unbounded = true ↔
        acc.1.unbounded = true ∨ ∃ t ∈ l, OpensLow lower upper row t ∨ OpensHigh lower upper row t := by
    intro l
    induction l with
    | nil => exact fun _ acc => by simp
    | cons t l ih =>
      intro hcut acc
      rw [List.foldl_cons, ih (fun u hu => hcut u (List.mem_cons_of_mem _ hu)),
        composedRowStep_unbounded (hcut t List.mem_cons_self), List.exists_mem_cons_iff, or_assoc]
  have := hfold (countedTerms none row terms) (fun t ht => (mem_countedTerms.mp ht).2.2) (range, 0, 0)
  unfold coverComposedRow
  exact this

/-- **The range of a composed term.** -/
theorem composedRangeSound (input : SolverInput) (ta : ComposedMinMaxTermData) :
    ComposedRangeSound input ta := by
  have hrows : ∀ (rows : List Nat) (range : AuxRange),
      ((∀ r ∈ rows, r < input.numRows) → ∀ x : Nat → Nat → ℚ,
        (∀ r ∈ rows, InBox input.lowerBounds input.upperBounds (x r)) → ∀ y,
          (range.Contains y ∨ ∃ r ∈ rows, y = rowValue (countedTerms none r ta.innerTerms) r (x r)) →
          (rows.foldl (coverComposedRow input.lowerBounds input.upperBounds ta.innerTerms)
            range).Contains y) ∧
      ((rows.foldl (coverComposedRow input.lowerBounds input.upperBounds ta.innerTerms)
        range).unbounded = true ↔ range.unbounded = true ∨ ∃ r ∈ rows,
          ∃ t ∈ countedTerms none r ta.innerTerms, OpensLow input.lowerBounds input.upperBounds r t ∨
            OpensHigh input.lowerBounds input.upperBounds r t) := by
    intro rows
    induction rows with
    | nil => exact fun range => by simp
    | cons q rows ih =>
      intro range
      obtain ⟨hcontains, hopen⟩ := ih
        (coverComposedRow input.lowerBounds input.upperBounds ta.innerTerms range q)
      rw [List.foldl_cons]
      refine ⟨fun hlt x hx y hy => ?_, ?_⟩
      · refine hcontains (fun r hr => hlt r (List.mem_cons_of_mem _ hr)) x
          (fun r hr => hx r (List.mem_cons_of_mem _ hr)) y ?_
        have hcover := coverComposedRow_contains range (hx q List.mem_cons_self)
          (noTiny_countedTerms : NoTinyCoefficient (countedTerms none q ta.innerTerms) q)
        rw [← coverComposedRow_counted] at hcover
        rcases hy with hy | ⟨r, hr, rfl⟩
        · exact Or.inl (hcover.1 y hy)
        · rcases List.mem_cons.mp hr with rfl | hr
          · exact Or.inl hcover.2
          · exact Or.inr ⟨r, hr, rfl⟩
      · rw [hopen, coverComposedRow_unbounded, List.exists_mem_cons_iff, or_assoc]
  obtain ⟨hcontains, hopen⟩ := hrows (ta.rows input.numRows) {}
  have hlt : ∀ r ∈ ta.rows input.numRows, r < input.numRows := fun r hr =>
    List.mem_range.mp (List.mem_filter.mp hr).1
  have hmember : ∀ x : Nat → Nat → ℚ,
      (∀ r, r < input.numRows → InBox input.lowerBounds input.upperBounds (x r)) →
      ∀ r ∈ ta.rows input.numRows, (composedTermRange input ta).Contains
        (rowValue (countedTerms none r ta.innerTerms) r (x r)) := fun x hx r hr =>
    hcontains hlt x (fun q hq => hx q (hlt q hq)) _ (Or.inr ⟨r, hr, rfl⟩)
  refine ⟨fun x hx r hr r' hr' y hle hge => ?_, fun hb x hx r hr z hz => ?_, ?_⟩
  · exact ⟨(hmember x hx r hr).1.imp_right fun h => h.trans hle,
      (hmember x hx r' hr').2.imp_right fun h => hge.trans h⟩
  · exact AuxRange.abs_sub_le_span hb (hmember (fun _ => x) (fun _ _ => hx) r hr) hz
  · unfold composedTermRange
    rw [hopen]
    simp [AuxRange.unbounded]

/-! ## The ranges together -/

/-- **Derived ranges contain every reachable value.** The variable part of a row lies in its signed range,
a Big-M dominates the distance to the bound, a family contains its members, and a composed range what its
rows come to. -/
theorem derivedRanges_sound (terms : List LhsTerm) (row : Nat) (lower upper : List ℚ)
    (skip : Option Nat) (ec : EvaluatedConstraint) (box : FormulationBox) (numRows : Nat)
    (varNames : List String) (hbox : HasBoxes box.lower box.upper ec.lhsTerms)
    (members : List AuxRange) (input : SolverInput) (indexer : VarIndexer)
    (ta : ComposedMinMaxTermData) :
    SignedRangeExact terms row lower upper skip ∧ BigMExact ec box numRows varNames ∧
      FamilyCovered (members.foldl AuxRange.cover {}) members ∧
      (∀ g, g < ec.groupCount → ∃ group, (buildMinMaxGroups input indexer ec)[g]? = some group ∧
        GroupRangeExact input ec g group) ∧
      ComposedRangeSound input ta := by
  refine ⟨signedRangeExact terms row lower upper skip, bigMExact hbox numRows varNames,
    familyCovered members, fun g hg => ?_, composedRangeSound input ta⟩
  exact groupRangeExact input indexer ec hg

section Example

/-- `c * x <= 3`. -/
def scaledBound (c : ℚ) : EvaluatedConstraint where
  lhsTerms := [{ variableIndex := some 0, rowCoefficients := fun _ => c }]
  rhsValues := fun _ => .fin 3
  comparisonType := .le

/-- One row, one variable with the box `[0, upper]`. -/
def oneRowInput (upper : ℚ) : SolverInput where
  numRows := 1
  variableTypes := [.real]
  lowerBounds := [0]
  upperBounds := [upper]

/-- `MAX(x)` over the one row. -/
def maxOfOne : ComposedMinMaxTermData where
  aggName := .max
  sign := 1
  scale := 1
  isEasy := true
  innerTerms := [{ variableIndex := some 0, rowCoefficients := fun _ => 1 }]
  filterMask := fun _ => true

/-- Its columns: one for the row. -/
def oneRowIndexer : VarIndexer where
  numRows := 1
  numRowVars := 1
  globalBlockStart := 1
  varScope := fun _ => .row 0
  column_lt := fun _ _ h => by simpa [DecideVarScope.column] using h

/-- `-x <= 3` over `[0, 5]`: every range is closed and the Big-M is granted. -/
theorem derivedRanges_sound_negated :
    SignedRangeExact (scaledBound (-1)).lhsTerms 0 [0] [5] none ∧
      BigMExact (scaledBound (-1)) ⟨[0], [5]⟩ 1 ["x"] ∧
      FamilyCovered ([{ lo := -5 }, { hi := 2 }].foldl AuxRange.cover {}) [{ lo := -5 }, { hi := 2 }] ∧
      (∀ g, g < (scaledBound (-1)).groupCount →
        ∃ group, (buildMinMaxGroups (oneRowInput 5) oneRowIndexer (scaledBound (-1)))[g]? =
            some group ∧ GroupRangeExact (oneRowInput 5) (scaledBound (-1)) g group) ∧
      ComposedRangeSound (oneRowInput 5) maxOfOne := by
  refine derivedRanges_sound _ 0 [0] [5] none _ ⟨[0], [5]⟩ 1 ["x"] ?_ _ _ oneRowIndexer _
  intro t ht v hv
  obtain rfl := List.mem_singleton.mp ht
  obtain rfl := Option.some.inj hv
  exact ⟨Nat.zero_lt_one, Nat.zero_lt_one⟩

/-- Over `x >= 0` without a ceiling, `-x <= 3` has a closed high end and its Big-M is refused; `1e-16 * x`
at `x = 1e18` lies outside the range `[0, 0]`; and `MAX(x)` has its low end flagged open. -/
theorem derivedRanges_refuse_cut_and_overflag :
    ((decideRowSignedRange (scaledBound (-1)).lhsTerms 0 [0] [openBound] none).2 = some 0 ∧
      ¬ ∃ M, decideTightPerRowBigM (scaledBound (-1)) ⟨[0], [openBound]⟩ 1 ["x"] = .ok M) ∧
      (InBox [0] [10 ^ 18] (fun _ => 10 ^ 18) ∧
        ¬ Brackets (decideRowSignedRange (scaledBound (1 / 10 ^ 16)).lhsTerms 0 [0] [10 ^ 18] none)
          (rowVariablePart (scaledBound (1 / 10 ^ 16)).lhsTerms 0 fun _ => 10 ^ 18)) ∧
      ((composedTermRange (oneRowInput openBound) maxOfOne).loUnbounded = true ∧
        ∀ lb ∈ (oneRowInput openBound).lowerBounds, ¬ lb ≤ -solverInfinity) := by
  have hrange : decideRowSignedRange (scaledBound (-1)).lhsTerms 0 [0] [openBound] none =
      (none, some 0) := by decide +kernel
  have hrefused : (decideTightPerRowBigM (scaledBound (-1)) ⟨[0], [openBound]⟩ 1 ["x"]).isOk = false := by
    decide +kernel
  have htiny : decideRowSignedRange (scaledBound (1 / 10 ^ 16)).lhsTerms 0 [0] [10 ^ 18] none =
      (some 0, some 0) := by decide +kernel
  have hpart : rowVariablePart (scaledBound (1 / 10 ^ 16)).lhsTerms 0 (fun _ => 10 ^ 18) = 100 := by
    decide +kernel
  refine ⟨⟨by rw [hrange], ?_⟩, ⟨?_, ?_⟩, by decide +kernel, ?_⟩
  · rintro ⟨M, hM⟩
    rw [hM] at hrefused
    cases hrefused
  · intro v lb ub hl hu
    cases v with
    | zero =>
      cases hl
      cases hu
      exact ⟨Or.inr (by norm_num), Or.inr le_rfl⟩
    | succ v => cases hl
  · rw [htiny, hpart]
    intro h
    have := h.2 0 rfl
    norm_num at this
  · intro lb hlb
    rw [List.mem_singleton.mp hlb, solverInfinity]
    norm_num

end Example

end Decidb
