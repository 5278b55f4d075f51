import Decidb.Formulation.AbsLink
import Decidb.Formulation.Proofs.BilinearProofs
import Decidb.Formulation.Proofs.ExtremumLinkProofs

/-!
# ABS auxiliaries hold the absolute value

The derived range dominates the argument over every box the columns have later, and both arms then
leave exactly the assignments in which the auxiliary is the absolute value of the argument.
-/

namespace Decidb

open Linear SolverInput

/-! ## The argument of a link -/

/-- The terms of a row other than the auxiliary's. -/
def withoutAux (terms : List LhsTerm) (aux : Nat) : List LhsTerm :=
  terms.filter fun t => t.variableIndex ≠ some aux

/-- The expression inside ABS at a row, read off `aux >= inner`. -/
def absArgument (c1 : EvaluatedConstraint) (aux r : Nat) (y : Nat → ℚ) : ℚ :=
  match c1.rhsValues r with
  | .fin k => k - rowValue (withoutAux c1.lhsTerms aux) r y
  | _ => 0

theorem rowValue_append_scalarTerm (terms : List LhsTerm) (v : Nat) (c : ℚ) (r : Nat) (y : Nat → ℚ) :
    rowValue (terms ++ [scalarTerm v c]) r y = rowValue terms r y + c * y v := by
  induction terms with
  | nil => simp [rowValue_cons, rowValue_nil, termValue, scalarTerm]
  | cons t terms ih =>
    rw [List.cons_append, rowValue_cons, rowValue_cons, ih]
    ring

/-- The auxiliary's terms count with their combined coefficient. -/
theorem rowValue_withoutAux (terms : List LhsTerm) (aux r : Nat) (y : Nat → ℚ) :
    rowValue terms r y =
      combinedCoefficient terms aux r * y aux + rowValue (withoutAux terms aux) r y := by
  induction terms with
  | nil => simp [combinedCoefficient, withoutAux]
  | cons t terms ih =>
    by_cases hv : t.variableIndex = some aux
    · have hw : withoutAux (t :: terms) aux = withoutAux terms aux := by simp [withoutAux, hv]
      have hc : combinedCoefficient (t :: terms) aux r =
          t.rowCoefficients r + combinedCoefficient terms aux r := by
        simp [combinedCoefficient, hv]
      rw [rowValue_cons, ih, hw, hc]
      simp only [termValue, hv]
      ring
    · have hw : withoutAux (t :: terms) aux = t :: withoutAux terms aux := by
        simp [withoutAux, hv]
      have hc : combinedCoefficient (t :: terms) aux r = combinedCoefficient terms aux r := by
        simp [combinedCoefficient, hv]
      rw [rowValue_cons, ih, hw, hc, rowValue_cons]
      ring

/-- What stage 05 promises of the definitional rows: `aux >= inner` and `aux >= -inner`, the constant
part of `inner` standing on the bound. -/
structure DefinitionalPair (pair : AbsConstraintPair) (aux numVars numRows : Nat) : Prop where
  c1_ge : pair.c1.comparisonType = .ge
  c2_ge : pair.c2.comparisonType = .ge
  groups_eq : pair.c2.groupOf = pair.c1.groupOf
  coefficient_one : ∀ r, r < numRows → combinedCoefficient pair.c1.lhsTerms aux r = 1 ∧
    combinedCoefficient pair.c2.lhsTerms aux r = 1
  bound_neg : ∀ r, r < numRows → pair.c2.rhsValues r = (pair.c1.rhsValues r).map fun k => -k
  part_neg : ∀ r, r < numRows → ∀ y, rowValue (withoutAux pair.c2.lhsTerms aux) r y =
    -rowValue (withoutAux pair.c1.lhsTerms aux) r y
  constant_on_bound : ∀ r, r < numRows → decideRowFixedLhsOffset pair.c1.lhsTerms r = 0
  noTiny : ∀ r, r < numRows → NoTinyCoefficient pair.c1.lhsTerms r
  inRange : ∀ t ∈ pair.c1.lhsTerms, ∀ v, t.variableIndex = some v → v < numVars

/-! ## The range of the argument -/

/-- Every variable but the auxiliary lies in its box. -/
def InBoxApart (aux : Nat) (lower upper : List ℚ) (y : Nat → ℚ) : Prop :=
  ∀ v, v ≠ aux → v < lower.length →
    (lower.getD v 0 ≤ -solverInfinity ∨ lower.getD v 0 ≤ y v) ∧
      (solverInfinity ≤ upper.getD v 0 ∨ y v ≤ upper.getD v 0)

section Range

variable {lower upper : List ℚ} {y : Nat → ℚ} {aux r numVars : Nat}

/-- One term keeps the reach dominating, as long as no open column is met. -/
theorem termRangeStep_dominates (hl : lower.length = numVars)
    (hbox : InBoxApart aux lower upper y) {acc : ℚ × Bool} {t : LhsTerm}
    (hv : ∀ v, t.variableIndex = some v → v < numVars)
    (ht : t.rowCoefficients r = 0 ∨ coefficientCut ≤ |t.rowCoefficients r|)
    (hne : t.variableIndex ≠ some aux)
    (hclosed : (termRangeStep r lower upper (some aux) acc t).2 = false) :
    acc.2 = false ∧ acc.1 + |termContribution r y t| ≤
      (termRangeStep r lower upper (some aux) acc t).1 := by
  cases hvar : t.variableIndex with
  | none =>
    simp only [termRangeStep, hvar] at hclosed ⊢
    simp [termContribution, hvar, hclosed]
  | some v =>
    have hva : v ≠ aux := fun h => hne (by rw [hvar, h])
    have hva' : ¬ some v = some aux := by simpa using hva
    simp only [termRangeStep, hvar, hva', if_false] at hclosed ⊢
    simp only [termContribution, hvar]
    by_cases htiny : |t.rowCoefficients r| < coefficientCut
    · rw [if_pos htiny] at hclosed ⊢
      have h0 : t.rowCoefficients r = 0 := ht.resolve_right (not_le.mpr htiny)
      simp [hclosed, h0]
    · rw [if_neg htiny] at hclosed ⊢
      obtain ⟨hlo, hhi⟩ := hbox v hva (hl ▸ hv v hvar)
      by_cases hopen : solverInfinity ≤ upper.getD v 0 ∨ lower.getD v 0 ≤ -solverInfinity
      · rw [if_pos hopen] at hclosed
        exact absurd hclosed (by simp)
      · rw [if_neg hopen] at hclosed ⊢
        rw [not_or] at hopen
        refine ⟨hclosed, add_le_add le_rfl ?_⟩
        rw [abs_mul]
        exact mul_le_mul_of_nonneg_left
          (abs_le_max_abs_abs (hlo.resolve_left hopen.2) (hhi.resolve_left hopen.1)) (abs_nonneg _)

/-- A term of the auxiliary is skipped. -/
theorem termRangeStep_aux {acc : ℚ × Bool} {t : LhsTerm} (h : t.variableIndex = some aux) :
    termRangeStep r lower upper (some aux) acc t = acc := by
  simp [termRangeStep, h]

/-- **The unsigned reach dominates the variable part** without the auxiliary. -/
theorem decideRowTermRange_dominates (hl : lower.length = numVars)
    (hbox : InBoxApart aux lower upper y) {terms : List LhsTerm}
    (hv : ∀ t ∈ terms, ∀ v, t.variableIndex = some v → v < numVars)
    (hcut : NoTinyCoefficient terms r)
    (hclosed : (decideRowTermRange terms r lower upper (some aux)).2 = false) :
    |rowVariablePart (withoutAux terms aux) r y| ≤
      (decideRowTermRange terms r lower upper (some aux)).1 := by
  suffices h : ∀ (terms : List LhsTerm) (acc : ℚ × Bool),
      (∀ t ∈ terms, ∀ v, t.variableIndex = some v → v < numVars) → NoTinyCoefficient terms r →
      (terms.foldl (termRangeStep r lower upper (some aux)) acc).2 = false →
      acc.2 = false ∧ acc.1 + |rowVariablePart (withoutAux terms aux) r y| ≤
        (terms.foldl (termRangeStep r lower upper (some aux)) acc).1 by
    simpa [decideRowTermRange] using (h terms (0, false) hv hcut hclosed).2
  intro terms
  induction terms with
  | nil => intro acc _ _ hc; exact ⟨hc, by simp [withoutAux, rowVariablePart]⟩
  | cons t terms ih =>
    intro acc hv hcut hc
    rw [List.foldl_cons] at hc ⊢
    obtain ⟨hstep, hle⟩ := ih _ (fun u hu => hv u (List.mem_cons_of_mem _ hu))
      (fun u hu => hcut u (List.mem_cons_of_mem _ hu)) hc
    by_cases haux : t.variableIndex = some aux
    · have hw : withoutAux (t :: terms) aux = withoutAux terms aux := by simp [withoutAux, haux]
      rw [termRangeStep_aux haux] at hstep hle ⊢
      rw [hw]
      exact ⟨hstep, hle⟩
    · have hw : withoutAux (t :: terms) aux = t :: withoutAux terms aux := by
        simp [withoutAux, haux]
      obtain ⟨hacc, hterm⟩ := termRangeStep_dominates hl hbox (hv t List.mem_cons_self)
        (hcut t List.mem_cons_self) haux hstep
      rw [hw, rowVariablePart_cons]
      have htri := abs_add_le (termContribution r y t) (rowVariablePart (withoutAux terms aux) r y)
      exact ⟨hacc, by linarith⟩

/-- An open column of the argument counts at a row. -/
def OpenAt (input : SolverInput) (c1 : EvaluatedConstraint) (aux r : Nat) : Prop :=
  ∃ t ∈ c1.lhsTerms, ∃ v, t.variableIndex = some v ∧ v ≠ aux ∧
    coefficientCut ≤ |t.rowCoefficients r| ∧
    (solverInfinity ≤ input.upperBounds.getD v 0 ∨ input.lowerBounds.getD v 0 ≤ -solverInfinity)

/-- What the unsigned range reports as open is an open column of the argument. -/
theorem decideRowTermRange_open {input : SolverInput} {c1 : EvaluatedConstraint} :
    (decideRowTermRange c1.lhsTerms r input.lowerBounds input.upperBounds (some aux)).2 = true ↔
      OpenAt input c1 aux r := by
  suffices h : ∀ (terms : List LhsTerm) (acc : ℚ × Bool),
      (terms.foldl (termRangeStep r input.lowerBounds input.upperBounds (some aux)) acc).2 = true ↔
        acc.2 = true ∨ ∃ t ∈ terms, ∃ v, t.variableIndex = some v ∧ v ≠ aux ∧
          coefficientCut ≤ |t.rowCoefficients r| ∧ (solverInfinity ≤ input.upperBounds.getD v 0 ∨
            input.lowerBounds.getD v 0 ≤ -solverInfinity) by
    rw [decideRowTermRange, h, OpenAt]
    simp only [Bool.false_eq_true, false_or]
  intro terms
  induction terms with
  | nil => intro acc; simp
  | cons t terms ih =>
    intro acc
    rw [List.foldl_cons, ih]
    simp only [List.mem_cons, exists_eq_or_imp, ← or_assoc]
    refine or_congr ?_ Iff.rfl
    unfold termRangeStep
    cases hv : t.variableIndex with
    | none => simp
    | some v =>
      by_cases haux : v = aux
      · subst haux
        simp
      · by_cases htiny : |t.rowCoefficients r| < coefficientCut
        · simp [haux, htiny]
        · simp only [Option.some.injEq, haux, htiny, if_false]
          split
          · rename_i hopen
            exact iff_of_true rfl (Or.inr ⟨v, rfl, haux, not_lt.mp htiny, hopen⟩)
          · rename_i hclosed
            refine ⟨Or.inl, fun h => h.resolve_right ?_⟩
            rintro ⟨w, hw, -, -, hopen⟩
            exact hclosed (hw ▸ hopen)

/-- The rows of a link are all finite, the reach covers every row, and it is open exactly when some
row is. -/
theorem absReach_ok {input : SolverInput} {c1 : EvaluatedConstraint} {reach : ℚ} {isOpen : Bool}
    (h : absReach input c1 aux = .ok (reach, isOpen)) :
    (∀ r, r < input.numRows → ∃ k, c1.rhsValues r = .fin k ∧ |k| + (decideRowTermRange c1.lhsTerms r
        input.lowerBounds input.upperBounds (some aux)).1 ≤ reach) ∧
      (isOpen = true ↔ ∃ r, r < input.numRows ∧ OpenAt input c1 aux r) := by
  suffices h : ∀ (rows : List Nat) (acc out : ℚ × Bool),
      rows.foldlM (absReachStep input c1 aux) acc = .ok out →
      acc.1 ≤ out.1 ∧ (∀ r ∈ rows, ∃ k, c1.rhsValues r = .fin k ∧ |k| + (decideRowTermRange
        c1.lhsTerms r input.lowerBounds input.upperBounds (some aux)).1 ≤ out.1) ∧
      (out.2 = true ↔ acc.2 = true ∨ ∃ r ∈ rows, OpenAt input c1 aux r) by
    obtain ⟨-, hrows, hopen⟩ := h _ _ _ ‹_›
    exact ⟨fun r hr => hrows r (List.mem_range.mpr hr), by simpa using hopen⟩
  intro rows
  induction rows with
  | nil =>
    intro acc out h
    obtain rfl : acc = out := Except.ok.inj h
    simp
  | cons r rows ih =>
    intro acc out h
    rw [List.foldlM_cons] at h
    cases hk : c1.rhsValues r with
    | negInf => simp [absReachStep, hk, bind, Except.bind] at h
    | posInf => simp [absReachStep, hk, bind, Except.bind] at h
    | fin k =>
      simp only [absReachStep, hk, bind, Except.bind] at h
      obtain ⟨hacc, hrows, hopen⟩ := ih _ _ h
      refine ⟨(le_max_left _ _).trans hacc, ?_, ?_⟩
      · intro q hq
        rcases List.mem_cons.mp hq with rfl | hq
        · exact ⟨k, hk, (le_max_right _ _).trans hacc⟩
        · exact hrows q hq
      · rw [hopen, Bool.or_eq_true, decideRowTermRange_open]
        simp only [List.mem_cons, exists_eq_or_imp, or_assoc]

/-- Finite constants are all it takes. -/
theorem absReach_isOk {input : SolverInput} {c1 : EvaluatedConstraint}
    (h : ∀ r, r < input.numRows → ∃ k, c1.rhsValues r = .fin k) :
    ∃ out, absReach input c1 aux = .ok out := by
  suffices h : ∀ (rows : List Nat) (acc : ℚ × Bool), (∀ r ∈ rows, r < input.numRows) →
      ∃ out, rows.foldlM (absReachStep input c1 aux) acc = .ok out from
    h _ _ fun r hr => List.mem_range.mp hr
  intro rows
  induction rows with
  | nil => exact fun acc _ => ⟨acc, rfl⟩
  | cons r rows ih =>
    intro acc hrows
    obtain ⟨k, hk⟩ := h r (hrows r List.mem_cons_self)
    rw [List.foldlM_cons]
    simp only [absReachStep, hk, bind, Except.bind]
    exact ih _ fun q hq => hrows q (List.mem_cons_of_mem _ hq)

end Range

/-! ## One link -/

section Narrow

variable {input : SolverInput} {y : Nat → ℚ} {aux v : Nat} {M : ℚ}

@[simp] theorem narrowUpper_lowerBounds : (input.narrowUpper v M).lowerBounds = input.lowerBounds := by
  unfold narrowUpper
  split <;> rfl

@[simp] theorem narrowUpper_constraints : (input.narrowUpper v M).constraints = input.constraints := by
  unfold narrowUpper
  split <;> rfl

@[simp] theorem narrowUpper_numRows : (input.narrowUpper v M).numRows = input.numRows := by
  unfold narrowUpper
  split <;> rfl

@[simp] theorem narrowUpper_variableTypes :
    (input.narrowUpper v M).variableTypes = input.variableTypes := by
  unfold narrowUpper
  split <;> rfl

/-- The ceiling of one column becomes the smaller of the two, every other one stays. -/
theorem narrowUpper_getD (hv : v < input.upperBounds.length) (w : Nat) :
    (input.narrowUpper v M).upperBounds.getD w 0 =
      if w = v then min (input.upperBounds.getD w 0) M else input.upperBounds.getD w 0 := by
  unfold narrowUpper
  by_cases hw : w = v
  · subst hw
    rw [if_pos rfl]
    split
    · rename_i hlt
      rw [getD_set_self _ _ hv, min_eq_right hlt.le]
    · rename_i hge
      rw [min_eq_left (not_lt.mp hge)]
  · rw [if_neg hw]
    split
    · exact getD_set_ne _ _ (Ne.symm hw)
    · rfl

/-- A narrowed box lies in the box it was narrowed from. -/
theorem inBoxApart_of_narrowUpper (hv : v < input.upperBounds.length)
    (h : InBoxApart aux (input.narrowUpper v M).lowerBounds (input.narrowUpper v M).upperBounds y) :
    InBoxApart aux input.lowerBounds input.upperBounds y := by
  intro w hne hlt
  rw [narrowUpper_lowerBounds] at h
  obtain ⟨hlo, hhi⟩ := h w hne hlt
  refine ⟨hlo, ?_⟩
  rw [narrowUpper_getD hv] at hhi
  have hle : (if w = v then min (input.upperBounds.getD w 0) M else input.upperBounds.getD w 0) ≤
      input.upperBounds.getD w 0 := by
    split
    · exact min_le_left _ _
    · exact le_rfl
  exact hhi.imp (fun h => h.trans hle) fun h => h.trans hle

end Narrow

/-- The constant part of a row does not see the auxiliary. -/
theorem decideRowFixedLhsOffset_withoutAux (terms : List LhsTerm) (aux r : Nat) :
    decideRowFixedLhsOffset (withoutAux terms aux) r = decideRowFixedLhsOffset terms r := by
  unfold decideRowFixedLhsOffset withoutAux
  rw [List.filter_filter]
  congr 2
  refine List.filter_congr fun t _ => ?_
  cases t.variableIndex <;> simp

/-- The argument of a closed row stays within the reach of the row. -/
theorem absArgument_le {input : SolverInput} {pair : AbsConstraintPair} {aux r : Nat} {k : ℚ}
    {y : Nat → ℚ} (hpair : DefinitionalPair pair aux input.lowerBounds.length input.numRows)
    (hr : r < input.numRows) (hk : pair.c1.rhsValues r = .fin k)
    (hbox : InBoxApart aux input.lowerBounds input.upperBounds y)
    (hclosed : ¬ OpenAt input pair.c1 aux r) :
    |absArgument pair.c1 aux r y| ≤ |k| + (decideRowTermRange pair.c1.lhsTerms r input.lowerBounds
      input.upperBounds (some aux)).1 := by
  have hdom := decideRowTermRange_dominates rfl hbox hpair.inRange (hpair.noTiny r hr)
    (by rwa [← decideRowTermRange_open, Bool.not_eq_true] at hclosed)
  simp only [absArgument, hk]
  rw [rowValue, decideRowFixedLhsOffset_withoutAux, hpair.constant_on_bound r hr, add_zero]
  exact (abs_sub _ _).trans (add_le_add le_rfl hdom)

/-- What deriving one link does. -/
theorem deriveAbsAuxiliaryBound_ok {names : List String} {refuse : Bool}
    {state out : SolverInput × List AbsMaximizeLinkSpec} {link : AbsMaximizeLinkSpec}
    (h : deriveAbsAuxiliaryBound names refuse state link = .ok out) :
    ∃ pair reach isOpen, absConstraintPair state.1.constraints link.auxIdx = some pair ∧
      absReach state.1 pair.c1 link.auxIdx = .ok (reach, isOpen) ∧
      ((isOpen = true ∧ refuse = false ∧
          out = (state.1, state.2 ++ [{ link with rangeUnbounded := true }])) ∨
        (isOpen = false ∧ ∃ M, reach ≤ M ∧ out = (state.1.narrowUpper link.auxIdx M,
          state.2 ++ [{ link with absRange := M }]))) := by
  unfold deriveAbsAuxiliaryBound at h
  cases hp : absConstraintPair state.1.constraints link.auxIdx with
  | none => simp [hp] at h
  | some pair =>
    simp only [hp] at h
    cases hreach : absReach state.1 pair.c1 link.auxIdx with
    | error e => simp [hreach] at h
    | ok res =>
      obtain ⟨reach, isOpen⟩ := res
      simp only [hreach] at h
      refine ⟨pair, reach, isOpen, rfl, hreach, ?_⟩
      cases isOpen with
      | true =>
        cases refuse with
        | true => simp at h
        | false =>
          simp only [if_true, Bool.not_false] at h
          exact Or.inl ⟨rfl, rfl, (Except.ok.inj h).symm⟩
      | false =>
        simp only [Bool.false_eq_true, if_false] at h
        exact Or.inr ⟨rfl, _, le_max_left _ _, (Except.ok.inj h).symm⟩

/-- The boxes of `out` are those of `input` with some ceilings lowered. -/
structure Narrowed (input out : SolverInput) : Prop where
  eq_with : out = { input with upperBounds := out.upperBounds }
  length_eq : out.upperBounds.length = input.upperBounds.length
  inBoxApart : ∀ aux y, InBoxApart aux out.lowerBounds out.upperBounds y →
    InBoxApart aux input.lowerBounds input.upperBounds y

theorem Narrowed.refl (input : SolverInput) : Narrowed input input := ⟨rfl, rfl, fun _ _ h => h⟩

theorem Narrowed.trans {s t u : SolverInput} (h : Narrowed s t) (h' : Narrowed t u) :
    Narrowed s u where
  eq_with := by
    rw [h'.eq_with, h.eq_with]
  length_eq := h'.length_eq.trans h.length_eq
  inBoxApart aux y hy := h.inBoxApart aux y (h'.inBoxApart aux y hy)

theorem Narrowed.narrowUpper {input : SolverInput} {v : Nat} (hv : v < input.upperBounds.length)
    (M : ℚ) : Narrowed input (input.narrowUpper v M) where
  eq_with := by
    unfold SolverInput.narrowUpper
    split <;> rfl
  length_eq := by
    unfold SolverInput.narrowUpper
    split <;> simp
  inBoxApart _ _ := inBoxApart_of_narrowUpper hv

/-- What the derivation settles for one link: its constants are finite, and unless it is left open its
range dominates the argument over the boxes of `out` and is the new ceiling of the auxiliary. -/
structure LinkDerived (input out : SolverInput) (refuse : Bool) (link link' : AbsMaximizeLinkSpec)
    (pair : AbsConstraintPair) : Prop where
  auxIdx_eq : link'.auxIdx = link.auxIdx
  yIdx_eq : link'.yIdx = link.yIdx
  pair_eq : absConstraintPair input.constraints link.auxIdx = some pair
  finite : ∀ r, r < input.numRows → ∃ k, pair.c1.rhsValues r = .fin k
  closed : refuse = true → link'.rangeUnbounded = false
  dominates : link'.rangeUnbounded = false →
    DefinitionalPair pair link.auxIdx input.lowerBounds.length input.numRows →
    ∀ r, r < input.numRows → ∀ y, InBoxApart link.auxIdx out.lowerBounds out.upperBounds y →
      |absArgument pair.c1 link.auxIdx r y| ≤ link'.absRange
  ceiling : out.upperBounds.getD link.auxIdx 0 =
    if link'.rangeUnbounded then input.upperBounds.getD link.auxIdx 0
    else min (input.upperBounds.getD link.auxIdx 0) link'.absRange

/-- Deriving the links one after the other: every box only shrinks, so what was derived early still
dominates at the end. -/
theorem deriveAbsAuxiliaryBounds_spec {names : List String} {refuse : Bool}
    (links : List AbsMaximizeLinkSpec) :
    ∀ {state out : SolverInput × List AbsMaximizeLinkSpec},
      links.foldlM (deriveAbsAuxiliaryBound names refuse) state = .ok out →
      (∀ link ∈ links, link.auxIdx < state.1.upperBounds.length) →
      (links.map (·.auxIdx)).Nodup → (∀ link ∈ links, link.rangeUnbounded = false) →
      ∃ links', out.2 = state.2 ++ links' ∧ Narrowed state.1 out.1 ∧
        (∀ w, w ∉ links.map (·.auxIdx) →
          out.1.upperBounds.getD w 0 = state.1.upperBounds.getD w 0) ∧
        List.Forall₂ (fun link link' => link ∈ links ∧
          ∃ pair, LinkDerived state.1 out.1 refuse link link' pair) links links' := by
  induction links with
  | nil =>
    intro state out h _ _ _
    obtain rfl : state = out := Except.ok.inj h
    exact ⟨[], by simp, .refl _, fun _ _ => rfl, .nil⟩
  | cons link links ih =>
    intro state out h hlen hnodup hflag
    rw [List.foldlM_cons] at h
    cases hstep : deriveAbsAuxiliaryBound names refuse state link with
    | error e => simp [hstep, bind, Except.bind] at h
    | ok mid =>
      simp only [hstep, bind, Except.bind] at h
      rw [List.map_cons, List.nodup_cons] at hnodup
      obtain ⟨pair, reach, isOpen, hpair, hreach, hcase⟩ := deriveAbsAuxiliaryBound_ok hstep
      obtain ⟨hrows, hopen⟩ := absReach_ok hreach
      have hfinite : ∀ r, r < state.1.numRows → ∃ k, pair.c1.rhsValues r = .fin k := fun r hr =>
        (hrows r hr).imp fun k hk => hk.1
      have hlt := hlen link List.mem_cons_self
      -- the step narrows at most the auxiliary's own ceiling
      obtain ⟨link', hmid, hnarrow, hown, hlink⟩ : ∃ link', mid.2 = state.2 ++ [link'] ∧
          Narrowed state.1 mid.1 ∧
          (∀ w, w ≠ link.auxIdx →
            mid.1.upperBounds.getD w 0 = state.1.upperBounds.getD w 0) ∧
          LinkDerived state.1 mid.1 refuse link link' pair := by
        rcases hcase with ⟨rfl, hrefuse, rfl⟩ | ⟨rfl, M, hM, rfl⟩
        · refine ⟨_, rfl, .refl _, fun _ _ => rfl, rfl, rfl, hpair, hfinite, ?_, ?_, by simp⟩
          · simp [hrefuse]
          · intro hno
            cases hno
        · refine ⟨_, rfl, .narrowUpper hlt M, fun w hw => ?_, rfl, rfl, hpair, hfinite, fun _ => ?_,
            fun _ hdef r hr y hy => ?_, ?_⟩
          · rw [narrowUpper_getD hlt, if_neg hw]
          · exact hflag link List.mem_cons_self
          · obtain ⟨k, hk, hle⟩ := hrows r hr
            have hclosed : ¬ OpenAt state.1 pair.c1 link.auxIdx r := fun ho =>
              Bool.false_ne_true (hopen.mpr ⟨r, hr, ho⟩)
            exact (absArgument_le hdef hr hk (inBoxApart_of_narrowUpper hlt hy) hclosed).trans
              (hle.trans hM)
          · rw [narrowUpper_getD hlt]
            simp [hflag link List.mem_cons_self]
      have hlen' : ∀ l ∈ links, l.auxIdx < mid.1.upperBounds.length := fun l hl => by
        rw [hnarrow.length_eq]
        exact hlen l (List.mem_cons_of_mem _ hl)
      obtain ⟨links', hout, hnarrow', hkeep, hall⟩ :=
        ih h hlen' hnodup.2 fun l hl => hflag l (List.mem_cons_of_mem _ hl)
      refine ⟨link' :: links', by rw [hout, hmid]; simp, hnarrow.trans hnarrow', ?_,
        .cons ⟨List.mem_cons_self, ?_⟩ ?_⟩
      · intro w hw
        rw [List.map_cons, List.mem_cons, not_or] at hw
        rw [hkeep w hw.2, hown w hw.1]
      · refine ⟨pair, hlink.auxIdx_eq, hlink.yIdx_eq, hlink.pair_eq, hlink.finite, hlink.closed,
          fun hno hdef r hr y hy => ?_, ?_⟩
        · exact hlink.dominates hno hdef r hr y (hnarrow'.inBoxApart _ y hy)
        · rw [hkeep _ hnodup.1, hlink.ceiling]
      · refine hall.imp fun l l' ⟨hl, pair', hd⟩ => ⟨List.mem_cons_of_mem _ hl, pair', ?_⟩
        have hne : l.auxIdx ≠ link.auxIdx := fun he =>
          hnodup.1 (he ▸ List.mem_map.mpr ⟨l, hl, rfl⟩)
        have hshape := hnarrow.eq_with
        generalize mid.1.upperBounds = upper at hshape
        refine ⟨hd.auxIdx_eq, hd.yIdx_eq, ?_, ?_, hd.closed, ?_, ?_⟩
        · simpa [hshape] using hd.pair_eq
        · simpa [hshape] using hd.finite
        · simpa [hshape] using hd.dominates
        · rw [hd.ceiling, hown _ hne]

/-! ## The lowering arm -/

/-- The rows of a list hold at the values `y` of the variables of a row. -/
def LinkRowsHold (rows : List EvaluatedConstraint) (r : Nat) (y : Nat → ℚ) : Prop :=
  ∀ ec ∈ rows, (ec.groupOf r).isSome → ec.comparisonType.Holds (rowValue ec.lhsTerms r y)
    (ec.rhsValues r)

/-- The sign indicator occurs in the two Big-M rows only. -/
structure SignFresh (pair : AbsConstraintPair) (aux sign : Nat) : Prop where
  ne_aux : sign ≠ aux
  c1_fresh : ∀ t ∈ pair.c1.lhsTerms, t.variableIndex ≠ some sign
  c2_fresh : ∀ t ∈ pair.c2.lhsTerms, t.variableIndex ≠ some sign

theorem rowValue_update {terms : List LhsTerm} {v : Nat}
    (h : ∀ t ∈ terms, t.variableIndex ≠ some v) (r : Nat) (y : Nat → ℚ) (s : ℚ) :
    rowValue terms r (Function.update y v s) = rowValue terms r y := by
  refine rowValue_congr fun t ht w hw => ?_
  have hne : w ≠ v := fun he => h t ht (he ▸ hw)
  rw [Function.update_of_ne hne]

/-- What the auxiliary is given does not change the argument. -/
theorem absArgument_update (c1 : EvaluatedConstraint) (aux r : Nat) (y : Nat → ℚ) (z : ℚ) :
    absArgument c1 aux r (Function.update y aux z) = absArgument c1 aux r y := by
  unfold absArgument
  rw [rowValue_update]
  intro t ht
  simpa [withoutAux] using (List.mem_filter.mp ht).2

/-- **The lowering arm pins the auxiliary**: on an included row a sign exists for the four rows of a
link exactly when the auxiliary is the absolute value of the argument. -/
theorem upperEnvelope_iff {pair : AbsConstraintPair} {aux sign numVars numRows r : Nat} {M k : ℚ}
    {y : Nat → ℚ} (hpair : DefinitionalPair pair aux numVars numRows)
    (hfresh : SignFresh pair aux sign) (hr : r < numRows) (hin : (pair.c1.groupOf r).isSome)
    (hk : pair.c1.rhsValues r = .fin k) (hM : |absArgument pair.c1 aux r y| ≤ M) :
    (∃ s, (s = 0 ∨ s = 1) ∧ LinkRowsHold (pair.c1 :: pair.c2 :: upperEnvelopeRows pair sign M) r
      (Function.update y sign s)) ↔ y aux = |absArgument pair.c1 aux r y| := by
  set W := rowValue (withoutAux pair.c1.lhsTerms aux) r y with hW
  have harg : absArgument pair.c1 aux r y = k - W := by simp [absArgument, hk, hW]
  obtain ⟨hone1, hone2⟩ := hpair.coefficient_one r hr
  have hv1 : rowValue pair.c1.lhsTerms r y = y aux + W := by
    rw [rowValue_withoutAux _ aux, hone1, one_mul]
  have hv2 : rowValue pair.c2.lhsTerms r y = y aux - W := by
    rw [rowValue_withoutAux _ aux, hone2, hpair.part_neg r hr]
    ring
  have hk2 : pair.c2.rhsValues r = .fin (-k) := by rw [hpair.bound_neg r hr, hk]; rfl
  have hin2 : (pair.c2.groupOf r).isSome := by rw [hpair.groups_eq]; exact hin
  have hrows : ∀ s, LinkRowsHold (pair.c1 :: pair.c2 :: upperEnvelopeRows pair sign M) r
      (Function.update y sign s) ↔ (k - W ≤ y aux ∧ -(k - W) ≤ y aux) ∧
        y aux - (k - W) + 2 * M * s ≤ 2 * M ∧ y aux + (k - W) - 2 * M * s ≤ 0 := by
    intro s
    have hu1 := rowValue_update hfresh.c1_fresh r y s
    have hu2 := rowValue_update hfresh.c2_fresh r y s
    unfold LinkRowsHold upperEnvelopeRows
    simp only [List.forall_mem_cons, List.not_mem_nil, false_implies, implies_true, and_true,
      hpair.c1_ge, hpair.c2_ge, EvaluatedConstraint.groupOf] at hin hin2 ⊢
    simp only [hin, hin2, rowValue_append_scalarTerm, hu1, hu2, hv1, hv2, hk, hk2, Bound.map,
      Function.update_self, Comparison.holds_ge, Comparison.holds_le, Bound.fin_le_fin,
      forall_const]
    constructor
    · rintro ⟨h1, h2, h3, h4⟩
      refine ⟨⟨?_, ?_⟩, ?_, ?_⟩ <;> linarith
    · rintro ⟨⟨h1, h2⟩, h3, h4⟩
      refine ⟨?_, ?_, ?_, ?_⟩ <;> linarith
  simp only [hrows]
  rw [harg]
  exact exists_sign_iff (y aux) (k - W) M (harg ▸ hM)

/-! ## The native arm -/

section Native

variable {indexer : VarIndexer} {input : SolverInput}

/-- Skipping the auxiliary is ranging over the other terms. -/
theorem decideRowSignedRange_skip (terms : List LhsTerm) (aux r : Nat) (lower upper : List ℚ) :
    decideRowSignedRange terms r lower upper (some aux) =
      decideRowSignedRange (withoutAux terms aux) r lower upper := by
  unfold decideRowSignedRange
  generalize (some (0 : ℚ), some (0 : ℚ)) = acc
  induction terms generalizing acc with
  | nil => rfl
  | cons t terms ih =>
    rw [List.foldl_cons, ih]
    by_cases haux : t.variableIndex = some aux
    · have hw : withoutAux (t :: terms) aux = withoutAux terms aux := by simp [withoutAux, haux]
      rw [hw]
      congr 1
      simp [signedRangeStep, haux]
    · have hw : withoutAux (t :: terms) aux = t :: withoutAux terms aux := by
        simp [withoutAux, haux]
      rw [hw, List.foldl_cons]
      congr 1
      unfold signedRangeStep
      cases hv : t.variableIndex with
      | none => rfl
      | some v =>
        have hne : ¬ some v = some aux := fun he => haux (by rw [hv, he])
        simp only [hne, if_false, reduceCtorEq]

/-- The argument of a row as a member of the machinery that gives an expression a column. -/
def absMember (input : SolverInput) (indexer : VarIndexer) (c1 : EvaluatedConstraint) (aux r : Nat)
    (k : ℚ) : ExtremumMember :=
  ⟨⟨argumentEntries indexer c1 aux r, k⟩, argumentRange input c1 aux r k⟩

/-- The entries of the argument are those of the terms other than the auxiliary's. -/
theorem argumentEntries_eval (c1 : EvaluatedConstraint) (aux r : Nat) (a : Nat → ℚ) :
    Form.eval (argumentEntries indexer c1 aux r) a =
      rowVariablePart (withoutAux c1.lhsTerms aux) r fun v => a (indexer.get v r) := by
  unfold argumentEntries
  induction c1.lhsTerms with
  | nil => simp [withoutAux, rowVariablePart]
  | cons t terms ih =>
    by_cases haux : t.variableIndex = some aux
    · have hw : withoutAux (t :: terms) aux = withoutAux terms aux := by simp [withoutAux, haux]
      rw [hw, ← ih, List.filterMap_cons]
      simp [haux]
    · have hw : withoutAux (t :: terms) aux = t :: withoutAux terms aux := by
        simp [withoutAux, haux]
      rw [hw, rowVariablePart_cons, ← ih, List.filterMap_cons]
      cases hv : t.variableIndex with
      | none => simp [termContribution, hv]
      | some v =>
        have hne : v ≠ aux := fun he => haux (by rw [hv, he])
        by_cases h0 : t.rowCoefficients r = 0
        · simp [termContribution, hv, h0]
        · simp [termContribution, hv, h0, hne]

/-- No entry of the argument is small enough to be dropped. -/
theorem argumentEntries_kept {c1 : EvaluatedConstraint} {aux r : Nat}
    (hcut : NoTinyCoefficient c1.lhsTerms r) :
    ∀ t ∈ argumentEntries indexer c1 aux r, coefficientCut ≤ |t.2| := by
  intro t ht
  obtain ⟨u, hu, hut⟩ := List.mem_filterMap.mp ht
  cases hv : u.variableIndex with
  | none => simp [hv] at hut
  | some v =>
    simp only [hv] at hut
    split at hut
    · cases hut
    · rename_i hno
      rw [not_or] at hno
      obtain rfl := Option.some.inj hut
      exact (hcut u hu).resolve_left hno.2

theorem argumentEntries_below {c1 : EvaluatedConstraint} {aux r : Nat} (hr : r < indexer.numRows) :
    ∀ t ∈ argumentEntries indexer c1 aux r, t.1 < indexer.globalBlockStart := by
  intro t ht
  obtain ⟨u, -, hut⟩ := List.mem_filterMap.mp ht
  cases hv : u.variableIndex with
  | none => simp [hv] at hut
  | some v =>
    simp only [hv] at hut
    split at hut
    · cases hut
    · obtain rfl := Option.some.inj hut
      exact indexer.get_lt v hr

theorem absMember_appendTo {c1 : EvaluatedConstraint} {aux r : Nat} {k : ℚ}
    (hcut : NoTinyCoefficient c1.lhsTerms r) :
    (absMember input indexer c1 aux r k).link.appendTo = argumentEntries indexer c1 aux r := by
  unfold MinMaxLinkRow.appendTo absMember
  exact List.filter_eq_self.mpr fun t ht => by simpa using argumentEntries_kept hcut t ht

/-- The column of the argument is the one an extremum gives the same member. -/
theorem absArgumentColumn_eq {c1 : EvaluatedConstraint} {aux r : Nat} {k : ℚ}
    (hcut : NoTinyCoefficient c1.lhsTerms r) :
    absArgumentColumn indexer input c1 aux r k =
      extremumArgumentColumn input indexer (absMember input indexer c1 aux r k) := by
  have happ := @absMember_appendTo indexer input _ aux _ k hcut
  have hconst : (absMember input indexer c1 aux r k).link.constant = k := rfl
  unfold absArgumentColumn extremumArgumentColumn MinMaxLinkRow.soleColumn?
  rw [happ, hconst]
  rcases hentries : argumentEntries indexer c1 aux r with _ | ⟨⟨column, coefficient⟩, _ | ⟨t, ts⟩⟩
  · rfl
  · dsimp only
    split <;> rfl
  · rfl

/-- The member of a row has the value of the argument. -/
theorem absMember_value {c1 : EvaluatedConstraint} {aux r : Nat} {k : ℚ} {a : Nat → ℚ}
    (hcut : NoTinyCoefficient c1.lhsTerms r) (hk : c1.rhsValues r = .fin k)
    (hconst : decideRowFixedLhsOffset c1.lhsTerms r = 0) :
    (absMember input indexer c1 aux r k).value a =
      absArgument c1 aux r fun v => a (indexer.get v r) := by
  unfold ExtremumMember.value
  rw [absMember_appendTo hcut, argumentEntries_eval]
  simp only [absArgument, hk, absMember]
  rw [rowValue, decideRowFixedLhsOffset_withoutAux, hconst, add_zero]

/-- The box of the argument column contains the argument. -/
theorem absMember_contains {c1 : EvaluatedConstraint} {aux r : Nat} {k : ℚ} {a : Nat → ℚ}
    (hcut : NoTinyCoefficient c1.lhsTerms r) (hr : r < input.numRows)
    (hbox : input.InBoxes indexer a) :
    (absMember input indexer c1 aux r k).range.Contains
      ((absMember input indexer c1 aux r k).value a) := by
  have hcut' : NoTinyCoefficient (withoutAux c1.lhsTerms aux) r := fun t ht =>
    hcut t (List.mem_of_mem_filter ht)
  obtain ⟨hlo, hhi⟩ := decideRowSignedRange_brackets (inBox_of_inBoxes hbox hr) hcut'
  unfold ExtremumMember.value
  rw [absMember_appendTo hcut, argumentEntries_eval]
  simp only [absMember, argumentRange, decideRowSignedRange_skip]
  refine AuxRange.coverRowSided_contains ⟨fun l hl => ?_, fun h hh => ?_⟩
  · obtain ⟨hi, hhi', rfl⟩ := Option.map_eq_some_iff.mp hl
    exact sub_le_sub_left (hhi hi hhi') k
  · obtain ⟨lo, hlo', rfl⟩ := Option.map_eq_some_iff.mp hh
    exact sub_le_sub_left (hlo lo hlo') k

/-- What the constructs leave of the input: everything but the flat block. -/
structure SameVariables (s t : SolverInput) : Prop where
  numRows_eq : s.numRows = t.numRows
  types_eq : s.variableTypes = t.variableTypes
  lower_eq : s.lowerBounds = t.lowerBounds
  upper_eq : s.upperBounds = t.upperBounds
  constraints_eq : s.constraints = t.constraints

theorem SameVariables.refl (s : SolverInput) : SameVariables s s := ⟨rfl, rfl, rfl, rfl, rfl⟩

theorem SameVariables.trans {s t u : SolverInput} (h : SameVariables s t)
    (h' : SameVariables t u) : SameVariables s u :=
  ⟨h.numRows_eq.trans h'.numRows_eq, h.types_eq.trans h'.types_eq, h.lower_eq.trans h'.lower_eq,
    h.upper_eq.trans h'.upper_eq, h.constraints_eq.trans h'.constraints_eq⟩

/-- The auxiliary of a row is the absolute value of its argument. -/
def AbsReads (indexer : VarIndexer) (pair : AbsConstraintPair) (aux r : Nat) (a : Nat → ℚ) : Prop :=
  (pair.c1.groupOf r).isSome →
    a (indexer.get aux r) = |absArgument pair.c1 aux r fun v => a (indexer.get v r)|

theorem absReads_readsBelow {pair : AbsConstraintPair} {aux r n : Nat} (hr : r < indexer.numRows)
    (hn : indexer.globalBlockStart ≤ n) : ReadsBelow n (AbsReads indexer pair aux r) := by
  intro a b hab h hin
  have hcol : ∀ v, a (indexer.get v r) = b (indexer.get v r) := fun v =>
    hab _ ((indexer.get_lt v hr).trans_le hn)
  simpa only [hcol] using h hin

/-- One row of the native arm asks that the auxiliary is the absolute value there. -/
theorem emitNativeAbsRow_spec {pair : AbsConstraintPair} {aux numVars r : Nat}
    (hw : input.WellScoped indexer) (hpair : DefinitionalPair pair aux numVars input.numRows)
    (hfinite : ∃ k, pair.c1.rhsValues r = .fin k) (hr : r < input.numRows) :
    let out := emitNativeAbsRow indexer pair.c1 aux input r
    out.WellScoped indexer ∧ SameVariables out input ∧
      System.Extends (input.system indexer) (out.system indexer) (AbsReads indexer pair aux r) := by
  intro out
  by_cases hin : (pair.c1.groupOf r).isSome
  swap
  · have hout : out = input := by
      simp only [out, emitNativeAbsRow]
      rw [if_pos (by simpa using hin)]
    rw [hout]
    exact ⟨hw, .refl _, (System.Extends.refl _ hw.readsBelow).congr fun a _ => by
      simp [AbsReads, hin]⟩
  obtain ⟨k, hk⟩ := hfinite
  have hri : r < indexer.numRows := hw.numRows_eq ▸ hr
  have hcut := hpair.noTiny r hr
  set member := absMember input indexer pair.c1 aux r k with hmember
  have hbelow : ∀ t ∈ member.link.appendTo, t.1 < input.width indexer := by
    rw [hmember, absMember_appendTo hcut]
    exact fun t ht => (argumentEntries_below hri t ht).trans_le (Nat.le_add_right _ _)
  obtain ⟨hw1, ht1, hval, hext⟩ := extremumArgumentColumn_spec hw hbelow fun a ha =>
    absMember_contains hcut hr ha.inBoxes
  set arg := extremumArgumentColumn input indexer member with harg
  have hout : out = arg.1.pushGeneral ⟨.abs, indexer.get aux r, [arg.2]⟩ := by
    have hsome : ¬ (pair.c1.groupOf r).isNone = true := by
      rw [Option.isNone_iff_eq_none, ← Option.not_isSome_iff_eq_none, not_not]
      exact hin
    simp only [out, emitNativeAbsRow]
    rw [if_neg hsome, hk, harg, hmember, ← absArgumentColumn_eq hcut]
  have haux : indexer.get aux r < arg.1.width indexer :=
    (indexer.get_lt aux hri).trans_le (Nat.le_add_right _ _)
  have hsame : SameVariables out input := by
    rw [hout, harg]
    unfold extremumArgumentColumn
    split <;> exact ⟨rfl, rfl, rfl, rfl, rfl⟩
  refine ⟨hout ▸ hw1.pushGeneral _ haux (by simpa using ht1), hsame, ?_⟩
  have hpush : ∀ b, out.Holds indexer b ↔ arg.1.Holds indexer b ∧ AbsReads indexer pair aux r b := by
    intro b
    rw [hout, holds_pushGeneral]
    refine and_congr_right fun hb => ?_
    rw [AbsReads, forall_prop_of_true hin, ← @absMember_value _ input _ _ _ _ _ hcut hk
      (hpair.constant_on_bound r hr), ← hmember, ← hval b hb]
    simp only [GeneralConstraintSpec.Holds, List.map_cons, List.map_nil, List.cons.injEq, and_true]
    exact eq_comm
  have hread : ReadsBelow (arg.1.width indexer) (AbsReads indexer pair aux r) :=
    absReads_readsBelow hri (Nat.le_add_right _ _)
  have hstep : System.Extends (arg.1.system indexer) (out.system indexer)
      (AbsReads indexer pair aux r) := by
    refine System.Extends.of_holds_iff ?_ ?_ hpush
    · rw [hout]
      rfl
    · intro a b hab ha
      obtain ⟨h1, h2⟩ := (hpush a).mp ha
      exact (hpush b).mpr ⟨hw1.readsBelow a b hab h1, hread a b hab h2⟩
  exact (hext.trans hstep (absReads_readsBelow hri (Nat.le_add_right _ _))).congr fun a _ => by simp

/-- One link of the native arm. -/
theorem emitNativeAbsLink_spec {link : AbsMaximizeLinkSpec} {pair : AbsConstraintPair}
    {numVars : Nat} (hw : input.WellScoped indexer)
    (hget : absConstraintPair input.constraints link.auxIdx = some pair)
    (hpair : DefinitionalPair pair link.auxIdx numVars input.numRows)
    (hfinite : ∀ r, r < input.numRows → ∃ k, pair.c1.rhsValues r = .fin k) :
    let out := emitNativeAbsLink indexer input link
    out.WellScoped indexer ∧ SameVariables out input ∧
      System.Extends (input.system indexer) (out.system indexer) fun a =>
        ∀ r, r < input.numRows → AbsReads indexer pair link.auxIdx r a := by
  intro out
  have hout : out = (List.range input.numRows).foldl
      (emitNativeAbsRow indexer pair.c1 link.auxIdx) input := by
    simp only [out, emitNativeAbsLink, hget]
  have hloop := System.Extends.foldl (fun s : SolverInput => s.system indexer)
    (emitNativeAbsRow indexer pair.c1 link.auxIdx) indexer.globalBlockStart
    (fun s => s.WellScoped indexer ∧ SameVariables s input)
    (fun r => AbsReads indexer pair link.auxIdx r)
    (fun s hs => ⟨Nat.le_add_right _ _, hs.1.readsBelow⟩) (List.range input.numRows)
    (fun r hr => absReads_readsBelow (hw.numRows_eq ▸ List.mem_range.mp hr) le_rfl)
    (fun s r hr hs => by
      have hr' : r < input.numRows := List.mem_range.mp hr
      obtain ⟨h1, h2, h3⟩ := emitNativeAbsRow_spec hs.1 (hs.2.numRows_eq ▸ hpair) (hfinite r hr')
        (hs.2.numRows_eq ▸ hr')
      exact ⟨⟨h1, h2.trans hs.2⟩, h3⟩)
    input ⟨hw, .refl _⟩
  rw [← hout] at hloop
  exact ⟨hloop.1.1, hloop.1.2, hloop.2.congr fun a _ => by simp⟩

/-- **The native arm** asks of the columns that are there that every auxiliary is the absolute value of
its argument on every included row, and nothing else. -/
theorem emitNativeAbs_spec {links : List AbsMaximizeLinkSpec} {numVars : Nat}
    {pairs : AbsMaximizeLinkSpec → AbsConstraintPair} (hw : input.WellScoped indexer)
    (hlinks : ∀ link ∈ links, absConstraintPair input.constraints link.auxIdx = some (pairs link) ∧
      DefinitionalPair (pairs link) link.auxIdx numVars input.numRows ∧
      ∀ r, r < input.numRows → ∃ k, (pairs link).c1.rhsValues r = .fin k) :
    let out := emitNativeAbs indexer input links
    out.WellScoped indexer ∧ SameVariables out input ∧
      System.Extends (input.system indexer) (out.system indexer) fun a => ∀ link ∈ links,
        ∀ r, r < input.numRows → AbsReads indexer (pairs link) link.auxIdx r a := by
  have hloop := System.Extends.foldl (fun s : SolverInput => s.system indexer)
    (emitNativeAbsLink indexer) indexer.globalBlockStart
    (fun s => s.WellScoped indexer ∧ SameVariables s input)
    (fun link a => ∀ r, r < input.numRows → AbsReads indexer (pairs link) link.auxIdx r a)
    (fun s hs => ⟨Nat.le_add_right _ _, hs.1.readsBelow⟩) links
    (fun link _ a b hab h r hr => absReads_readsBelow (hw.numRows_eq ▸ hr) le_rfl a b hab (h r hr))
    (fun s link hl hs => by
      obtain ⟨hget, hpair, hfinite⟩ := hlinks link hl
      obtain ⟨h1, h2, h3⟩ := emitNativeAbsLink_spec hs.1 (hs.2.constraints_eq ▸ hget)
        (hs.2.numRows_eq ▸ hpair) (hs.2.numRows_eq ▸ hfinite)
      exact ⟨⟨h1, h2.trans hs.2⟩, by rw [hs.2.numRows_eq] at h3; exact h3⟩)
    input ⟨hw, .refl _⟩
  exact ⟨hloop.1.1, hloop.1.2, hloop.2⟩

end Native

/-! ## Refusals -/

/-- A row of the link carries an infinite constant, or, where a Big-M is needed, an open column. -/
def RefusesLink (refuse : Bool) (input : SolverInput) (link : AbsMaximizeLinkSpec) : Prop :=
  ∃ pair, absConstraintPair input.constraints link.auxIdx = some pair ∧ ∃ r, r < input.numRows ∧
    ((∀ k, pair.c1.rhsValues r ≠ .fin k) ∨ refuse = true ∧ OpenAt input pair.c1 link.auxIdx r)

theorem deriveAbsAuxiliaryBound_refused_iff {names : List String} {refuse : Bool}
    {state : SolverInput × List AbsMaximizeLinkSpec} {link : AbsMaximizeLinkSpec}
    (hpair : ∃ pair, absConstraintPair state.1.constraints link.auxIdx = some pair) :
    (∃ e, deriveAbsAuxiliaryBound names refuse state link = .error e) ↔
      RefusesLink refuse state.1 link := by
  obtain ⟨pair, hp⟩ := hpair
  constructor
  · rintro ⟨e, he⟩
    by_contra hno
    have hfinite : ∀ r, r < state.1.numRows → ∃ k, pair.c1.rhsValues r = .fin k := by
      intro r hr
      by_contra h
      exact hno ⟨pair, hp, r, hr, Or.inl fun k hk => h ⟨k, hk⟩⟩
    obtain ⟨⟨reach, isOpen⟩, hreach⟩ := @absReach_isOk link.auxIdx _ _ hfinite
    obtain ⟨-, hopen⟩ := absReach_ok hreach
    unfold deriveAbsAuxiliaryBound at he
    simp only [hp, hreach] at he
    cases isOpen with
    | false => simp at he
    | true =>
      obtain ⟨r, hr, ho⟩ := hopen.mp rfl
      cases refuse with
      | false => simp at he
      | true => exact hno ⟨pair, hp, r, hr, Or.inr ⟨rfl, ho⟩⟩
  · rintro ⟨pair', hp', r, hr, hbad⟩
    obtain rfl : pair = pair' := Option.some.inj (hp ▸ hp')
    cases hstep : deriveAbsAuxiliaryBound names refuse state link with
    | error e => exact ⟨e, rfl⟩
    | ok out =>
      exfalso
      obtain ⟨pair'', reach, isOpen, hp'', hreach, hcase⟩ := deriveAbsAuxiliaryBound_ok hstep
      obtain rfl : pair = pair'' := Option.some.inj (hp ▸ hp'')
      obtain ⟨hrows, hopen⟩ := absReach_ok hreach
      obtain ⟨k, hk, -⟩ := hrows r hr
      rcases hbad with hbad | ⟨hrefuse, ho⟩
      · exact hbad k hk
      · have hio : isOpen = true := hopen.mpr ⟨r, hr, ho⟩
        rcases hcase with ⟨-, hno, -⟩ | ⟨hno, -⟩
        · exact absurd (hrefuse.symm.trans hno) (by simp)
        · exact absurd (hio.symm.trans hno) (by simp)

/-- **The links are refused** exactly when one of them is when its turn comes, over the boxes the links
before it have narrowed. -/
theorem deriveAbsAuxiliaryBounds_refused_iff {names : List String} {refuse : Bool}
    (links : List AbsMaximizeLinkSpec) :
    ∀ state : SolverInput × List AbsMaximizeLinkSpec,
      (∀ link ∈ links, ∃ pair, absConstraintPair state.1.constraints link.auxIdx = some pair) →
      ((∃ e, links.foldlM (deriveAbsAuxiliaryBound names refuse) state = .error e) ↔
        ∃ pre link post mid, links = pre ++ link :: post ∧
          pre.foldlM (deriveAbsAuxiliaryBound names refuse) state = .ok mid ∧
          RefusesLink refuse mid.1 link) := by
  induction links with
  | nil =>
    intro state _
    constructor
    · rintro ⟨e, he⟩
      cases he
    · rintro ⟨pre, link, post, mid, h, -⟩
      simp at h
  | cons link links ih =>
    intro state hpairs
    have hstep := @deriveAbsAuxiliaryBound_refused_iff names refuse _ _
      (hpairs link List.mem_cons_self)
    rw [List.foldlM_cons]
    cases hmid : deriveAbsAuxiliaryBound names refuse state link with
    | error e =>
      constructor
      · intro _
        exact ⟨[], link, links, state, rfl, rfl, hstep.mp ⟨e, hmid⟩⟩
      · intro _
        exact ⟨e, rfl⟩
    | ok mid =>
      have hconstraints : mid.1.constraints = state.1.constraints := by
        obtain ⟨pair, reach, isOpen, -, -, ⟨-, -, rfl⟩ | ⟨-, M, -, rfl⟩⟩ :=
          deriveAbsAuxiliaryBound_ok hmid
        · rfl
        · exact narrowUpper_constraints
      have hrest := ih mid fun l hl => hconstraints ▸ hpairs l (List.mem_cons_of_mem _ hl)
      constructor
      · intro h
        obtain ⟨pre, l, post, mid', rfl, hpre, hbad⟩ := hrest.mp h
        refine ⟨link :: pre, l, post, mid', rfl, ?_, hbad⟩
        rw [List.foldlM_cons, hmid]
        exact hpre
      · rintro ⟨pre, l, post, mid', hl, hpre, hbad⟩
        refine hrest.mpr ?_
        cases pre with
        | nil =>
          exfalso
          obtain ⟨rfl, -⟩ := List.cons.inj hl
          obtain rfl : state = mid' := Except.ok.inj hpre
          obtain ⟨e, he⟩ := hstep.mpr hbad
          rw [hmid] at he
          cases he
        | cons p pre =>
          obtain ⟨rfl, htail⟩ := List.cons.inj hl
          rw [List.foldlM_cons, hmid] at hpre
          exact ⟨pre, l, post, mid', htail, hpre, hbad⟩

end Decidb
