import Decidb.Linear.Program
import Decidb.Formulation.Proofs.ComposedObjectiveProofs
import Decidb.Formulation.Proofs.ObjectiveListingProofs
import Decidb.Formulation.Proofs.QuadraticRowProofs

/-!
# What a MIN/MAX objective is worth

The links of an objective hold each auxiliary on one side of its value, and the objective pushes it onto
that side. The aggregates are monotone, so what holds of the auxiliaries of the groups holds of the
objective: optimized over the auxiliaries it is the aggregate of the rows that keep a coefficient.
-/

namespace Decidb

open Linear SolverInput

variable {indexer : VarIndexer} {input s t out : SolverInput} {a b : Nat → ℚ}

/-! ## One side of a value -/

/-- The objective does no better at `z` than at `v`. -/
def DecideSense.Dominates : DecideSense → ℚ → ℚ → Prop
  | .minimize, v, z => v ≤ z
  | .maximize, v, z => z ≤ v

namespace DecideSense

variable {sense : DecideSense} {u v w z : ℚ}

theorem Dominates.refl (sense : DecideSense) (v : ℚ) : sense.Dominates v v := by
  cases sense <;> exact le_rfl

theorem Dominates.trans (h : sense.Dominates u v) (h' : sense.Dominates v w) :
    sense.Dominates u w := by
  cases sense with
  | minimize => exact le_trans h h'
  | maximize => exact le_trans h' h

theorem Dominates.antisymm (h : sense.Dominates v w) (h' : sense.Dominates w v) : v = w := by
  cases sense with
  | minimize => exact le_antisymm h h'
  | maximize => exact le_antisymm h' h

instance (sense : DecideSense) : IsPartialOrder ℚ sense.Dominates where
  refl := Dominates.refl sense
  trans _ _ _ h h' := h.trans h'
  antisymm _ _ h h' := h.antisymm h'

theorem isBest_of_dominates {values : Set ℚ} (hv : v ∈ values)
    (h : ∀ z ∈ values, sense.Dominates v z) : sense.IsBest values v := by
  cases sense <;> exact ⟨hv, h⟩

end DecideSense

namespace ObjectiveAggregate

/-- The aggregate of a list, nothing being worth zero. -/
def reduce : ObjectiveAggregate → List ℚ → ℚ
  | none, _ => 0
  | sum, vs => vs.sum
  | min, vs => vs.min?.getD 0
  | max, vs => vs.max?.getD 0

/-- The objective itself closes the link of this aggregate. -/
def isEasy (agg : ObjectiveAggregate) (sense : DecideSense) : Bool :=
  (agg = min && sense = .maximize) || (agg = max && sense = .minimize)

theorem reduce_min_eq {vs : List ℚ} (h : vs ≠ []) : vs.min? = some (reduce min vs) := by
  obtain ⟨m, hm⟩ := Option.isSome_iff_exists.mp (List.isSome_min?_of_ne_nil h)
  rw [reduce, hm]
  rfl

theorem reduce_max_eq {vs : List ℚ} (h : vs ≠ []) : vs.max? = some (reduce max vs) := by
  obtain ⟨m, hm⟩ := Option.isSome_iff_exists.mp (List.isSome_max?_of_ne_nil h)
  rw [reduce, hm]
  rfl

/-- **Every aggregate is monotone**: values on one side of others leave the aggregate there. -/
theorem reduce_dominates (agg : ObjectiveAggregate) (sense : DecideSense) {α : Type} (l : List α)
    {f g : α → ℚ} (h : ∀ x ∈ l, sense.Dominates (f x) (g x)) :
    sense.Dominates (agg.reduce (l.map f)) (agg.reduce (l.map g)) := by
  by_cases hnil : l = []
  · subst hnil
    exact DecideSense.Dominates.refl _ _
  have hf : l.map f ≠ [] := by simpa using hnil
  have hg : l.map g ≠ [] := by simpa using hnil
  cases agg with
  | none => exact DecideSense.Dominates.refl _ _
  | sum =>
    cases sense with
    | minimize => exact List.sum_le_sum h
    | maximize => exact List.sum_le_sum h
  | min =>
    cases sense with
    | minimize =>
      refine (le_listMin_iff (reduce_min_eq hg) _).mpr fun y hy => ?_
      obtain ⟨x, hx, rfl⟩ := List.mem_map.mp hy
      exact ((le_listMin_iff (reduce_min_eq hf) _).mp le_rfl _ (List.mem_map_of_mem hx)).trans (h x hx)
    | maximize =>
      refine (le_listMin_iff (reduce_min_eq hf) _).mpr fun y hy => ?_
      obtain ⟨x, hx, rfl⟩ := List.mem_map.mp hy
      exact ((le_listMin_iff (reduce_min_eq hg) _).mp le_rfl _ (List.mem_map_of_mem hx)).trans (h x hx)
  | max =>
    cases sense with
    | minimize =>
      refine (listMax_le_iff (reduce_max_eq hf) _).mpr fun y hy => ?_
      obtain ⟨x, hx, rfl⟩ := List.mem_map.mp hy
      exact le_trans (h x hx)
        ((listMax_le_iff (reduce_max_eq hg) _).mp le_rfl _ (List.mem_map_of_mem hx))
    | maximize =>
      refine (listMax_le_iff (reduce_max_eq hg) _).mpr fun y hy => ?_
      obtain ⟨x, hx, rfl⟩ := List.mem_map.mp hy
      exact le_trans (h x hx)
        ((listMax_le_iff (reduce_max_eq hf) _).mp le_rfl _ (List.mem_map_of_mem hx))

end ObjectiveAggregate

/-! ## The link of an objective -/

section Link

variable {agg : ObjectiveAggregate} {sense : DecideSense} {members : List ExtremumMember} {z : Nat}
  {family : AuxRange} {policy : NativeConstructPolicy}

theorem extremumOf_objective (hmm : agg.isMinMax = true) (hne : members ≠ []) (a : Nat → ℚ) (y : ℚ) :
    ExtremumOf (agg != .min) members a y ↔ y = agg.reduce (members.map fun m => m.value a) := by
  have hmap : members.map (fun m => m.value a) ≠ [] := by simpa using hne
  unfold ExtremumOf
  cases agg with
  | none | sum => cases hmm
  | min =>
    rw [if_neg (by decide), ObjectiveAggregate.reduce_min_eq hmap, Option.some.injEq, eq_comm]
  | max =>
    rw [if_pos (by decide), ObjectiveAggregate.reduce_max_eq hmap, Option.some.injEq, eq_comm]

/-- **The link of an objective holds its auxiliary on the side the objective pushes it to.** -/
theorem dominates_of_linkAsks (hmm : agg.isMinMax = true) (hne : members ≠ [])
    (h : LinkAsks (objectiveLink z (agg != .min) (agg.isEasy sense) family) members policy a) :
    sense.Dominates (agg.reduce (members.map fun m => m.value a)) (a z) := by
  have hext := (extremumOf_objective hmm hne a _).mpr rfl
  obtain ⟨henv, hclose⟩ := h
  change (agg.isEasy sense = true → _) at henv
  change (!agg.isEasy sense) = true → _ at hclose
  by_cases heasy : agg.isEasy sense = true
  · have hside := (hext.envelope_iff (a z)).mp (henv heasy)
    unfold EnvelopeSide at hside
    cases agg with
    | none | sum => cases hmm
    | min =>
      cases sense with
      | minimize => cases heasy
      | maximize => exact hside
    | max =>
      cases sense with
      | minimize => exact hside
      | maximize => cases heasy
  · have hclose := hclose (by simpa using heasy)
    split at hclose
    · have heq : a z = _ := (extremumOf_objective hmm hne a _).mp hclose
      rw [heq]
      exact DecideSense.Dominates.refl _ _
    · have hside := (hext.closing_iff (a z)).mp hclose
      unfold ClosingSide at hside
      cases agg with
      | none | sum => cases hmm
      | min =>
        cases sense with
        | minimize => exact hside
        | maximize => exact absurd rfl heasy
      | max =>
        cases sense with
        | minimize => exact absurd rfl heasy
        | maximize => exact hside

/-- An auxiliary at its value meets its link. -/
theorem linkAsks_of_eq (hmm : agg.isMinMax = true) (hne : members ≠ []) (isEasy : Bool)
    (h : a z = agg.reduce (members.map fun m => m.value a)) :
    LinkAsks (objectiveLink z (agg != .min) isEasy family) members policy a := by
  have hext : ExtremumOf (agg != .min) members a (a z) := (extremumOf_objective hmm hne a _).mpr h
  refine ⟨fun _ => (hext.envelope_iff _).mpr ?_, fun _ => ?_⟩
  · show EnvelopeSide (agg != .min) (a z) (a z)
    unfold EnvelopeSide
    split <;> exact le_rfl
  · split
    · exact hext
    · refine (hext.closing_iff _).mpr ?_
      show ClosingSide (agg != .min) (a z) (a z)
      unfold ClosingSide
      split <;> exact le_rfl

end Link

/-! ## The reach of a row -/

/-- The ends of a row, as a pair. -/
def SavedRowRange.ends (rr : SavedRowRange) : Option ℚ × Option ℚ := (rr.lo, rr.hi)

/-- One term keeps the bracket. -/
theorem savedRowStep_brackets {lower upper : List ℚ} {x : Nat → ℚ} {r : Nat}
    (hbox : InBox lower upper x) {acc : SavedRowRange} {y : ℚ} (hacc : Brackets acc.ends y) {t : LhsTerm}
    (hin : ∀ v, t.variableIndex = some v → v < lower.length ∧ v < upper.length)
    (ht : t.rowCoefficients r = 0 ∨ coefficientCut ≤ |t.rowCoefficients r|) :
    Brackets (savedRowStep lower upper r acc t).ends (y + termValue r x t) := by
  obtain ⟨hlo, hhi⟩ := hacc
  unfold savedRowStep termValue
  dsimp only
  by_cases htiny : |t.rowCoefficients r| < coefficientCut
  · have h0 : t.rowCoefficients r = 0 := ht.resolve_right (not_le.mpr htiny)
    rw [if_pos htiny]
    cases t.variableIndex <;> simpa [h0] using ⟨hlo, hhi⟩
  · rw [if_neg htiny]
    cases hv : t.variableIndex with
    | none =>
      constructor
      · intro l hl
        obtain ⟨l', hl', rfl⟩ := Option.map_eq_some_iff.mp hl
        have := hlo l' hl'
        linarith
      · intro u hu
        obtain ⟨u', hu', rfl⟩ := Option.map_eq_some_iff.mp hu
        have := hhi u' hu'
        linarith
    | some v =>
      obtain ⟨hvl, hvu⟩ := hin v hv
      obtain ⟨hlb, hub⟩ := hbox v _ _ (List.getElem?_eq_getElem hvl) (List.getElem?_eq_getElem hvu)
      dsimp only
      rw [List.getD_eq_getElem _ _ hvl, List.getD_eq_getElem _ _ hvu]
      have hmul : ∀ {p q : ℚ}, p ≤ q → if t.rowCoefficients r < 0 then
          t.rowCoefficients r * q ≤ t.rowCoefficients r * p
        else t.rowCoefficients r * p ≤ t.rowCoefficients r * q := by
        intro p q hpq
        split
        · rename_i hneg
          exact mul_le_mul_of_nonpos_left hpq hneg.le
        · rename_i hneg
          exact mul_le_mul_of_nonneg_left hpq (not_lt.mp hneg)
      by_cases hneg : t.rowCoefficients r < 0
      · constructor
        · intro l hl
          simp only [SavedRowRange.ends, hneg, if_true] at hl
          split at hl
          · cases hl
          · rename_i hopen
            obtain ⟨l', hl', rfl⟩ := Option.map_eq_some_iff.mp hl
            have hle := hmul (hub.resolve_left hopen)
            rw [if_pos hneg] at hle
            have := hlo l' hl'
            linarith
        · intro u hu
          simp only [SavedRowRange.ends, hneg, if_true] at hu
          split at hu
          · cases hu
          · rename_i hopen
            obtain ⟨u', hu', rfl⟩ := Option.map_eq_some_iff.mp hu
            have hle := hmul (hlb.resolve_left hopen)
            rw [if_pos hneg] at hle
            have := hhi u' hu'
            linarith
      · constructor
        · intro l hl
          simp only [SavedRowRange.ends, hneg, if_false] at hl
          split at hl
          · cases hl
          · rename_i hopen
            obtain ⟨l', hl', rfl⟩ := Option.map_eq_some_iff.mp hl
            have hle := hmul (hlb.resolve_left hopen)
            rw [if_neg hneg] at hle
            have := hlo l' hl'
            linarith
        · intro u hu
          simp only [SavedRowRange.ends, hneg, if_false] at hu
          split at hu
          · cases hu
          · rename_i hopen
            obtain ⟨u', hu', rfl⟩ := Option.map_eq_some_iff.mp hu
            have hle := hmul (hub.resolve_left hopen)
            rw [if_neg hneg] at hle
            have := hhi u' hu'
            linarith

/-- The terms read variables with a box. -/
def TermsBoxed (input : SolverInput) (terms : List LhsTerm) : Prop :=
  ∀ t ∈ terms, ∀ v, t.variableIndex = some v →
    v < input.lowerBounds.length ∧ v < input.upperBounds.length

/-- What the terms of an objective are worth at a row. -/
def objectiveRowValue (indexer : VarIndexer) (terms : List LhsTerm) (a : Nat → ℚ) (r : Nat) : ℚ :=
  rowValue terms r (rowAssignment indexer a r)

theorem objectiveRowValue_congr {terms : List LhsTerm} {n r : Nat} (hr : r < indexer.numRows)
    (hle : indexer.globalBlockStart ≤ n) (hab : AgreeBelow n a b) :
    objectiveRowValue indexer terms a r = objectiveRowValue indexer terms b r := by
  have hrow : rowAssignment indexer a r = rowAssignment indexer b r :=
    funext fun v => hab _ ((indexer.get_lt v hr).trans_le hle)
  unfold objectiveRowValue
  rw [hrow]

/-- The reach of a row brackets what the row is worth. -/
theorem savedRowRange_brackets {terms : List LhsTerm} (hboxed : TermsBoxed input terms)
    (ha : input.InBoxes indexer a) {r : Nat} (hr : r < input.numRows)
    (hcut : NoTinyCoefficient terms r) :
    Brackets (savedRowRange input terms r).ends (objectiveRowValue indexer terms a r) := by
  suffices h : ∀ (terms : List LhsTerm) (acc : SavedRowRange) (y : ℚ), TermsBoxed input terms →
      NoTinyCoefficient terms r → Brackets acc.ends y →
      Brackets (terms.foldl (savedRowStep input.lowerBounds input.upperBounds r) acc).ends
        (y + rowValue terms r (rowAssignment indexer a r)) by
    have hzero := h terms {} 0 hboxed hcut (by simp [Brackets, SavedRowRange.ends])
    rw [zero_add] at hzero
    exact hzero
  intro terms
  induction terms with
  | nil =>
    intro acc y _ _ hacc
    rw [rowValue_nil, add_zero]
    exact hacc
  | cons t terms ih =>
    intro acc y hboxed hcut hacc
    rw [List.foldl_cons, rowValue_cons, ← add_assoc]
    refine ih _ _ (fun u hu => hboxed u (List.mem_cons_of_mem _ hu))
      (fun u hu => hcut u (List.mem_cons_of_mem _ hu)) ?_
    exact savedRowStep_brackets (inBox_of_inBoxes ha hr) hacc (hboxed t List.mem_cons_self)
      (hcut t List.mem_cons_self)

/-! ## The reach of a family -/

/-- Covering row after row keeps what was contained and takes in what each row brackets. -/
theorem foldl_coverRow_contains {α : Type} (ends : α → SavedRowRange) (l : List α) :
    ∀ (range : AuxRange) (y : ℚ),
      (range.Contains y ∨ ∃ x ∈ l, Brackets (ends x).ends y) →
      (l.foldl (fun range x =>
        range.coverRowSided (ends x).lo (ends x).hi (ends x).unboundedVar) range).Contains y := by
  induction l with
  | nil =>
    rintro range y (h | ⟨x, hx, -⟩)
    · exact h
    · cases hx
  | cons x l ih =>
    intro range y h
    rw [List.foldl_cons]
    refine ih _ y ?_
    rcases h with h | ⟨x', hx', h⟩
    · exact Or.inl (AuxRange.coverRowSided_contains_left h)
    · rcases List.mem_cons.mp hx' with rfl | hx'
      · exact Or.inl (AuxRange.coverRowSided_contains h)
      · exact Or.inr ⟨x', hx', h⟩

theorem emptyRange_contains_zero : ({} : AuxRange).Contains 0 := ⟨Or.inr le_rfl, Or.inr le_rfl⟩

/-- Zero lies in the reach of all rows. -/
theorem rowFamily_contains_zero (input : SolverInput) (terms : List LhsTerm) :
    (rowFamily input terms).Contains 0 :=
  foldl_coverRow_contains (savedRowRange input terms) _ _ _ (Or.inl emptyRange_contains_zero)

/-- The reach of all rows contains what each is worth. -/
theorem rowFamily_contains {terms : List LhsTerm} (hboxed : TermsBoxed input terms)
    (ha : input.InBoxes indexer a) {r : Nat} (hr : r < input.numRows)
    (hcut : NoTinyCoefficient terms r) :
    (rowFamily input terms).Contains (objectiveRowValue indexer terms a r) :=
  foldl_coverRow_contains (savedRowRange input terms) _ _ _
    (Or.inr ⟨r, List.mem_range.mpr hr, savedRowRange_brackets hboxed ha hr hcut⟩)

/-- The reach of a row contains what it is worth. -/
theorem rowRangeFor_contains {terms : List LhsTerm} (hboxed : TermsBoxed input terms)
    (ha : input.InBoxes indexer a) {r : Nat} (hr : r < input.numRows)
    (hcut : NoTinyCoefficient terms r) :
    (rowRangeFor input terms r).Contains (objectiveRowValue indexer terms a r) :=
  AuxRange.coverRowSided_contains (savedRowRange_brackets hboxed ha hr hcut)

theorem ObjectiveGroups.scale_nonneg (groups : ObjectiveGroups) (numRows : Nat) (wasAvg : Bool)
    (g : Nat) : 0 ≤ groups.scale numRows wasAvg g := by
  unfold ObjectiveGroups.scale
  split
  · positivity
  · exact zero_le_one

theorem ObjectiveGroups.lt_of_mem_rows {groups : ObjectiveGroups} {numRows g r : Nat}
    (h : r ∈ groups.rows numRows g) : r < numRows := List.mem_range.mp (List.mem_filter.mp h).1

/-- What the rows of a group add up to, under its scale. -/
def objectiveGroupSum (indexer : VarIndexer) (groups : ObjectiveGroups) (numRows : Nat) (wasAvg : Bool)
    (terms : List LhsTerm) (a : Nat → ℚ) (g : Nat) : ℚ :=
  ((groups.rows numRows g).map fun r =>
    objectiveRowValue indexer terms a r * groups.scale numRows wasAvg g).sum

/-- The reach of a group brackets what its rows add up to. -/
theorem groupSumRange_brackets {terms : List LhsTerm} (hboxed : TermsBoxed input terms)
    (ha : input.InBoxes indexer a) (groups : ObjectiveGroups) (wasAvg : Bool) (g : Nat)
    (hcut : ∀ r ∈ groups.rows input.numRows g, NoTinyCoefficient terms r) :
    Brackets (groupSumRange input groups wasAvg terms g).ends
      (objectiveGroupSum indexer groups input.numRows wasAvg terms a g) := by
  have hscale := groups.scale_nonneg input.numRows wasAvg g
  unfold groupSumRange objectiveGroupSum
  dsimp only
  generalize groups.scale input.numRows wasAvg g = scale at hscale
  suffices h : ∀ (rows : List Nat) (acc : SavedRowRange) (y : ℚ),
      (∀ r ∈ rows, r < input.numRows ∧ NoTinyCoefficient terms r) → Brackets acc.ends y →
      Brackets (rows.foldl (fun acc r =>
        { lo := acc.lo.bind fun s => (savedRowRange input terms r).lo.map (s + · * scale)
          hi := acc.hi.bind fun s => (savedRowRange input terms r).hi.map (s + · * scale)
          unboundedVar := acc.unboundedVar.or (savedRowRange input terms r).unboundedVar :
            SavedRowRange }) acc).ends
        (y + (rows.map fun r => objectiveRowValue indexer terms a r * scale).sum) by
    have hzero := h (groups.rows input.numRows g) {} 0
      (fun r hr => ⟨ObjectiveGroups.lt_of_mem_rows hr, hcut r hr⟩)
      (by simp [Brackets, SavedRowRange.ends])
    rw [zero_add] at hzero
    exact hzero
  intro rows
  induction rows with
  | nil =>
    intro acc y _ hacc
    rw [List.map_nil, List.sum_nil, add_zero]
    exact hacc
  | cons r rows ih =>
    intro acc y hrows hacc
    obtain ⟨hr, hrcut⟩ := hrows r List.mem_cons_self
    have hrow := savedRowRange_brackets hboxed ha hr hrcut
    rw [List.foldl_cons, List.map_cons, List.sum_cons, ← add_assoc]
    refine ih _ _ (fun r' hr' => hrows r' (List.mem_cons_of_mem _ hr')) ⟨fun l hl => ?_, fun u hu => ?_⟩
    · obtain ⟨l₁, hl₁, hl⟩ := Option.bind_eq_some_iff.mp hl
      obtain ⟨l₂, hl₂, rfl⟩ := Option.map_eq_some_iff.mp hl
      exact add_le_add (hacc.1 l₁ hl₁) (mul_le_mul_of_nonneg_right (hrow.1 l₂ hl₂) hscale)
    · obtain ⟨u₁, hu₁, hu⟩ := Option.bind_eq_some_iff.mp hu
      obtain ⟨u₂, hu₂, rfl⟩ := Option.map_eq_some_iff.mp hu
      exact add_le_add (hacc.2 u₁ hu₁) (mul_le_mul_of_nonneg_right (hrow.2 u₂ hu₂) hscale)

theorem groupSumFamily_contains_zero (input : SolverInput) (groups : ObjectiveGroups) (wasAvg : Bool)
    (terms : List LhsTerm) : (groupSumFamily input groups wasAvg terms).Contains 0 :=
  foldl_coverRow_contains (groupSumRange input groups wasAvg terms) _ _ _
    (Or.inl emptyRange_contains_zero)

theorem groupSumFamily_contains {terms : List LhsTerm} (hboxed : TermsBoxed input terms)
    (ha : input.InBoxes indexer a) {groups : ObjectiveGroups} (wasAvg : Bool) {g : Nat}
    (hg : g < groups.numGroups)
    (hcut : ∀ r ∈ groups.rows input.numRows g, NoTinyCoefficient terms r) :
    (groupSumFamily input groups wasAvg terms).Contains
      (objectiveGroupSum indexer groups input.numRows wasAvg terms a g) :=
  foldl_coverRow_contains (groupSumRange input groups wasAvg terms) _ _ _
    (Or.inr ⟨g, List.mem_range.mpr hg, groupSumRange_brackets hboxed ha groups wasAvg g hcut⟩)

/-! ## The linking rows -/

/-- No coefficient of the rows is dropped without being zero, alone or merged with others of its
column. -/
structure ObjectiveCutClean (indexer : VarIndexer) (terms : List LhsTerm) (scale : ℚ)
    (rows : List Nat) : Prop where
  single : ∀ r ∈ rows, ∀ t ∈ terms,
    t.rowCoefficients r * scale = 0 ∨ coefficientCut ≤ |t.rowCoefficients r * scale|
  merged : ∀ e ∈ (rows.foldl (addObjectiveRowTerms indexer terms scale) {}).form,
    e.2 = 0 ∨ coefficientCut ≤ |e.2|

/-- What a linking row says its member is worth, before small coefficients are dropped. -/
def MinMaxLinkRow.worth (link : MinMaxLinkRow) (a : Nat → ℚ) : ℚ := link.constant - link.form.eval a

theorem addObjectiveRowTerms_worth {terms : List LhsTerm} {scale : ℚ} {r : Nat}
    (hcut : ∀ t ∈ terms,
      t.rowCoefficients r * scale = 0 ∨ coefficientCut ≤ |t.rowCoefficients r * scale|)
    (link : MinMaxLinkRow) :
    (addObjectiveRowTerms indexer terms scale link r).worth a =
      link.worth a + objectiveRowValue indexer terms a r * scale := by
  unfold addObjectiveRowTerms objectiveRowValue
  induction terms generalizing link with
  | nil => rw [List.foldl_nil, rowValue_nil, zero_mul, add_zero]
  | cons t terms ih =>
    rw [List.foldl_cons, ih fun u hu => hcut u (List.mem_cons_of_mem _ hu), rowValue_cons, add_mul,
      ← add_assoc]
    congr 1
    unfold addObjectiveRowTerm termValue
    dsimp only
    by_cases htiny : |t.rowCoefficients r * scale| < coefficientCut
    · have h0 := (hcut t List.mem_cons_self).resolve_right (not_le.mpr htiny)
      rw [if_pos htiny]
      cases t.variableIndex with
      | none =>
        dsimp only
        rw [h0, add_zero]
      | some v =>
        dsimp only
        rw [mul_right_comm, h0, zero_mul, add_zero]
    · rw [if_neg htiny]
      cases t.variableIndex with
      | none =>
        unfold MinMaxLinkRow.worth
        dsimp only
        ring
      | some v =>
        unfold MinMaxLinkRow.worth MinMaxLinkRow.addColumn rowAssignment
        dsimp only
        rw [Form.eval_addColumn]
        ring

/-- A linking row over some rows is worth what they add up to under its scale. -/
theorem objectiveRows_worth {terms : List LhsTerm} {scale : ℚ} {rows : List Nat}
    (hclean : ObjectiveCutClean indexer terms scale rows) (range : AuxRange) :
    (⟨rows.foldl (addObjectiveRowTerms indexer terms scale) {}, range⟩ : ExtremumMember).value a =
      (rows.map fun r => objectiveRowValue indexer terms a r * scale).sum := by
  have hfold : ∀ (rows : List Nat) (link : MinMaxLinkRow), (∀ r ∈ rows, ∀ t ∈ terms,
      t.rowCoefficients r * scale = 0 ∨ coefficientCut ≤ |t.rowCoefficients r * scale|) →
      (rows.foldl (addObjectiveRowTerms indexer terms scale) link).worth a =
        link.worth a + (rows.map fun r => objectiveRowValue indexer terms a r * scale).sum := by
    intro rows
    induction rows with
    | nil =>
      intro link _
      rw [List.foldl_nil, List.map_nil, List.sum_nil, add_zero]
    | cons r rows ih =>
      intro link hcut
      rw [List.foldl_cons, ih _ fun r' hr' => hcut r' (List.mem_cons_of_mem _ hr'),
        addObjectiveRowTerms_worth (hcut r List.mem_cons_self), List.map_cons, List.sum_cons, add_assoc]
  have hworth := hfold rows {} hclean.single
  have hempty : ({} : MinMaxLinkRow).worth a = 0 := by simp [MinMaxLinkRow.worth]
  rw [hempty, zero_add] at hworth
  show _ - _ = _
  rw [← hworth]
  dsimp only
  rw [appendTo_eval _ hclean.merged]
  rfl

/-! ## One auxiliary -/

section Auxiliary

variable {agg : ObjectiveAggregate} {sense : DecideSense} {members : List ExtremumMember}
  {family : AuxRange} {varNames : List String} {policy : NativeConstructPolicy}

/-- The extremum of some values is one of them. -/
theorem ObjectiveAggregate.reduce_mem (hmm : agg.isMinMax = true) {vs : List ℚ} (h : vs ≠ []) :
    agg.reduce vs ∈ vs := by
  cases agg with
  | none | sum => cases hmm
  | min => exact List.min?_mem (reduce_min_eq h)
  | max => exact List.max?_mem (reduce_max_eq h)

/-- The link of an objective extends the input: the span of the family is its Big-M. -/
theorem objectiveLink_extends {z : Nat} {isMax isEasy : Bool} (hs : s.WellScoped indexer)
    (hz : z < s.width indexer) (hbelow : MembersBelow (s.width indexer) members)
    (hne : members ≠ [])
    (hrange : ∀ a, s.Holds indexer a → ∀ m ∈ members,
      m.range.Contains (m.value a) ∧ family.Contains (m.value a))
    (hok : emitExtremumLink s indexer (objectiveLink z isMax isEasy family) members varNames policy =
      .ok out) :
    out.WellScoped indexer ∧ System.Extends (s.system indexer) (out.system indexer)
      (LinkAsks (objectiveLink z isMax isEasy family) members policy) := by
  refine emitExtremumLink_spec _ hs hz hbelow hne (fun a ha m hm => (hrange a ha m hm).1) ?_ hok
  intro _ hund a ha
  rintro ⟨m, hm, hcl⟩ m' hm'
  have hund' : family.unbounded = false := hund
  have := span_dominates hund' (hrange a ha m hm).2 (hrange a ha m' hm').2 hcl
  simpa [objectiveLink, hund'] using this

/-- A column pinned to a value of the columns before it, on the side the objective pushes it to. -/
structure ResultPinned (indexer : VarIndexer) (sense : DecideSense) (s out : SolverInput) (z : Nat)
    (value : (Nat → ℚ) → ℚ) : Prop where
  wellScoped : out.WellScoped indexer
  width_le : s.width indexer ≤ out.width indexer
  column_lt : z < out.width indexer
  dominates : ∀ b, out.Holds indexer b → s.Holds indexer b ∧ sense.Dominates (value b) (b z)
  completes : ∀ a, s.Holds indexer a → ∃ b, AgreeBelow (s.width indexer) b a ∧
    out.Holds indexer b ∧ b z = value a

/-- **A fresh auxiliary and its link.** -/
theorem resultPinned_of_link (hs : s.WellScoped indexer) (hmm : agg.isMinMax = true)
    (hbelow : MembersBelow (s.width indexer) members) (hne : members ≠ [])
    (hrange : ∀ a, s.Holds indexer a → ∀ m ∈ members,
      m.range.Contains (m.value a) ∧ family.Contains (m.value a))
    (hok : emitExtremumLink (s.addGlobalContinuousAux indexer family).1 indexer
      (objectiveLink (s.width indexer) (agg != .min) (agg.isEasy sense) family) members varNames policy =
        .ok out) :
    ResultPinned indexer sense s out (s.width indexer)
      fun a => agg.reduce (members.map fun m => m.value a) := by
  set z := s.width indexer with hz
  set box : ColumnBox := ⟨if family.loUnbounded then -openBound else family.lo,
    if family.hiUnbounded then openBound else family.hi, false⟩ with hbox
  set added := (s.addGlobalContinuousAux indexer family).1 with haddedDef
  have hadded : ∀ b, added.Holds indexer b ↔ s.Holds indexer b ∧ box.Admits (b z) := fun b =>
    holds_appendColumn box
  have hwell : added.WellScoped indexer := hs.appendColumn box
  have hwidth : added.width indexer = z + 1 := addGlobalContinuousAux_width family
  have hmne : ∀ a, (members.map fun m => m.value a) ≠ [] := fun a => by simpa using hne
  obtain ⟨hout, hext⟩ := objectiveLink_extends hwell (by omega) (hbelow.mono (by omega)) hne
    (fun a ha => hrange a ((hadded a).mp ha).1) hok
  have hle : added.width indexer ≤ out.width indexer := hext.width_le
  refine ⟨hout, by omega, by omega, fun b hb => ?_, fun a ha => ?_⟩
  · obtain ⟨hbs, hasks⟩ := hext.holds hb
    exact ⟨((hadded b).mp hbs).1, dominates_of_linkAsks hmm hne hasks⟩
  · set v := agg.reduce (members.map fun m => m.value a) with hv
    obtain ⟨c, hca, hcz⟩ := AgreeBelow.exists_extend z a fun _ => v
    have hcv : c z = v := hcz 0
    have hfamily : family.Contains v := by
      obtain ⟨m, hm, hmv⟩ := List.mem_map.mp (agg.reduce_mem hmm (hmne a))
      rw [hv, ← hmv]
      exact (hrange a ha m hm).2
    have hcs : added.Holds indexer c :=
      (hadded c).mpr ⟨hs.readsBelow a c hca.symm ha, hcv ▸ admits_of_contains hfamily⟩
    have hmap : (members.map fun m => m.value c) = members.map fun m => m.value a :=
      List.map_congr_left fun m hm => ExtremumMember.value_congr (hbelow m hm) hca
    obtain ⟨b, hbc, hb⟩ := (hext.completes_iff c).mpr
      ⟨hcs, linkAsks_of_eq hmm hne _ (by rw [hmap]; exact hcv)⟩
    have hbc : AgreeBelow (added.width indexer) b c := hbc
    exact ⟨b, (hbc.mono (by omega)).trans hca, hb, (hbc z (by omega)).trans hcv⟩

end Auxiliary

/-! ## Flat objectives -/

/-- The rows of a flat objective keep their coefficients. -/
structure FlatClean (indexer : VarIndexer) (input : SolverInput) (spec : MinMaxObjectiveSpec)
    (terms : List LhsTerm) : Prop where
  tiny : ∀ r, r < input.numRows → NoTinyCoefficient terms r
  merged : ∀ r ∈ flatActiveRows spec input.numRows terms, ObjectiveCutClean indexer terms 1 [r]

/-- The member of a row is worth what the row is. -/
theorem objectiveMember_value {terms : List LhsTerm} {r : Nat}
    (hclean : ObjectiveCutClean indexer terms 1 [r]) :
    (objectiveMember input indexer terms r).value a = objectiveRowValue indexer terms a r := by
  have hvalue := objectiveRows_worth (a := a) hclean (rowRangeFor input terms r)
  rw [List.map_singleton, List.sum_singleton, mul_one] at hvalue
  exact hvalue

theorem objectiveMember_below (hn : input.numRows = indexer.numRows) {terms : List LhsTerm}
    {rows : List Nat} (hrows : ∀ r ∈ rows, r < input.numRows) :
    MembersBelow (input.width indexer) (rows.map (objectiveMember input indexer terms)) := by
  intro m hm e he
  obtain ⟨r, hr, rfl⟩ := List.mem_map.mp hm
  exact ((objectiveMember_listed hn terms (hrows r hr)).lt e (List.mem_filter.mp he).1).trans_le
    (Nat.le_add_right _ _)

/-- The value of a flat objective, over the rows its WHEN keeps that have a coefficient. -/
def flatValue (indexer : VarIndexer) (numRows : Nat) (spec : MinMaxObjectiveSpec)
    (terms : List LhsTerm) (a : Nat → ℚ) : ℚ :=
  spec.flatAgg.reduce ((flatActiveRows spec numRows terms).map (objectiveRowValue indexer terms a))

/-- **A flat MIN/MAX objective** is one auxiliary, pinned to the extremum of its rows. -/
theorem linearizeFlatObjective_pinned {sense : DecideSense} {spec : MinMaxObjectiveSpec}
    {obj : LinearObjective} {varNames : List String} {policy : NativeConstructPolicy}
    {res : SolverInput × LinearObjective} (hw : input.WellScoped indexer)
    (hmm : spec.flatAgg.isMinMax = true) (heasy : spec.flatIsEasy = spec.flatAgg.isEasy sense)
    (hboxed : TermsBoxed input obj.savedTerms) (hclean : FlatClean indexer input spec obj.savedTerms)
    (hok : linearizeFlatObjective input indexer spec obj varNames policy = .ok res) :
    ResultPinned indexer sense input res.1 (input.width indexer)
        (flatValue indexer input.numRows spec obj.savedTerms) ∧
      res.2 = { obj.cleared with
        globalObjCoeffs := obj.globalObjCoeffs ++ [(input.width indexer, 1)] } := by
  have hrow : ∀ r ∈ flatActiveRows spec input.numRows obj.savedTerms, r < input.numRows := fun r hr =>
    List.mem_range.mp (List.mem_filter.mp hr).1
  unfold linearizeFlatObjective at hok
  dsimp only at hok
  split at hok
  · cases hok
  rename_i hne
  split at hok
  · cases hok
  rename_i linked hlink
  obtain rfl := Except.ok.inj hok
  rw [heasy] at hlink
  have hpinned := resultPinned_of_link hw hmm (objectiveMember_below hw.numRows_eq hrow)
    (by simpa using hne) (fun a ha m hm => ?_) hlink
  · refine ⟨?_, rfl⟩
    have hvalue : flatValue indexer input.numRows spec obj.savedTerms = fun a =>
        spec.flatAgg.reduce (((flatActiveRows spec input.numRows obj.savedTerms).map
          (objectiveMember input indexer obj.savedTerms)).map fun m => m.value a) := by
      funext a
      unfold flatValue
      rw [List.map_map]
      exact congrArg _ (List.map_congr_left fun r hr => (objectiveMember_value (hclean.merged r hr)).symm)
    rw [hvalue]
    exact hpinned
  · obtain ⟨r, hr, rfl⟩ := List.mem_map.mp hm
    rw [objectiveMember_value (hclean.merged r hr)]
    exact ⟨rowRangeFor_contains hboxed ha.inBoxes (hrow r hr) (hclean.tiny r (hrow r hr)),
      rowFamily_contains hboxed ha.inBoxes (hrow r hr) (hclean.tiny r (hrow r hr))⟩

end Decidb
