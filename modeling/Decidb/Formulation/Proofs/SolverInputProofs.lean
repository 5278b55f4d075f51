import Decidb.Formulation.SolverInput

/-!
# The solver input as a system, and the soundness of the signed range

What each append does to the accepted assignments, and that the signed range of a row brackets its
variable part over the box it was computed from.
-/

namespace Decidb

open Linear

/-! ## Appending to the flat block -/

namespace SolverInput

variable {input : SolverInput} {indexer : VarIndexer} {a : Nat → ℚ}

@[simp] theorem pushRow_width (r : RawConstraint) :
    (input.pushRow r).width indexer = input.width indexer := rfl

@[simp] theorem pushGeneral_width (gc : GeneralConstraintSpec) :
    (input.pushGeneral gc).width indexer = input.width indexer := rfl

@[simp] theorem pushIndicator_width (ic : IndicatorConstraintSpec) :
    (input.pushIndicator ic).width indexer = input.width indexer := rfl

@[simp] theorem addGlobalContinuousAux_snd (range : AuxRange) :
    (input.addGlobalContinuousAux indexer range).2 = input.width indexer := rfl

@[simp] theorem addGlobalContinuousAux_width (range : AuxRange) :
    (input.addGlobalContinuousAux indexer range).1.width indexer = input.width indexer + 1 := by
  simp [width, addGlobalContinuousAux, Nat.add_assoc]

@[simp] theorem addGlobalBinaryAux_snd :
    (input.addGlobalBinaryAux indexer).2 = input.width indexer := rfl

@[simp] theorem addGlobalBinaryAux_width :
    (input.addGlobalBinaryAux indexer).1.width indexer = input.width indexer + 1 := by
  simp [width, addGlobalBinaryAux, Nat.add_assoc]

theorem holds_pushRow (r : RawConstraint) :
    (input.pushRow r).Holds indexer a ↔ input.Holds indexer a ∧ r.Holds a := by
  constructor
  · intro h
    exact ⟨⟨h.inBoxes, h.globals, fun q hq => h.rows q (by simp [pushRow, hq]), h.generals,
      h.indicators⟩, h.rows r (by simp [pushRow])⟩
  · rintro ⟨h, hr⟩
    refine ⟨h.inBoxes, h.globals, fun q hq => ?_, h.generals, h.indicators⟩
    rcases List.mem_append.mp hq with hq | hq
    · exact h.rows q hq
    · rw [List.mem_singleton.mp hq]
      exact hr

theorem holds_pushGeneral (gc : GeneralConstraintSpec) :
    (input.pushGeneral gc).Holds indexer a ↔ input.Holds indexer a ∧ gc.Holds a := by
  constructor
  · intro h
    exact ⟨⟨h.inBoxes, h.globals, h.rows, fun q hq => h.generals q (by simp [pushGeneral, hq]),
      h.indicators⟩, h.generals gc (by simp [pushGeneral])⟩
  · rintro ⟨h, hr⟩
    refine ⟨h.inBoxes, h.globals, h.rows, fun q hq => ?_, h.indicators⟩
    rcases List.mem_append.mp hq with hq | hq
    · exact h.generals q hq
    · rw [List.mem_singleton.mp hq]
      exact hr

theorem holds_pushIndicator (ic : IndicatorConstraintSpec) :
    (input.pushIndicator ic).Holds indexer a ↔ input.Holds indexer a ∧ ic.Holds a := by
  constructor
  · intro h
    exact ⟨⟨h.inBoxes, h.globals, h.rows, h.generals,
      fun q hq => h.indicators q (by simp [pushIndicator, hq])⟩,
      h.indicators ic (by simp [pushIndicator])⟩
  · rintro ⟨h, hr⟩
    refine ⟨h.inBoxes, h.globals, h.rows, h.generals, fun q hq => ?_⟩
    rcases List.mem_append.mp hq with hq | hq
    · exact h.indicators q hq
    · rw [List.mem_singleton.mp hq]
      exact hr

/-- Appending one column asks only that the new column lies in its box. -/
theorem holds_appendColumn (box : ColumnBox) :
    ({ input with globalColumns := input.globalColumns ++ [box] } : SolverInput).Holds indexer a ↔
      input.Holds indexer a ∧ box.Admits (a (input.width indexer)) := by
  constructor
  · intro h
    refine ⟨⟨h.inBoxes, fun i b hb => h.globals i b ?_, h.rows, h.generals, h.indicators⟩,
      h.globals input.globalColumns.length box (by simp)⟩
    have hi : i < input.globalColumns.length := (List.getElem?_eq_some_iff.mp hb).1
    simp only [List.getElem?_append_left hi, hb]
  · rintro ⟨h, hbox⟩
    refine ⟨h.inBoxes, fun i b hb => ?_, h.rows, h.generals, h.indicators⟩
    rcases Nat.lt_trichotomy i input.globalColumns.length with hi | hi | hi
    · exact h.globals i b (by simpa [List.getElem?_append_left hi] using hb)
    · subst hi
      obtain rfl : box = b := by simpa using hb
      exact hbox
    · have hlen := (List.getElem?_eq_some_iff.mp hb).1
      simp at hlen
      omega

/-- The box an auxiliary over `range` is declared with admits what the range contains. -/
theorem admits_of_contains {range : AuxRange} {x : ℚ} (h : range.Contains x) :
    (⟨if range.loUnbounded then -openBound else range.lo,
      if range.hiUnbounded then openBound else range.hi, false⟩ : ColumnBox).Admits x := by
  obtain ⟨hlo, hhi⟩ := h
  refine ⟨?_, ?_, by simp⟩
  · cases hb : range.loUnbounded with
    | true => left; norm_num [openBound, solverInfinity]
    | false => right; simpa [hb] using hlo
  · cases hb : range.hiUnbounded with
    | true => left; norm_num [openBound, solverInfinity]
    | false => right; simpa [hb] using hhi

/-- A binary column holds zero or one. -/
theorem binary_admits_iff (x : ℚ) : (⟨0, 1, true⟩ : ColumnBox).Admits x ↔ x = 0 ∨ x = 1 := by
  constructor
  · intro h
    have h0 : (0 : ℚ) ≤ x := h.lower_le.resolve_left (by norm_num [solverInfinity])
    have h1 : x ≤ 1 := h.le_upper.resolve_left (by norm_num [solverInfinity])
    have hx : x = x.num := (Rat.den_eq_one_iff x).mp (h.integral rfl) |>.symm
    rw [hx] at h0 h1 ⊢
    have hn0 : (0 : ℤ) ≤ x.num := by exact_mod_cast h0
    have hn1 : x.num ≤ 1 := by exact_mod_cast h1
    interval_cases x.num <;> simp
  · rintro (rfl | rfl) <;> exact ⟨Or.inr (by norm_num), Or.inr (by norm_num), fun _ => rfl⟩

/-- The accepted assignments depend only on the columns that exist. -/
theorem WellScoped.readsBelow (h : input.WellScoped indexer) :
    ReadsBelow (input.width indexer) (input.Holds indexer) := by
  intro a b hab ha
  refine ⟨fun v box hv row hrow => ?_, fun i box hi => ?_, fun r hr => ?_, fun gc hgc => ?_,
    fun ic hic => ?_⟩
  · have hlt : indexer.get v row < input.width indexer :=
      (indexer.get_lt v (h.numRows_eq ▸ hrow)).trans_le (Nat.le_add_right _ _)
    rw [← hab _ hlt]
    exact ha.inBoxes v box hv row hrow
  · have hlt : i < input.globalColumns.length := (List.getElem?_eq_some_iff.mp hi).1
    rw [← hab _ (Nat.add_lt_add_left hlt _)]
    exact ha.globals i box hi
  · exact (Row.holds_congr fun t ht => hab _ (h.rows r hr t ht)).mp (ha.rows r hr)
  · obtain ⟨hres, hargs⟩ := h.generals gc hgc
    have hmap : gc.argumentColumns.map a = gc.argumentColumns.map b :=
      List.map_congr_left fun c hc => hab c (hargs c hc)
    have habs : gc.argumentColumns.map (fun c => |a c|) = gc.argumentColumns.map fun c => |b c| :=
      List.map_congr_left fun c hc => by rw [hab c (hargs c hc)]
    have hgca := ha.generals gc hgc
    unfold GeneralConstraintSpec.Holds at hgca ⊢
    rw [← hmap, ← habs, ← hab _ hres]
    exact hgca
  · obtain ⟨hbin, hrow⟩ := h.indicators ic hic
    intro hval
    rw [← hab _ hbin] at hval
    exact (Row.holds_congr fun t ht => hab _ (hrow t ht)).mp (ha.indicators ic hic hval)

theorem WellScoped.pushRow (h : input.WellScoped indexer) {r : RawConstraint}
    (hr : ∀ t ∈ r.form, t.1 < input.width indexer) : (input.pushRow r).WellScoped indexer where
  numRows_eq := h.numRows_eq
  rows q hq := by
    rcases List.mem_append.mp hq with hq | hq
    · exact h.rows q hq
    · rw [List.mem_singleton.mp hq]
      exact hr
  generals := h.generals
  indicators := h.indicators

/-- Appending a row asks exactly that row. -/
theorem WellScoped.extends_pushRow (h : input.WellScoped indexer) {r : RawConstraint}
    (hr : ∀ t ∈ r.form, t.1 < input.width indexer) :
    System.Extends (input.system indexer) ((input.pushRow r).system indexer) r.Holds :=
  System.Extends.of_holds_iff rfl (h.pushRow hr).readsBelow fun _ => holds_pushRow r

theorem WellScoped.pushGeneral (h : input.WellScoped indexer) (gc : GeneralConstraintSpec)
    (hres : gc.resultColumn < input.width indexer)
    (hargs : ∀ c ∈ gc.argumentColumns, c < input.width indexer) :
    (input.pushGeneral gc).WellScoped indexer where
  numRows_eq := h.numRows_eq
  rows := h.rows
  generals q hq := by
    rcases List.mem_append.mp hq with hq | hq
    · exact h.generals q hq
    · rw [List.mem_singleton.mp hq]
      exact ⟨hres, hargs⟩
  indicators := h.indicators

theorem WellScoped.pushIndicator (h : input.WellScoped indexer) {ic : IndicatorConstraintSpec}
    (hbin : ic.binaryColumn < input.width indexer)
    (hrow : ∀ t ∈ ic.row.form, t.1 < input.width indexer) :
    (input.pushIndicator ic).WellScoped indexer where
  numRows_eq := h.numRows_eq
  rows := h.rows
  generals := h.generals
  indicators q hq := by
    rcases List.mem_append.mp hq with hq | hq
    · exact h.indicators q hq
    · rw [List.mem_singleton.mp hq]
      exact ⟨hbin, hrow⟩

theorem WellScoped.appendColumn (h : input.WellScoped indexer) (box : ColumnBox) :
    ({ input with globalColumns := input.globalColumns ++ [box] } : SolverInput).WellScoped
      indexer := by
  have hw : ({ input with globalColumns := input.globalColumns ++ [box] } : SolverInput).width
      indexer = input.width indexer + 1 := by simp [width, Nat.add_assoc]
  refine ⟨h.numRows_eq, fun r hr t ht => ?_, fun gc hgc => ?_, fun ic hic => ?_⟩
  · rw [hw]
    exact Nat.lt_succ_of_lt (h.rows r hr t ht)
  · obtain ⟨hres, hargs⟩ := h.generals gc hgc
    rw [hw]
    exact ⟨Nat.lt_succ_of_lt hres, fun c hc => Nat.lt_succ_of_lt (hargs c hc)⟩
  · obtain ⟨hbin, hrow⟩ := h.indicators ic hic
    rw [hw]
    exact ⟨Nat.lt_succ_of_lt hbin, fun t ht => Nat.lt_succ_of_lt (hrow t ht)⟩

end SolverInput

/-! ## The signed range of a row -/

/-- No coefficient of the row is small enough to be dropped without being zero. -/
def NoTinyCoefficient (terms : List LhsTerm) (row : Nat) : Prop :=
  ∀ t ∈ terms, t.rowCoefficients row = 0 ∨ coefficientCut ≤ |t.rowCoefficients row|

/-- `x v` lies in the box of variable `v`, an end past the solver's infinity being open. -/
def InBox (lower upper : List ℚ) (x : Nat → ℚ) : Prop :=
  ∀ v lb ub, lower[v]? = some lb → upper[v]? = some ub →
    (lb ≤ -solverInfinity ∨ lb ≤ x v) ∧ (solverInfinity ≤ ub ∨ x v ≤ ub)

/-- The columns of a row lie in the boxes of their variables. -/
theorem inBox_of_inBoxes {input : SolverInput} {indexer : VarIndexer} {a : Nat → ℚ} {r : Nat}
    (h : input.InBoxes indexer a) (hr : r < input.numRows) :
    InBox input.lowerBounds input.upperBounds fun v => a (indexer.get v r) := by
  intro v lb ub hl hu
  have hbox : input.variableBox v = some ⟨lb, ub, input.variableTypes[v]? ≠ some .real⟩ := by
    simp [SolverInput.variableBox, hl, hu]
  have := h v _ hbox r hr
  exact ⟨this.lower_le, this.le_upper⟩

/-- A range with open ends brackets a value. -/
def Brackets (range : Option ℚ × Option ℚ) (x : ℚ) : Prop :=
  (∀ l, range.1 = some l → l ≤ x) ∧ ∀ h, range.2 = some h → x ≤ h

variable {row : Nat} {lower upper : List ℚ} {x : Nat → ℚ}

/-- A term's contribution to the variable part of a row. -/
def termContribution (row : Nat) (x : Nat → ℚ) (t : LhsTerm) : ℚ :=
  match t.variableIndex with
  | none => 0
  | some v => t.rowCoefficients row * x v

theorem rowVariablePart_cons (t : LhsTerm) (terms : List LhsTerm) :
    rowVariablePart (t :: terms) row x =
      termContribution row x t + rowVariablePart terms row x := by
  simp only [rowVariablePart, List.map_cons, List.sum_cons]
  rfl

/-! ## The value of a row -/

/-- The value of one term of a row. -/
def termValue (r : Nat) (x : Nat → ℚ) (t : LhsTerm) : ℚ :=
  match t.variableIndex with
  | none => t.rowCoefficients r
  | some v => t.rowCoefficients r * x v

theorem rowValue_nil (r : Nat) (x : Nat → ℚ) : rowValue [] r x = 0 := by
  simp [rowValue, rowVariablePart, decideRowFixedLhsOffset]

theorem rowValue_cons (t : LhsTerm) (terms : List LhsTerm) (r : Nat) (x : Nat → ℚ) :
    rowValue (t :: terms) r x = termValue r x t + rowValue terms r x := by
  unfold rowValue
  rw [rowVariablePart_cons]
  unfold termContribution termValue decideRowFixedLhsOffset
  cases h : t.variableIndex with
  | none => simp [h]; ring
  | some v => simp [h]; ring

/-- A row depends only on the variables it names. -/
theorem rowValue_congr {terms : List LhsTerm} {r : Nat} {x x' : Nat → ℚ}
    (h : ∀ t ∈ terms, ∀ v, t.variableIndex = some v → x v = x' v) :
    rowValue terms r x = rowValue terms r x' := by
  induction terms with
  | nil => rfl
  | cons t terms ih =>
    rw [rowValue_cons, rowValue_cons, ih fun u hu => h u (List.mem_cons_of_mem _ hu)]
    cases hv : t.variableIndex with
    | none => simp [termValue, hv]
    | some v => simp only [termValue, hv, h t List.mem_cons_self v hv]

/-- One term keeps the bracket. -/
theorem signedRangeStep_brackets (hbox : InBox lower upper x) {acc : Option ℚ × Option ℚ} {s : ℚ}
    (hacc : Brackets acc s) {t : LhsTerm}
    (ht : t.rowCoefficients row = 0 ∨ coefficientCut ≤ |t.rowCoefficients row|) :
    Brackets (signedRangeStep row lower upper none acc t) (s + termContribution row x t) := by
  obtain ⟨hlo, hhi⟩ := hacc
  cases hv : t.variableIndex with
  | none => simpa [signedRangeStep, termContribution, hv] using ⟨hlo, hhi⟩
  | some v =>
    simp only [signedRangeStep, termContribution, hv, reduceCtorEq, if_false]
    by_cases htiny : |t.rowCoefficients row| < coefficientCut
    · have h0 : t.rowCoefficients row = 0 := ht.resolve_right (not_le.mpr htiny)
      rw [if_pos htiny, h0, zero_mul, add_zero]
      exact ⟨hlo, hhi⟩
    · rw [if_neg htiny]
      cases hl : lower[v]? with
      | none => simp [Brackets]
      | some lb =>
        cases hu : upper[v]? with
        | none => simp [Brackets]
        | some ub =>
          obtain ⟨hlb, hub⟩ := hbox v lb ub hl hu
          by_cases hneg : t.rowCoefficients row < 0
          · constructor
            · intro l hl'
              by_cases hopen : solverInfinity ≤ ub
              · simp [hneg, hopen] at hl'
              · simp only [hneg, if_true, hopen, if_false, Option.map_eq_some_iff] at hl'
                obtain ⟨l', hl'', rfl⟩ := hl'
                have := hlo l' hl''
                have := mul_le_mul_of_nonpos_left (hub.resolve_left hopen) hneg.le
                linarith
            · intro u hu'
              by_cases hopen : lb ≤ -solverInfinity
              · simp [hneg, hopen] at hu'
              · simp only [hneg, if_true, hopen, if_false, Option.map_eq_some_iff] at hu'
                obtain ⟨u', hu'', rfl⟩ := hu'
                have := hhi u' hu''
                have := mul_le_mul_of_nonpos_left (hlb.resolve_left hopen) hneg.le
                linarith
          · have hpos : 0 ≤ t.rowCoefficients row := not_lt.mp hneg
            constructor
            · intro l hl'
              by_cases hopen : lb ≤ -solverInfinity
              · simp [hneg, hopen] at hl'
              · simp only [hneg, if_false, hopen, Option.map_eq_some_iff] at hl'
                obtain ⟨l', hl'', rfl⟩ := hl'
                have := hlo l' hl''
                have := mul_le_mul_of_nonneg_left (hlb.resolve_left hopen) hpos
                linarith
            · intro u hu'
              by_cases hopen : solverInfinity ≤ ub
              · simp [hneg, hopen] at hu'
              · simp only [hneg, if_false, hopen, Option.map_eq_some_iff] at hu'
                obtain ⟨u', hu'', rfl⟩ := hu'
                have := hhi u' hu''
                have := mul_le_mul_of_nonneg_left (hub.resolve_left hopen) hpos
                linarith

/-- **The signed range brackets the variable part of the row** over the box it was read from. -/
theorem decideRowSignedRange_brackets (hbox : InBox lower upper x) {terms : List LhsTerm}
    (hcut : NoTinyCoefficient terms row) :
    Brackets (decideRowSignedRange terms row lower upper) (rowVariablePart terms row x) := by
  suffices h : ∀ (terms : List LhsTerm) (acc : Option ℚ × Option ℚ) (s : ℚ),
      NoTinyCoefficient terms row → Brackets acc s →
      Brackets (terms.foldl (signedRangeStep row lower upper none) acc)
        (s + rowVariablePart terms row x) by
    have := h terms (some 0, some 0) 0 hcut (by simp [Brackets])
    simpa [decideRowSignedRange] using this
  intro terms
  induction terms with
  | nil => intro acc s _ hacc; simpa [rowVariablePart] using hacc
  | cons t terms ih =>
    intro acc s hcut hacc
    rw [List.foldl_cons, rowVariablePart_cons, ← add_assoc]
    exact ih _ _ (fun u hu => hcut u (List.mem_cons_of_mem _ hu))
      (signedRangeStep_brackets hbox hacc (hcut t List.mem_cons_self))

/-! ## The reach of a family -/

namespace AuxRange

variable {r : AuxRange}

/-- Extending a range by a row keeps what it contained. -/
theorem coverRowSided_contains_left {rowLo rowHi : Option ℚ} {var : Option Nat} {y : ℚ}
    (h : r.Contains y) : (r.coverRowSided rowLo rowHi var).Contains y := by
  obtain ⟨hlo, hhi⟩ := h
  cases rowLo <;> cases rowHi <;>
    simp only [coverRowSided, markLoUnbounded, markHiUnbounded, Contains] <;>
    refine ⟨?_, ?_⟩ <;> first | exact Or.inl trivial | skip
  all_goals first
    | exact hlo
    | exact hhi
    | exact hlo.imp_right fun h => (min_le_left _ _).trans h
    | exact hhi.imp_right fun h => h.trans (le_max_left _ _)

/-- A range extended by a row contains what the row's own ends bracket. -/
theorem coverRowSided_contains {rowLo rowHi : Option ℚ} {var : Option Nat} {y : ℚ}
    (hy : Brackets (rowLo, rowHi) y) : (r.coverRowSided rowLo rowHi var).Contains y := by
  obtain ⟨hlo, hhi⟩ := hy
  constructor
  · cases rowLo with
    | none => left; cases rowHi <;> simp [coverRowSided, markLoUnbounded, markHiUnbounded]
    | some l =>
      right
      have : (r.coverRowSided (some l) rowHi var).lo = min r.lo l := by
        cases rowHi <;> simp [coverRowSided, markHiUnbounded]
      rw [this]
      exact (min_le_right _ _).trans (hlo l rfl)
  · cases rowHi with
    | none => left; cases rowLo <;> simp [coverRowSided, markLoUnbounded, markHiUnbounded]
    | some h =>
      right
      have : h ≤ (r.coverRowSided rowLo (some h) var).hi := by
        cases rowLo <;> simp [coverRowSided, markLoUnbounded]
      exact (hhi h rfl).trans this

theorem cover_contains_left {other : AuxRange} {y : ℚ} (h : r.Contains y) :
    (r.cover other).Contains y := by
  obtain ⟨hlo, hhi⟩ := h
  constructor
  · rcases hlo with h | h
    · left; simp [cover, h]
    · exact Or.inr ((min_le_left _ _).trans h)
  · rcases hhi with h | h
    · left; simp [cover, h]
    · exact Or.inr (h.trans (le_max_left _ _))

theorem cover_contains_right {other : AuxRange} {y : ℚ} (h : other.Contains y) :
    (r.cover other).Contains y := by
  obtain ⟨hlo, hhi⟩ := h
  constructor
  · rcases hlo with h | h
    · left; simp [cover, h]
    · exact Or.inr ((min_le_right _ _).trans h)
  · rcases hhi with h | h
    · left; simp [cover, h]
    · exact Or.inr (h.trans (le_max_right _ _))

/-- Two values of a bounded range are at most its span apart. -/
theorem sub_le_span {y z : ℚ} (hb : r.unbounded = false) (hy : r.Contains y) (hz : r.Contains z) :
    y - z ≤ r.span := by
  simp only [unbounded, Bool.or_eq_false_iff] at hb
  have h1 : r.lo ≤ z := hz.1.resolve_left (by simp [hb.1])
  have h2 : y ≤ r.hi := hy.2.resolve_left (by simp [hb.2])
  unfold span
  linarith

end AuxRange

/-! ## The rows of a group -/

theorem mem_groupRows {ec : EvaluatedConstraint} {n g r : Nat} :
    r ∈ groupRows ec n g ↔ r < n ∧ ec.groupOf r = some g := by
  simp [groupRows]

end Decidb
