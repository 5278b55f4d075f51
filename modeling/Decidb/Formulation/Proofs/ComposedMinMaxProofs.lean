import Decidb.Formulation.ComposedMinMax
import Decidb.Formulation.Proofs.ExtremumLinkProofs
import Decidb.Optimizer.Proofs.AggregateProofs

/-!
# What the rows of a composed MIN/MAX constraint accept

An easy auxiliary is pressed against its envelope by the outer row, any other one is pinned to its
extremum; so the emitted rows accept exactly the assignments at which the composed expression meets
the comparison with its strictness dropped.
-/

namespace Decidb

open Linear SolverInput

variable {indexer : VarIndexer} {input : SolverInput} {a b : Nat → ℚ}

/-! ## One row of a term -/

/-- The linking row of one row of a term. -/
def composedLink (indexer : VarIndexer) (terms : List LhsTerm) (r : Nat) : MinMaxLinkRow :=
  terms.foldl (addComposedRowTerm indexer r) {}

/-- No coefficient of the row is dropped without being zero, alone or merged with others of its
column. -/
structure ComposedCutClean (indexer : VarIndexer) (terms : List LhsTerm) (r : Nat) : Prop where
  single : NoTinyCoefficient terms r
  merged : ∀ t ∈ (composedLink indexer terms r).form, t.2 = 0 ∨ coefficientCut ≤ |t.2|

theorem composedLink_value (terms : List LhsTerm) (r : Nat) (a : Nat → ℚ) :
    (composedLink indexer terms r).constant - (composedLink indexer terms r).form.eval a =
      rowValue terms r fun v => a (indexer.get v r) := by
  suffices h : ∀ (terms : List LhsTerm) (link : MinMaxLinkRow),
      (terms.foldl (addComposedRowTerm indexer r) link).constant -
          (terms.foldl (addComposedRowTerm indexer r) link).form.eval a =
        link.constant - link.form.eval a + rowValue terms r fun v => a (indexer.get v r) by
    simpa [composedLink] using h terms {}
  intro terms
  induction terms with
  | nil => intro link; simp [rowValue_nil]
  | cons t terms ih =>
    intro link
    rw [List.foldl_cons, ih, rowValue_cons]
    unfold addComposedRowTerm termValue
    cases t.variableIndex with
    | none => simp only; ring
    | some v =>
      simp only [MinMaxLinkRow.addColumn, Form.eval_addColumn]
      ring

theorem composedLink_columns (terms : List LhsTerm) {r : Nat} (hr : r < indexer.numRows) :
    ∀ t ∈ (composedLink indexer terms r).form, t.1 < indexer.globalBlockStart := by
  suffices h : ∀ (terms : List LhsTerm) (link : MinMaxLinkRow),
      (∀ t ∈ link.form, t.1 < indexer.globalBlockStart) →
      ∀ t ∈ (terms.foldl (addComposedRowTerm indexer r) link).form,
        t.1 < indexer.globalBlockStart by
    exact h terms {} (by simp)
  intro terms
  induction terms with
  | nil => intro link h; exact h
  | cons u terms ih =>
    intro link h
    rw [List.foldl_cons]
    refine ih _ ?_
    unfold addComposedRowTerm
    cases u.variableIndex with
    | none => exact h
    | some v =>
      intro t ht
      rcases Form.mem_addColumn ht with heq | ⟨w, hw, hwt⟩
      · rw [heq]
        exact indexer.get_lt v hr
      · rw [← hwt]
        exact h w hw

/-! ## The range of a term -/

/-- What one row's walk keeps: the range still contains what it did, and either it was marked open
or the running ends bracket the running value. -/
structure RowWalk (range : AuxRange) (acc : AuxRange × ℚ × ℚ) (s : ℚ) : Prop where
  contains : ∀ y, range.Contains y → acc.1.Contains y
  brackets : (acc.1.loUnbounded = true ∧ acc.1.hiUnbounded = true) ∨ acc.2.1 ≤ s ∧ s ≤ acc.2.2

theorem composedRowStep_walk {range : AuxRange} {acc : AuxRange × ℚ × ℚ} {s : ℚ} {r : Nat}
    {lower upper : List ℚ} {x : Nat → ℚ} (hbox : InBox lower upper x) (h : RowWalk range acc s)
    {t : LhsTerm} (ht : t.rowCoefficients r = 0 ∨ coefficientCut ≤ |t.rowCoefficients r|) :
    RowWalk range (composedRowStep lower upper r acc t) (s + termValue r x t) := by
  have hmark : ∀ v s', RowWalk range (acc.1.markUnbounded (some v), acc.2) s' := fun v s' =>
    ⟨fun _ _ => ⟨Or.inl rfl, Or.inl rfl⟩, Or.inl ⟨rfl, rfl⟩⟩
  unfold composedRowStep
  by_cases htiny : |t.rowCoefficients r| < coefficientCut
  · have h0 : t.rowCoefficients r = 0 := ht.resolve_right (not_le.mpr htiny)
    have hs : s + termValue r x t = s := by
      unfold termValue
      cases t.variableIndex <;> simp [h0]
    simp only [htiny, if_true]
    rw [hs]
    exact h
  · unfold termValue
    simp only [htiny, if_false]
    cases t.variableIndex with
    | none => exact ⟨h.contains, h.brackets.imp_right fun hb => ⟨by simp [hb.1], by simp [hb.2]⟩⟩
    | some v =>
      cases hl : lower[v]? with
      | none =>
        simp only [hl]
        exact hmark v _
      | some lb =>
        cases hu : upper[v]? with
        | none =>
          simp only [hl, hu]
          exact hmark v _
        | some ub =>
          simp only [hl, hu]
          by_cases hopen : solverInfinity ≤ ub ∨ lb ≤ -solverInfinity
          · rw [if_pos hopen]
            exact hmark v _
          · rw [if_neg hopen]
            rw [not_or] at hopen
            obtain ⟨hlb, hub⟩ := hbox v lb ub hl hu
            have hlb := hlb.resolve_left hopen.2
            have hub := hub.resolve_left hopen.1
            refine ⟨h.contains, h.brackets.imp_right fun hb => ?_⟩
            by_cases hpos : 0 < t.rowCoefficients r
            · simp only [hpos, if_true]
              have h1 := mul_le_mul_of_nonneg_left hlb hpos.le
              have h2 := mul_le_mul_of_nonneg_left hub hpos.le
              constructor <;> linarith [hb.1, hb.2]
            · simp only [hpos, if_false]
              have h1 := mul_le_mul_of_nonpos_left hlb (not_lt.mp hpos)
              have h2 := mul_le_mul_of_nonpos_left hub (not_lt.mp hpos)
              constructor <;> linarith [hb.1, hb.2]

theorem coverComposedRow_contains (range : AuxRange) {r : Nat} {lower upper : List ℚ}
    {x : Nat → ℚ} (hbox : InBox lower upper x) {terms : List LhsTerm}
    (hcut : NoTinyCoefficient terms r) :
    (∀ y, range.Contains y → (coverComposedRow lower upper terms range r).Contains y) ∧
      (coverComposedRow lower upper terms range r).Contains (rowValue terms r x) := by
  have hwalk : ∀ (terms : List LhsTerm) (acc : AuxRange × ℚ × ℚ) (s : ℚ),
      NoTinyCoefficient terms r → RowWalk range acc s →
      RowWalk range (terms.foldl (composedRowStep lower upper r) acc) (s + rowValue terms r x) := by
    intro terms
    induction terms with
    | nil => intro acc s _ h; simpa [rowValue_nil] using h
    | cons t terms ih =>
      intro acc s hcut h
      rw [List.foldl_cons, rowValue_cons, ← add_assoc]
      exact ih _ _ (fun u hu => hcut u (List.mem_cons_of_mem _ hu))
        (composedRowStep_walk hbox h (hcut t List.mem_cons_self))
  have h := hwalk terms (range, 0, 0) 0 hcut ⟨fun _ hy => hy, Or.inr ⟨le_rfl, le_rfl⟩⟩
  rw [zero_add] at h
  refine ⟨fun y hy => AuxRange.coverRowSided_contains_left (h.contains y hy), ?_⟩
  rcases h.brackets with ⟨hlo, hhi⟩ | ⟨hlo, hhi⟩
  · exact ⟨Or.inl hlo, Or.inl hhi⟩
  · exact AuxRange.coverRowSided_contains ⟨fun l hl => by cases hl; exact hlo,
      fun u hu => by cases hu; exact hhi⟩

/-- The range of a term contains the value of each of its rows. -/
theorem composedTermRange_contains {ta : ComposedMinMaxTermData}
    (hbox : ∀ r, r < input.numRows →
      InBox input.lowerBounds input.upperBounds fun v => a (indexer.get v r))
    (hcut : ∀ r ∈ ta.rows input.numRows, NoTinyCoefficient ta.innerTerms r) :
    ∀ r ∈ ta.rows input.numRows, (composedTermRange input ta).Contains
      (rowValue ta.innerTerms r fun v => a (indexer.get v r)) := by
  suffices h : ∀ (rows : List Nat) (range : AuxRange),
      (∀ r ∈ rows, r < input.numRows ∧ NoTinyCoefficient ta.innerTerms r) →
      ∀ y, (range.Contains y ∨ ∃ r ∈ rows, y = rowValue ta.innerTerms r fun v =>
          a (indexer.get v r)) →
        (rows.foldl (coverComposedRow input.lowerBounds input.upperBounds ta.innerTerms)
          range).Contains y by
    intro r hr
    exact h _ {} (fun q hq => ⟨List.mem_range.mp (List.mem_filter.mp hq).1, hcut q hq⟩) _
      (Or.inr ⟨r, hr, rfl⟩)
  intro rows
  induction rows with
  | nil =>
    rintro range - y (h | ⟨r, hr, -⟩)
    · exact h
    · cases hr
  | cons q rows ih =>
    intro range hrows y hy
    obtain ⟨hq, hqcut⟩ := hrows q List.mem_cons_self
    have hcover := coverComposedRow_contains range (hbox q hq) hqcut
    rw [List.foldl_cons]
    refine ih _ (fun r hr => hrows r (List.mem_cons_of_mem _ hr)) y ?_
    rcases hy with hy | ⟨r, hr, rfl⟩
    · exact Or.inl (hcover.1 y hy)
    · rcases List.mem_cons.mp hr with rfl | hr
      · exact Or.inl hcover.2
      · exact Or.inr ⟨r, hr, rfl⟩

/-! ## The auxiliaries -/

/-- The box the auxiliary of a term is declared with. -/
def composedBox (init : SolverInput) (ta : ComposedMinMaxTermData) : ColumnBox :=
  let range := composedTermRange init ta
  ⟨if range.loUnbounded then -openBound else range.lo,
    if range.hiUnbounded then openBound else range.hi, false⟩

/-- Two inputs agree on what a range is derived from. -/
structure SameDecisions (s t : SolverInput) : Prop where
  numRows_eq : s.numRows = t.numRows
  lower_eq : s.lowerBounds = t.lowerBounds
  upper_eq : s.upperBounds = t.upperBounds

theorem SameDecisions.range {s t : SolverInput} (h : SameDecisions s t)
    (ta : ComposedMinMaxTermData) : composedTermRange s ta = composedTermRange t ta := by
  unfold composedTermRange
  rw [h.numRows_eq, h.lower_eq, h.upper_eq]

/-- What the allocation of the auxiliaries gives. -/
structure Allocated (indexer : VarIndexer) (input out : SolverInput)
    (before terms : List ComposedMinMaxTermData) : Prop where
  wellScoped : out.WellScoped indexer
  width_le : input.width indexer ≤ out.width indexer
  /-- Only the column of a term is filled in. -/
  same : List.Forall₂ (fun t t' => t' = { t with zIdx := t'.zIdx }) before terms
  column_lt : ∀ t ∈ terms, t.aggName.isMinMax = true → t.zIdx < out.width indexer
  holds_iff : ∀ b, out.Holds indexer b ↔ input.Holds indexer b ∧
    ∀ t ∈ terms, t.aggName.isMinMax = true → (composedBox input t).Admits (b t.zIdx)
  /-- The columns are fresh and distinct, so they can be given any values. -/
  assign : ∀ (a : Nat → ℚ) (v : ComposedMinMaxTermData → ℚ),
    ∃ b, AgreeBelow (input.width indexer) b a ∧
      ∀ t ∈ terms, t.aggName.isMinMax = true → b t.zIdx = v t

theorem composedBox_zIdx (init : SolverInput) (ta : ComposedMinMaxTermData) (z : Nat) :
    composedBox init { ta with zIdx := z } = composedBox init ta := rfl

theorem allocateComposed_spec (terms : List ComposedMinMaxTermData) :
    ∀ input : SolverInput, input.WellScoped indexer →
      Allocated indexer input (allocateComposed indexer input terms).1 terms
        (allocateComposed indexer input terms).2 := by
  induction terms with
  | nil =>
    intro input hw
    exact ⟨hw, le_rfl, .nil, by simp [allocateComposed], fun b => by simp [allocateComposed],
      fun a _ => ⟨a, AgreeBelow.refl _ _, by simp [allocateComposed]⟩⟩
  | cons ta terms ih =>
    intro input hw
    cases hmm : ta.aggName.isMinMax with
    | false =>
      have h := ih input hw
      simp only [allocateComposed, hmm, Bool.false_eq_true, if_false]
      refine ⟨h.wellScoped, h.width_le, .cons rfl h.same, ?_, fun b => ?_, fun a v => ?_⟩
      · intro t ht hmt
        rcases List.mem_cons.mp ht with rfl | ht
        · rw [hmm] at hmt
          cases hmt
        · exact h.column_lt t ht hmt
      · rw [h.holds_iff]
        simp [hmm]
      · obtain ⟨b, hb, hv⟩ := h.assign a v
        refine ⟨b, hb, fun t ht hmt => ?_⟩
        rcases List.mem_cons.mp ht with rfl | ht
        · rw [hmm] at hmt
          cases hmt
        · exact hv t ht hmt
    | true =>
      simp only [allocateComposed, hmm, if_true]
      set next := (input.addGlobalContinuousAux indexer (composedTermRange input ta)).1 with hnext
      set z := input.width indexer with hz
      have hsame : SameDecisions next input := ⟨rfl, rfl, rfl⟩
      have hwidth : next.width indexer = z + 1 := addGlobalContinuousAux_width _
      have h := ih next (hw.appendColumn _)
      have hbox : ∀ t, composedBox next t = composedBox input t := fun t => by
        unfold composedBox
        rw [hsame.range]
      refine ⟨h.wellScoped, by have := h.width_le; omega, .cons rfl h.same, ?_, fun b => ?_,
        fun a v => ?_⟩
      · intro t ht hmt
        rcases List.mem_cons.mp ht with rfl | ht
        · have := h.width_le
          show z < _
          omega
        · exact h.column_lt t ht hmt
      · have hcol : next.Holds indexer b ↔
            input.Holds indexer b ∧ (composedBox input ta).Admits (b z) := holds_appendColumn _
        rw [h.holds_iff, hcol, List.forall_mem_cons]
        simp only [hbox, hmm, forall_const, and_assoc]
        rfl
      · obtain ⟨b, hb, hv⟩ := h.assign (Function.update a z (v { ta with zIdx := z })) v
        have hbz : b z = v { ta with zIdx := z } := by
          rw [hb z (by omega)]
          simp
        refine ⟨b, fun c hc => ?_, fun t ht hmt => ?_⟩
        · rw [hb c (by omega), Function.update_of_ne (by omega)]
        · rcases List.mem_cons.mp ht with rfl | ht
          · exact hbz
          · exact hv t ht hmt

/-! ## Pinning one auxiliary -/

/-- The value of a term's reducer. -/
def ComposedMinMaxTermData.value (ta : ComposedMinMaxTermData) (indexer : VarIndexer)
    (numRows : Nat) (a : Nat → ℚ) : ℚ :=
  ta.aggName.reduce
    ((ta.rows numRows).map fun r => rowValue ta.innerTerms r fun v => a (indexer.get v r))

/-- The pinned side of an auxiliary: at or beyond the extremum, and at it unless the term is easy. -/
structure Pinned (ta : ComposedMinMaxTermData) (value z : ℚ) : Prop where
  envelope : EnvelopeSide (ta.aggName = .max) z value
  exact_of_hard : ta.isEasy = false → z = value

section Members

variable {ta : ComposedMinMaxTermData}
  (hcut : ∀ r ∈ ta.rows input.numRows, ComposedCutClean indexer ta.innerTerms r)

include hcut

theorem composedMembers_values (a : Nat → ℚ) :
    ((composedMembers input indexer ta).map fun m => m.value a) =
      (ta.rows input.numRows).map fun r =>
        rowValue ta.innerTerms r fun v => a (indexer.get v r) := by
  rw [composedMembers, List.map_map]
  refine List.map_congr_left fun r hr => ?_
  show (composedLink indexer ta.innerTerms r).constant -
    (composedLink indexer ta.innerTerms r).appendTo.eval a = _
  rw [appendTo_eval _ (hcut r hr).merged, composedLink_value]

theorem composedMembers_contains (hin : input.InBoxes indexer a) :
    ∀ m ∈ composedMembers input indexer ta,
      m.range = composedTermRange input ta ∧ (composedTermRange input ta).Contains (m.value a) := by
  intro m hm
  have hv : m.value a ∈ (composedMembers input indexer ta).map fun m => m.value a :=
    List.mem_map_of_mem hm
  rw [composedMembers_values hcut] at hv
  obtain ⟨r, hr, hrv⟩ := List.mem_map.mp hv
  obtain ⟨_, -, rfl⟩ := List.mem_map.mp hm
  refine ⟨rfl, ?_⟩
  rw [← hrv]
  exact composedTermRange_contains (fun q hq => inBox_of_inBoxes hin hq)
    (fun q hq => (hcut q hq).single) r hr

/-- The extremum of the members is the value of the reducer. -/
theorem extremumOf_iff (hne : ta.rows input.numRows ≠ []) (hmm : ta.aggName.isMinMax = true)
    (a : Nat → ℚ) (z : ℚ) :
    ExtremumOf (ta.aggName = .max) (composedMembers input indexer ta) a z ↔
      z = ta.value indexer input.numRows a := by
  unfold ExtremumOf ComposedMinMaxTermData.value
  rw [composedMembers_values hcut]
  set vs := (ta.rows input.numRows).map fun r =>
    rowValue ta.innerTerms r fun v => a (indexer.get v r) with hvs
  have hvne : vs ≠ [] := by simpa [hvs] using hne
  cases hname : ta.aggName with
  | sum => simp [hname, AggregateName.isMinMax] at hmm
  | avg => simp [hname, AggregateName.isMinMax] at hmm
  | max =>
    obtain ⟨m, hm⟩ := Option.isSome_iff_exists.mp (List.isSome_max?_of_ne_nil hvne)
    simp [AggregateName.reduce, hm, eq_comm]
  | min =>
    obtain ⟨m, hm⟩ := Option.isSome_iff_exists.mp (List.isSome_min?_of_ne_nil hvne)
    simp [AggregateName.reduce, hm, eq_comm]

end Members

/-- The link of one term. -/
def composedSpec (init : SolverInput) (ta : ComposedMinMaxTermData) : ExtremumLinkSpec :=
  { resultColumn := ta.zIdx
    isMax := ta.aggName = .max
    needEnvelope := true
    needClosing := !ta.isEasy
    closingUnderivable := (composedTermRange init ta).unbounded
    closingBigM := if (composedTermRange init ta).unbounded then 0
      else (composedTermRange init ta).span
    blameVar := (composedTermRange init ta).unboundedVar }

theorem linkAsks_iff_pinned {ta : ComposedMinMaxTermData} {policy : NativeConstructPolicy}
    (hcut : ∀ r ∈ ta.rows input.numRows, ComposedCutClean indexer ta.innerTerms r)
    (hne : ta.rows input.numRows ≠ []) (hmm : ta.aggName.isMinMax = true) (c : Nat → ℚ) :
    LinkAsks (composedSpec input ta) (composedMembers input indexer ta) policy c ↔
      Pinned ta (ta.value indexer input.numRows c) (c ta.zIdx) := by
  have hext := (extremumOf_iff hcut hne hmm c _).mpr rfl
  have henv := hext.envelope_iff (c ta.zIdx)
  have hclose := hext.closing_iff (c ta.zIdx)
  unfold LinkAsks composedSpec
  simp only [forall_const]
  rw [henv]
  constructor
  · rintro ⟨he, hc⟩
    refine ⟨he, fun heasy => ?_⟩
    have hc := hc (by simp [heasy])
    split at hc
    · exact (extremumOf_iff hcut hne hmm c _).mp hc
    · have hc := hclose.mp hc
      unfold EnvelopeSide at he
      unfold ClosingSide at hc
      split at he
      · rename_i hmax
        rw [if_pos hmax] at hc
        exact le_antisymm hc he
      · rename_i hmax
        rw [if_neg hmax] at hc
        exact le_antisymm he hc
  · rintro ⟨he, hx⟩
    refine ⟨he, fun heasy => ?_⟩
    have hz := hx (by simpa using heasy)
    split
    · exact (extremumOf_iff hcut hne hmm c _).mpr hz
    · refine hclose.mpr ?_
      rw [hz]
      unfold ClosingSide
      split <;> exact le_rfl

/-- A term as the loop over the terms needs it. -/
structure TermReady (indexer : VarIndexer) (init : SolverInput) (n : Nat)
    (ta : ComposedMinMaxTermData) : Prop where
  column_lt : ta.zIdx < n
  clean : ∀ r ∈ ta.rows init.numRows, ComposedCutClean indexer ta.innerTerms r
  rows_ne : ta.rows init.numRows ≠ []

/-- What the loop asks for one term. -/
def TermAsks (indexer : VarIndexer) (init : SolverInput) (ta : ComposedMinMaxTermData)
    (c : Nat → ℚ) : Prop :=
  ta.aggName.isMinMax = true → Pinned ta (ta.value indexer init.numRows c) (c ta.zIdx)

theorem value_congr {ta : ComposedMinMaxTermData} {n numRows : Nat}
    (hn : indexer.globalBlockStart ≤ n) (hnr : numRows ≤ indexer.numRows)
    (hab : AgreeBelow n a b) :
    ta.value indexer numRows a = ta.value indexer numRows b := by
  unfold ComposedMinMaxTermData.value
  congr 1
  refine List.map_congr_left fun r hr => ?_
  have hrn : r < indexer.numRows :=
    (List.mem_range.mp (List.mem_filter.mp hr).1).trans_le hnr
  have : (fun v => a (indexer.get v r)) = fun v => b (indexer.get v r) :=
    funext fun v => hab _ ((indexer.get_lt v hrn).trans_le hn)
  rw [this]

theorem termAsks_readsBelow {ta : ComposedMinMaxTermData} {n : Nat}
    (hnr : input.numRows = indexer.numRows) (hn : indexer.globalBlockStart ≤ n)
    (hz : ta.aggName.isMinMax = true → ta.zIdx < n) :
    ReadsBelow n (TermAsks indexer input ta) := by
  intro a b hab h hmm
  rw [← value_congr hn hnr.le hab, ← hab _ (hz hmm)]
  exact h hmm

/-- **One term of the loop.** -/
theorem emitComposedTerm_spec {init s out : SolverInput} {ta : ComposedMinMaxTermData}
    {varNames : List String} {policy : NativeConstructPolicy}
    (hnr : init.numRows = indexer.numRows) (hw : s.WellScoped indexer)
    (hbox : ∀ a, s.Holds indexer a → init.InBoxes indexer a)
    (hready : ta.aggName.isMinMax = true → TermReady indexer init (s.width indexer) ta)
    (hok : emitComposedTerm init indexer varNames policy s ta = .ok out) :
    out.WellScoped indexer ∧
      System.Extends (s.system indexer) (out.system indexer) (TermAsks indexer init ta) := by
  unfold emitComposedTerm at hok
  cases hmm : ta.aggName.isMinMax with
  | false =>
    simp only [hmm, Bool.false_eq_true, if_false, Except.ok.injEq] at hok
    subst hok
    exact ⟨hw, (System.Extends.refl _ hw.readsBelow).congr fun a _ => by simp [TermAsks, hmm]⟩
  | true =>
    simp only [hmm, if_true] at hok
    obtain ⟨hz, hcut, hne⟩ := hready hmm
    have hrows : ∀ r ∈ ta.rows init.numRows, r < indexer.numRows := fun r hr =>
      hnr ▸ List.mem_range.mp (List.mem_filter.mp hr).1
    have hbelow : MembersBelow (s.width indexer) (composedMembers init indexer ta) := by
      intro m hm t ht
      obtain ⟨r, hr, rfl⟩ := List.mem_map.mp hm
      exact (composedLink_columns ta.innerTerms (hrows r hr) t
        (List.mem_filter.mp ht).1).trans_le (Nat.le_add_right _ _)
    have hrange : ∀ a, s.Holds indexer a → ∀ m ∈ composedMembers init indexer ta,
        m.range = composedTermRange init ta ∧ (composedTermRange init ta).Contains (m.value a) :=
      fun a ha => composedMembers_contains hcut (hbox a ha)
    obtain ⟨hw', hext⟩ := emitExtremumLink_spec (composedSpec init ta) hw hz hbelow
      (by simpa [composedMembers] using hne)
      (fun a ha m hm => (hrange a ha m hm).1 ▸ (hrange a ha m hm).2)
      (by
        -- the term's span is the Big-M
        intro _ hund a ha
        rintro ⟨m, hm, hcl⟩ m' hm'
        have hund' : (composedTermRange init ta).unbounded = false := hund
        have := span_dominates hund' (hrange a ha m hm).2 (hrange a ha m' hm').2 hcl
        simpa [composedSpec, hund'] using this) hok
    refine ⟨hw', hext.congr fun a _ => ?_⟩
    rw [linkAsks_iff_pinned hcut hne hmm]
    simp [TermAsks, hmm]

/-! ## The outer row -/

/-- A term's share of the composed expression when its reducer has the value `v`. -/
def ComposedMinMaxTermData.share (ta : ComposedMinMaxTermData) (v : ℚ) : ℚ :=
  ta.sign * ta.scale * v

/-- What the outer row sees of a reducer: its auxiliary, or its value. -/
def ComposedMinMaxTermData.seen (ta : ComposedMinMaxTermData) (indexer : VarIndexer)
    (numRows : Nat) (c : Nat → ℚ) : ℚ :=
  if ta.aggName.isMinMax then c ta.zIdx else ta.value indexer numRows c

theorem addOuterEntry_eval (ta : ComposedMinMaxTermData) (d : ℚ) (inner : LhsTerm) (c : Nat → ℚ)
    (rows : List Nat) : ∀ acc : Form Nat ℚ × ℚ,
    (rows.foldl (addOuterEntry indexer ta d inner) acc).1.eval c -
        (rows.foldl (addOuterEntry indexer ta d inner) acc).2 =
      acc.1.eval c - acc.2 + ta.sign * ta.scale / d *
        (rows.map fun r => termValue r (fun v => c (indexer.get v r)) inner).sum := by
  induction rows with
  | nil => intro acc; simp
  | cons r rows ih =>
    intro acc
    rw [List.foldl_cons, ih, List.map_cons, List.sum_cons]
    unfold addOuterEntry termValue
    cases inner.variableIndex with
    | none => simp only; ring
    | some v =>
      simp only [Form.eval_addColumn]
      ring

theorem addOuterTerms_eval (ta : ComposedMinMaxTermData) (d : ℚ) (c : Nat → ℚ) (rows : List Nat)
    (terms : List LhsTerm) : ∀ acc : Form Nat ℚ × ℚ,
    let out := terms.foldl (fun acc inner => rows.foldl (addOuterEntry indexer ta d inner) acc) acc
    out.1.eval c - out.2 =
      acc.1.eval c - acc.2 + ta.sign * ta.scale / d *
        (rows.map fun r => rowValue terms r fun v => c (indexer.get v r)).sum := by
  induction terms with
  | nil => intro acc; simp [rowValue_nil]
  | cons inner terms ih =>
    intro acc out
    rw [show out = _ from List.foldl_cons .., ih, addOuterEntry_eval]
    simp only [rowValue_cons, List.sum_map_add]
    ring

theorem addOuterTerm_eval (numRows : Nat) (acc : Form Nat ℚ × ℚ) (ta : ComposedMinMaxTermData)
    (c : Nat → ℚ) :
    (addOuterTerm indexer numRows acc ta).1.eval c - (addOuterTerm indexer numRows acc ta).2 =
      acc.1.eval c - acc.2 + ta.share (ta.seen indexer numRows c) := by
  unfold addOuterTerm ComposedMinMaxTermData.share ComposedMinMaxTermData.seen
  cases hmm : ta.aggName.isMinMax with
  | true =>
    simp only [if_true, Form.eval_addColumn]
    ring
  | false =>
    simp only [Bool.false_eq_true, if_false]
    by_cases hempty : ta.aggName = .avg ∧ (ta.rows numRows).length = 0
    · rw [if_pos hempty]
      have : ta.value indexer numRows c = 0 := by
        unfold ComposedMinMaxTermData.value
        rw [hempty.1, List.length_eq_zero_iff.mp hempty.2]
        simp [AggregateName.reduce]
      rw [this]
      ring
    · rw [if_neg hempty, addOuterTerms_eval]
      unfold ComposedMinMaxTermData.value
      cases hname : ta.aggName with
      | max => simp [hname, AggregateName.isMinMax] at hmm
      | min => simp [hname, AggregateName.isMinMax] at hmm
      | sum =>
        simp only [AggregateName.reduce, reduceCtorEq, if_false, div_one]
      | avg =>
        simp only [AggregateName.reduce, if_true, List.length_map]
        ring

variable (indexer) in
theorem outer_eval (numRows : Nat) (terms : List ComposedMinMaxTermData) (c : Nat → ℚ) :
    ∀ acc : Form Nat ℚ × ℚ,
    (terms.foldl (addOuterTerm indexer numRows) acc).1.eval c -
        (terms.foldl (addOuterTerm indexer numRows) acc).2 =
      acc.1.eval c - acc.2 + (terms.map fun t => t.share (t.seen indexer numRows c)).sum := by
  induction terms with
  | nil => intro acc; simp
  | cons t terms ih =>
    intro acc
    rw [List.foldl_cons, ih, addOuterTerm_eval, List.map_cons, List.sum_cons]
    ring

/-! ## The whole clause -/

/-- An easy term is one whose envelope the comparison presses the auxiliary against. -/
def EasyFits (cmp : Comparison) (ta : ComposedMinMaxTermData) : Prop :=
  ta.isEasy = true → ∀ v z, EnvelopeSide (ta.aggName = .max) z v →
    match cmp with
    | .lt | .le => ta.share v ≤ ta.share z
    | .gt | .ge => ta.share z ≤ ta.share v
    | .eq | .ne => False

/-- The value of a composed expression given as evaluated terms. -/
def composedValue (indexer : VarIndexer) (numRows : Nat) (terms : List ComposedMinMaxTermData)
    (a : Nat → ℚ) : ℚ :=
  (terms.map fun t => t.share (t.value indexer numRows a)).sum

/-- The reducer's value lies in the range of its term. -/
theorem termRange_contains_value {ta : ComposedMinMaxTermData}
    (hcut : ∀ r ∈ ta.rows input.numRows, ComposedCutClean indexer ta.innerTerms r)
    (hne : ta.rows input.numRows ≠ []) (hmm : ta.aggName.isMinMax = true)
    (hin : input.InBoxes indexer a) :
    (composedTermRange input ta).Contains (ta.value indexer input.numRows a) := by
  have hext := (extremumOf_iff hcut hne hmm a _).mpr rfl
  have hmem : ta.value indexer input.numRows a ∈
      (composedMembers input indexer ta).map fun m => m.value a := by
    unfold ExtremumOf at hext
    split at hext
    · exact (List.max?_eq_some_iff.mp hext).1
    · exact (List.min?_eq_some_iff.mp hext).1
  obtain ⟨m, hm, hmv⟩ := List.mem_map.mp hmem
  rw [← hmv]
  exact (composedMembers_contains hcut hin m hm).2

/-- Sums of shares compare as their terms do. -/
theorem sum_shares_le {terms : List ComposedMinMaxTermData} {f g : ComposedMinMaxTermData → ℚ}
    (h : ∀ t ∈ terms, t.share (f t) ≤ t.share (g t)) :
    (terms.map fun t => t.share (f t)).sum ≤ (terms.map fun t => t.share (g t)).sum :=
  List.sum_le_sum h

theorem map_same {before terms : List ComposedMinMaxTermData} {β : Type}
    {f : ComposedMinMaxTermData → β}
    (h : List.Forall₂ (fun t t' : ComposedMinMaxTermData => t' = { t with zIdx := t'.zIdx }) before
      terms) (hf : ∀ t z, f { t with zIdx := z } = f t) : terms.map f = before.map f := by
  induction h with
  | nil => rfl
  | cons hx _ ih => rw [List.map_cons, List.map_cons, ih, hx, hf]

theorem composedValue_same {before terms : List ComposedMinMaxTermData}
    (h : List.Forall₂ (fun t t' : ComposedMinMaxTermData => t' = { t with zIdx := t'.zIdx }) before
      terms) (numRows : Nat) (a : Nat → ℚ) :
    composedValue indexer numRows terms a = composedValue indexer numRows before a :=
  congrArg List.sum (map_same h fun _ _ => rfl)

theorem forall_same {before terms : List ComposedMinMaxTermData} {p : ComposedMinMaxTermData → Prop}
    (h : List.Forall₂ (fun t t' : ComposedMinMaxTermData => t' = { t with zIdx := t'.zIdx }) before
      terms) (hp : ∀ t z, p t → p { t with zIdx := z }) (hb : ∀ t ∈ before, p t) :
    ∀ t ∈ terms, p t := by
  induction h with
  | nil => simp
  | cons hx _ ih =>
    intro t ht
    rcases List.mem_cons.mp ht with rfl | ht
    · rw [hx]
      exact hp _ _ (hb _ List.mem_cons_self)
    · exact ih (fun t ht => hb t (List.mem_cons_of_mem _ ht)) t ht

/-- The sense of the outer row is the comparison with its strictness dropped. -/
theorem outerSense_holds {cmp : Comparison} {sense : Sense} (h : composedOuterSense cmp = .ok sense)
    (v rhs : ℚ) : sense.Holds v rhs ↔ cmp.relax.Holds v (.fin rhs) := by
  cases cmp with
  | ne => cases h
  | _ =>
    cases h
    simp [Sense.Holds, Comparison.relax]

/-- A term is seen at its value, unless it is easy and on the envelope's side of it. -/
theorem seen_eq_or_easy {cmp : Comparison} {t : ComposedMinMaxTermData} {value seen : ℚ}
    (heasy : t.aggName.isMinMax = true → EasyFits cmp t)
    (hpin : t.aggName.isMinMax = true → Pinned t value seen)
    (hplain : t.aggName.isMinMax = false → seen = value) :
    seen = value ∨ (EasyFits cmp t ∧ t.isEasy = true ∧
      EnvelopeSide (t.aggName = .max) seen value) := by
  cases hmm : t.aggName.isMinMax with
  | false => exact Or.inl (hplain hmm)
  | true =>
    have hp := hpin hmm
    cases he : t.isEasy with
    | false => exact Or.inl (hp.exact_of_hard he)
    | true => exact Or.inr ⟨heasy hmm, rfl, hp.envelope⟩

/-- What the outer row accepts over pinned auxiliaries it accepts over the reducers themselves. -/
theorem outer_sound {cmp : Comparison} {sense : Sense} {value : ComposedMinMaxTermData → ℚ}
    (seen : ComposedMinMaxTermData → ℚ) (hsense : composedOuterSense cmp = .ok sense)
    {terms : List ComposedMinMaxTermData} {rhs : ℚ}
    (heasy : ∀ t ∈ terms, t.aggName.isMinMax = true → EasyFits cmp t)
    (hpin : ∀ t ∈ terms, t.aggName.isMinMax = true → Pinned t (value t) (seen t))
    (hplain : ∀ t ∈ terms, t.aggName.isMinMax = false → seen t = value t)
    (h : sense.Holds ((terms.map fun t => t.share (seen t)).sum) rhs) :
    cmp.relax.Holds ((terms.map fun t => t.share (value t)).sum) (.fin rhs) := by
  rw [outerSense_holds hsense] at h
  have hcase := fun t ht => seen_eq_or_easy (heasy t ht) (hpin t ht) (hplain t ht)
  -- each share moves the way the comparison tolerates
  have hdown : (cmp = .lt ∨ cmp = .le) →
      ∀ t ∈ terms, t.share (value t) ≤ t.share (seen t) := by
    intro hc t ht
    rcases hcase t ht with heq | ⟨hfit, he, henv⟩
    · rw [heq]
    · have := hfit he _ _ henv
      rcases hc with rfl | rfl <;> exact this
  have hup : (cmp = .gt ∨ cmp = .ge) →
      ∀ t ∈ terms, t.share (seen t) ≤ t.share (value t) := by
    intro hc t ht
    rcases hcase t ht with heq | ⟨hfit, he, henv⟩
    · rw [heq]
    · have := hfit he _ _ henv
      rcases hc with rfl | rfl <;> exact this
  cases cmp with
  | lt =>
    simp only [Comparison.relax, Comparison.holds_le, Bound.fin_le_fin] at h ⊢
    exact (sum_shares_le (hdown (Or.inl rfl))).trans h
  | le =>
    simp only [Comparison.relax, Comparison.holds_le, Bound.fin_le_fin] at h ⊢
    exact (sum_shares_le (hdown (Or.inr rfl))).trans h
  | gt =>
    simp only [Comparison.relax, Comparison.holds_ge, Bound.fin_le_fin] at h ⊢
    exact h.trans (sum_shares_le (hup (Or.inl rfl)))
  | ge =>
    simp only [Comparison.relax, Comparison.holds_ge, Bound.fin_le_fin] at h ⊢
    exact h.trans (sum_shares_le (hup (Or.inr rfl)))
  | eq =>
    have hsame : (terms.map fun t => t.share (seen t)) = terms.map fun t => t.share (value t) := by
      refine List.map_congr_left fun t ht => ?_
      rcases hcase t ht with heq | ⟨hfit, he, henv⟩
      · rw [heq]
      · exact (hfit he _ _ henv).elim
    rwa [hsame] at h
  | ne => cases hsense

/-- The auxiliaries after they are emitted: every accepted assignment pins them, and every assignment
of the input can be completed by the values of their reducers. -/
structure AuxiliariesPinned (indexer : VarIndexer) (input linked : SolverInput)
    (before terms : List ComposedMinMaxTermData) : Prop where
  wellScoped : linked.WellScoped indexer
  width_le : input.width indexer ≤ linked.width indexer
  same : List.Forall₂ (fun t t' => t' = { t with zIdx := t'.zIdx }) before terms
  column_lt : ∀ t ∈ terms, t.aggName.isMinMax = true → t.zIdx < linked.width indexer
  pinned : ∀ b, linked.Holds indexer b → input.Holds indexer b ∧
    ∀ t ∈ terms, t.aggName.isMinMax = true →
      Pinned t (t.value indexer input.numRows b) (b t.zIdx)
  completes : ∀ a, input.Holds indexer a → ∃ b, AgreeBelow (input.width indexer) b a ∧
    linked.Holds indexer b ∧ ∀ t ∈ terms, t.aggName.isMinMax = true →
      b t.zIdx = t.value indexer input.numRows a

/-- **`EmitComposedMinMaxAuxiliaries`.** -/
theorem emitComposedMinMaxAuxiliaries_spec {linked : SolverInput}
    {terms ts : List ComposedMinMaxTermData} {varNames : List String}
    {policy : NativeConstructPolicy} (hw : input.WellScoped indexer)
    (hready : ∀ t ∈ terms, t.aggName.isMinMax = true → t.rows input.numRows ≠ [] ∧
      ∀ r ∈ t.rows input.numRows, ComposedCutClean indexer t.innerTerms r)
    (hok : emitComposedMinMaxAuxiliaries input indexer terms varNames policy = .ok (linked, ts)) :
    AuxiliariesPinned indexer input linked terms ts := by
  unfold emitComposedMinMaxAuxiliaries at hok
  have halloc := allocateComposed_spec terms input hw
  set allocated := (allocateComposed indexer input terms).1
  set ts' := (allocateComposed indexer input terms).2
  have hnr := hw.numRows_eq
  have hready' : ∀ t ∈ ts', t.aggName.isMinMax = true → t.rows input.numRows ≠ [] ∧
      ∀ r ∈ t.rows input.numRows, ComposedCutClean indexer t.innerTerms r :=
    forall_same halloc.same (fun _ _ h => h) hready
  simp only at hok
  cases hlinks : ts'.foldlM (emitComposedTerm input indexer varNames policy) allocated with
  | error e => rw [hlinks] at hok; cases hok
  | ok out =>
    rw [hlinks] at hok
    simp only [Except.ok.injEq, Prod.mk.injEq] at hok
    obtain ⟨rfl, rfl⟩ := hok
    obtain ⟨⟨hwL, -, hleL⟩, hext⟩ := System.Extends.foldlM (fun s => s.system indexer)
      (emitComposedTerm input indexer varNames policy) (allocated.width indexer)
      (fun s => s.WellScoped indexer ∧ (∀ a, s.Holds indexer a → input.InBoxes indexer a) ∧
        allocated.width indexer ≤ s.width indexer)
      (TermAsks indexer input)
      (fun s hs => ⟨hs.2.2, hs.1.readsBelow⟩) ts'
      (fun t ht => termAsks_readsBelow hnr (Nat.le_add_right _ _) (halloc.column_lt t ht))
      (fun s s' t ht hs hs' => by
        obtain ⟨hw', hext⟩ := emitComposedTerm_spec hnr hs.1 hs.2.1
          (fun hmm => ⟨(halloc.column_lt t ht hmm).trans_le hs.2.2, (hready' t ht hmm).2,
            (hready' t ht hmm).1⟩) hs'
        exact ⟨⟨hw', fun a ha => hs.2.1 a (hext.holds ha).1, hs.2.2.trans hext.width_le⟩, hext⟩)
      allocated out
      ⟨halloc.wellScoped, fun a ha => ((halloc.holds_iff a).mp ha).1.inBoxes, le_rfl⟩ hlinks
    refine ⟨hwL, halloc.width_le.trans hleL, halloc.same,
      fun t ht hmm => (halloc.column_lt t ht hmm).trans_le hleL, fun b hb => ?_, fun a ha => ?_⟩
    · obtain ⟨hbA, hasks⟩ := hext.holds hb
      exact ⟨((halloc.holds_iff b).mp hbA).1, hasks⟩
    · obtain ⟨b, hba, hbz⟩ := halloc.assign a fun t => t.value indexer input.numRows a
      have hbA : allocated.Holds indexer b := by
        refine (halloc.holds_iff b).mpr ⟨hw.readsBelow a b hba.symm ha, fun t ht hmm => ?_⟩
        rw [hbz t ht hmm]
        exact admits_of_contains (termRange_contains_value (hready' t ht hmm).2
          (hready' t ht hmm).1 hmm ha.inBoxes)
      have hasks : ∀ t ∈ ts', TermAsks indexer input t b := by
        intro t ht hmm
        rw [value_congr (Nat.le_add_right _ _) hnr.le hba, hbz t ht hmm]
        exact ⟨by unfold EnvelopeSide; split <;> exact le_rfl, fun _ => rfl⟩
      obtain ⟨c, hcb, hc⟩ := (hext.completes_iff b).mpr ⟨hbA, hasks⟩
      refine ⟨c, (hcb.mono halloc.width_le).trans hba, hc, fun t ht hmm => ?_⟩
      rw [hcb _ (halloc.column_lt t ht hmm), hbz t ht hmm]

/-- **`LinearizeComposedMinMaxConstraint`** asks that the composed expression meets the comparison
with its strictness dropped. -/
theorem linearizeComposed_spec {out : SolverInput} {terms : List ComposedMinMaxTermData} {rhs : ℚ}
    {cmp : Comparison} {varNames : List String} {policy : NativeConstructPolicy}
    (hw : input.WellScoped indexer)
    (hready : ∀ t ∈ terms, t.aggName.isMinMax = true → t.rows input.numRows ≠ [] ∧
      ∀ r ∈ t.rows input.numRows, ComposedCutClean indexer t.innerTerms r)
    (heasy : ∀ t ∈ terms, t.aggName.isMinMax = true → EasyFits cmp t)
    (hok : linearizeComposedMinMaxConstraint input indexer terms rhs cmp varNames policy = .ok out) :
    System.Extends (input.system indexer) (out.system indexer) fun a =>
      cmp.relax.Holds (composedValue indexer input.numRows terms a) (.fin rhs) := by
  unfold linearizeComposedMinMaxConstraint at hok
  have hnr := hw.numRows_eq
  cases hlinks : emitComposedMinMaxAuxiliaries input indexer terms varNames policy with
  | error e => rw [hlinks] at hok; cases hok
  | ok pair =>
    obtain ⟨linked, ts⟩ := pair
    rw [hlinks] at hok
    simp only at hok
    have haux := emitComposedMinMaxAuxiliaries_spec hw hready hlinks
    have heasy' : ∀ t ∈ ts, t.aggName.isMinMax = true → EasyFits cmp t :=
      forall_same haux.same (fun _ _ h => h) heasy
    set outer := ts.foldl (addOuterTerm indexer input.numRows) ([], rhs) with houter
    -- the outer row compares the terms as it sees them with the bound
    have hrow : ∀ sense c, (Row.Holds ⟨outer.1.filter fun t => t.2 ≠ 0, sense, outer.2⟩ c ↔
        sense.Holds ((ts.map fun t => t.share (t.seen indexer input.numRows c)).sum) rhs) := by
      intro sense c
      have hsum := outer_eval indexer input.numRows ts c ([], rhs)
      rw [← houter, Form.eval_nil, zero_sub] at hsum
      unfold Row.Holds
      simp only
      rw [Form.eval_filter_of_zero _ _ _ fun t _ ht => by simpa using ht]
      cases sense <;> simp only [Sense.Holds] <;> constructor <;> intro h <;> linarith
    cases hsense : composedOuterSense cmp with
    | error e => rw [hsense] at hok; cases hok
    | ok sense =>
      rw [hsense] at hok
      simp only [Except.ok.injEq] at hok
      subst hok
      refine ⟨haux.width_le, fun a => ?_⟩
      have hvalue : ∀ b, AgreeBelow (input.width indexer) b a → ∀ t : ComposedMinMaxTermData,
          t.value indexer input.numRows b = t.value indexer input.numRows a := fun b hb t =>
        value_congr (Nat.le_add_right _ _) hnr.le hb
      constructor
      · rintro ⟨b, hba, hb⟩
        obtain ⟨hbL, hbrow⟩ := (holds_pushRow _).mp hb
        obtain ⟨hb0, hpin⟩ := haux.pinned b hbL
        refine ⟨hw.readsBelow b a hba hb0, ?_⟩
        rw [← composedValue_same haux.same]
        refine outer_sound (fun t => t.seen indexer input.numRows b) hsense heasy'
          (fun t ht hmm => ?_) (fun t _ hmm => ?_) ((hrow sense b).mp hbrow)
        · have hp := hpin t ht hmm
          rw [hvalue b hba] at hp
          simpa [ComposedMinMaxTermData.seen, hmm] using hp
        · simp [ComposedMinMaxTermData.seen, hmm, hvalue b hba]
      · rintro ⟨ha, hcmp⟩
        obtain ⟨c, hca, hc, hcz⟩ := haux.completes a ha
        refine ⟨c, hca, (holds_pushRow _).mpr ⟨hc, (hrow sense c).mpr ?_⟩⟩
        have hseen : (ts.map fun t => t.share (t.seen indexer input.numRows c)) =
            ts.map fun t => t.share (t.value indexer input.numRows a) := by
          refine List.map_congr_left fun t ht => ?_
          unfold ComposedMinMaxTermData.seen
          split
          · rename_i hmm
            rw [hcz t ht hmm]
          · rw [hvalue c hca]
        rw [hseen, outerSense_holds hsense]
        rwa [← composedValue_same haux.same] at hcmp

/-! ## From the comparison to its rows -/

/-- The reducers of an additive expression. -/
def AggregateSum.reducers : AggregateSum → List Aggregate
  | .reducer _ agg => [agg]
  | .constant _ => []
  | .add l r => l.reducers ++ r.reducers
  | .sub l r => l.reducers ++ r.reducers
  | .neg e => e.reducers

/-- What the walk makes of one reducer. -/
def IsTermOf (cmp : Comparison) (lhs : AggregateSum) (t : ComposedMinMaxTerm) : Prop :=
  (∃ agg ∈ lhs.reducers, t.aggName = agg.name ∧ t.innerTerms = agg.child ∧ t.filter = agg.filter) ∧
    t.isEasy = composedIsEasy t.aggName t.sign (scaleSignAtPlanTime t.scale)
      (cmp = .lt || cmp = .le) (cmp = .eq)

variable (indexer) in
/-- The walk keeps the value of the expression and classifies every reducer. -/
theorem walkComposedLhs_spec {cmp : Comparison} (numRows : Nat) (a : Nat → ℚ)
    (lhs : AggregateSum) : ∀ (sign : ℤ) (terms : List ComposedMinMaxTerm),
    walkComposedLhs (cmp = .lt || cmp = .le) (cmp = .eq) lhs sign = .ok terms →
      composedValue indexer numRows (terms.map evaluateComposedTerm) a =
          sign * lhs.value indexer numRows a ∧
        ∀ t ∈ terms, IsTermOf cmp lhs t := by
  induction lhs with
  | reducer scale agg =>
    intro sign terms h
    obtain rfl := Except.ok.inj h
    constructor
    · simp only [composedValue, List.map_cons, List.map_nil, List.sum_cons, List.sum_nil, add_zero,
        AggregateSum.value, ComposedMinMaxTermData.share, evaluateComposedTerm]
      rw [mul_assoc]
      rfl
    · intro t ht
      rw [List.mem_singleton.mp ht]
      exact ⟨⟨agg, by simp [AggregateSum.reducers], rfl, rfl, rfl⟩, rfl⟩
  | constant k =>
    intro sign terms h
    unfold walkComposedLhs at h
    split at h
    · rename_i hk
      obtain rfl := Except.ok.inj h
      simp [composedValue, AggregateSum.value, hk]
    · cases h
  | neg e ih =>
    intro sign terms h
    obtain ⟨hv, ht⟩ := ih _ _ h
    refine ⟨?_, ht⟩
    rw [hv, AggregateSum.value]
    push_cast
    ring
  | add l r ihl ihr =>
    intro sign terms h
    unfold walkComposedLhs at h
    split at h
    · cases h
    rename_i ls hls
    split at h
    · cases h
    rename_i rs hrs
    obtain rfl := Except.ok.inj h
    obtain ⟨hvl, htl⟩ := ihl _ _ hls
    obtain ⟨hvr, htr⟩ := ihr _ _ hrs
    constructor
    · unfold composedValue at hvl hvr ⊢
      rw [List.map_append, List.map_append, List.sum_append, hvl, hvr, AggregateSum.value]
      ring
    · intro t ht
      rcases List.mem_append.mp ht with ht | ht
      · obtain ⟨⟨agg, hagg, h⟩, he⟩ := htl t ht
        exact ⟨⟨agg, List.mem_append_left _ hagg, h⟩, he⟩
      · obtain ⟨⟨agg, hagg, h⟩, he⟩ := htr t ht
        exact ⟨⟨agg, List.mem_append_right _ hagg, h⟩, he⟩
  | sub l r ihl ihr =>
    intro sign terms h
    unfold walkComposedLhs at h
    split at h
    · cases h
    rename_i ls hls
    split at h
    · cases h
    rename_i rs hrs
    obtain rfl := Except.ok.inj h
    obtain ⟨hvl, htl⟩ := ihl _ _ hls
    obtain ⟨hvr, htr⟩ := ihr _ _ hrs
    constructor
    · unfold composedValue at hvl hvr ⊢
      rw [List.map_append, List.map_append, List.sum_append, hvl, hvr, AggregateSum.value]
      push_cast
      ring
    · intro t ht
      rcases List.mem_append.mp ht with ht | ht
      · obtain ⟨⟨agg, hagg, h⟩, he⟩ := htl t ht
        exact ⟨⟨agg, List.mem_append_left _ hagg, h⟩, he⟩
      · obtain ⟨⟨agg, hagg, h⟩, he⟩ := htr t ht
        exact ⟨⟨agg, List.mem_append_right _ hagg, h⟩, he⟩

/-- The plan-time classification fits the comparison. -/
theorem composedIsEasy_fits {cmp : Comparison} {t : ComposedMinMaxTerm}
    (h : t.isEasy = composedIsEasy t.aggName t.sign (scaleSignAtPlanTime t.scale)
      (cmp = .lt || cmp = .le) (cmp = .eq)) (hne : cmp ≠ .ne) :
    EasyFits cmp (evaluateComposedTerm t) := by
  intro heasy v z henv
  have heasy : composedIsEasy t.aggName t.sign (scaleSignAtPlanTime t.scale)
      (cmp = .lt || cmp = .le) (cmp = .eq) = true := h ▸ heasy
  have hmax : EnvelopeSide (t.aggName = .max) z v := henv
  unfold composedIsEasy at heasy
  -- the coefficient of the term has the sign the classification used
  have hcoef : scaleSignAtPlanTime t.scale ≠ 0 →
      if t.sign * scaleSignAtPlanTime t.scale > 0 then
        0 ≤ (t.sign : ℚ) * scaleFactorValue t.scale
      else (t.sign : ℚ) * scaleFactorValue t.scale ≤ 0 := by
    intro h0
    rcases (scaleSign_spec t.scale).resolve_left h0 with ⟨hs, hpos⟩ | ⟨hs, hneg⟩
    · rw [hs, mul_one]
      split
      · rename_i hsign
        have : (0 : ℚ) < t.sign := by exact_mod_cast hsign
        positivity
      · rename_i hsign
        have : (t.sign : ℚ) ≤ 0 := by exact_mod_cast not_lt.mp hsign
        exact mul_nonpos_of_nonpos_of_nonneg this hpos
    · rw [hs]
      split
      · rename_i hsign
        have : (t.sign : ℚ) ≤ 0 := by
          have : t.sign ≤ 0 := by linarith
          exact_mod_cast this
        exact mul_nonneg_of_nonpos_of_nonpos this hneg.le
      · rename_i hsign
        have : (0 : ℚ) ≤ t.sign := by
          have : 0 ≤ t.sign := by linarith
          exact_mod_cast this
        exact mul_nonpos_of_nonneg_of_nonpos this hneg.le
  have hshare : ∀ v, (evaluateComposedTerm t).share v = t.sign * scaleFactorValue t.scale * v :=
    fun _ => rfl
  simp only [hshare]
  set k := (t.sign : ℚ) * scaleFactorValue t.scale
  by_cases h0 : scaleSignAtPlanTime t.scale = 0
  · cases cmp <;> simp [h0] at heasy
  have hcoef := hcoef h0
  unfold EnvelopeSide at hmax
  have hmono : ∀ {x y : ℚ}, 0 ≤ k → x ≤ y → k * x ≤ k * y := fun hk hxy =>
    mul_le_mul_of_nonneg_left hxy hk
  have hanti : ∀ {x y : ℚ}, k ≤ 0 → x ≤ y → k * y ≤ k * x := fun hk hxy =>
    mul_le_mul_of_nonpos_left hxy hk
  by_cases hsign : t.sign * scaleSignAtPlanTime t.scale > 0
  · rw [if_pos hsign] at hcoef
    cases cmp with
    | ne => exact absurd rfl hne
    | eq => simp at heasy
    | lt | le =>
      have hm : t.aggName = .max := by simpa [h0, hsign] using heasy
      exact hmono hcoef (by simpa [hm] using hmax)
    | gt | ge =>
      have hm : t.aggName = .min := by simpa [h0, hsign] using heasy
      exact hmono hcoef (by simpa [hm] using hmax)
  · rw [if_neg hsign] at hcoef
    cases cmp with
    | ne => exact absurd rfl hne
    | eq => simp at heasy
    | lt | le =>
      have hm : t.aggName = .min := by simpa [h0, hsign] using heasy
      exact hanti hcoef (by simpa [hm] using hmax)
    | gt | ge =>
      have hm : t.aggName = .max := by simpa [h0, hsign] using heasy
      exact hanti hcoef (by simpa [hm] using hmax)

/-- A list of evaluated terms has a row in each of them. -/
theorem evaluateComposedClause_ok {what : String} {numRows : Nat} {terms : List ComposedMinMaxTerm}
    {ds : List ComposedMinMaxTermData} (h : evaluateComposedClause what numRows terms = .ok ds) :
    ds = terms.map evaluateComposedTerm ∧ ∀ d ∈ ds, d.rows numRows ≠ [] := by
  unfold evaluateComposedClause at h
  simp only at h
  split at h
  · cases h
  split at h
  · cases h
  rename_i hmm
  split at h
  · cases h
  rename_i hplain
  obtain rfl := Except.ok.inj h
  refine ⟨rfl, fun d hd hempty => ?_⟩
  cases hk : d.aggName.isMinMax with
  | true => exact absurd (List.find?_eq_none.mp hmm d hd) (by simp [hk, hempty])
  | false => exact absurd (List.find?_eq_none.mp hplain d hd) (by simp [hk, hempty])

/-- No coefficient of a MIN/MAX reducer is dropped from its rows without being zero. -/
def ReducersClean (indexer : VarIndexer) (numRows : Nat) (lhs : AggregateSum) : Prop :=
  ∀ agg ∈ lhs.reducers, agg.name.isMinMax = true → ∀ r ∈ filteredRows agg.filter numRows,
    ComposedCutClean indexer agg.child r

/-- **The lowered clause** asks the comparison of the composed expression, its strictness
dropped. -/
theorem lowerComposedConstraint_spec {out : SolverInput} {lhs : AggregateSum} {cmp : Comparison}
    {rhs : ℚ} {varNames : List String} {policy : NativeConstructPolicy}
    (hw : input.WellScoped indexer) (hclean : ReducersClean indexer input.numRows lhs)
    (hok : lowerComposedConstraint input indexer lhs cmp rhs varNames policy = .ok out) :
    System.Extends (input.system indexer) (out.system indexer) fun a =>
      cmp.relax.Holds (lhs.value indexer input.numRows a) (.fin rhs) := by
  unfold lowerComposedConstraint composedTerms at hok
  by_cases hne : cmp = .ne
  · simp [hne] at hok
  rw [if_neg hne] at hok
  cases hwalk : walkComposedLhs (cmp = .lt || cmp = .le) (cmp = .eq) lhs 1 with
  | error e => rw [hwalk] at hok; cases hok
  | ok terms =>
    rw [hwalk] at hok
    simp only at hok
    cases hev : evaluateComposedTerms input.numRows terms with
    | error e => rw [hev] at hok; cases hok
    | ok ds =>
      rw [hev] at hok
      obtain ⟨rfl, hrows⟩ := evaluateComposedClause_ok hev
      have hterms := fun a => walkComposedLhs_spec indexer input.numRows a lhs 1 terms
        hwalk
      refine (linearizeComposed_spec hw (fun d hd hmm => ⟨hrows d hd, ?_⟩) (fun d hd _ => ?_)
        hok).congr fun a _ => ?_
      · obtain ⟨t, ht, rfl⟩ := List.mem_map.mp hd
        obtain ⟨⟨agg, hagg, hname, hinner, hfilter⟩, -⟩ := (hterms fun _ => 0).2 t ht
        intro r hr
        have hr' : r ∈ filteredRows agg.filter input.numRows := hfilter ▸ hr
        have hmm' : t.aggName.isMinMax = true := hmm
        have := hclean agg hagg (hname ▸ hmm') r hr'
        rwa [← hinner] at this
      · obtain ⟨t, ht, rfl⟩ := List.mem_map.mp hd
        exact composedIsEasy_fits ((hterms fun _ => 0).2 t ht).2 hne
      · rw [(hterms a).1]
        simp

/-- **A composed MIN/MAX comparison is lowered exactly, unless it is strict and its two sides
meet.** -/
theorem lowerComposedConstraint_exact_iff {out : SolverInput} {lhs : AggregateSum}
    {cmp : Comparison} {rhs : ℚ} {varNames : List String} {policy : NativeConstructPolicy}
    (hw : input.WellScoped indexer) (hclean : ReducersClean indexer input.numRows lhs)
    (hok : lowerComposedConstraint input indexer lhs cmp rhs varNames policy = .ok out)
    (ha : input.Holds indexer a) :
    ((∃ b, AgreeBelow (input.width indexer) b a ∧ out.Holds indexer b) ↔
        cmp.Holds (lhs.value indexer input.numRows a) (.fin rhs)) ↔
      (cmp = .lt ∨ cmp = .gt → lhs.value indexer input.numRows a ≠ rhs) := by
  have hext := (lowerComposedConstraint_spec hw hclean hok).completes_iff a
  have hex : (∃ b, AgreeBelow (input.width indexer) b a ∧ out.Holds indexer b) ↔
      cmp.relax.Holds (lhs.value indexer input.numRows a) (.fin rhs) :=
    hext.trans (and_iff_right ha)
  rw [hex]
  cases cmp with
  | lt =>
    simp only [Comparison.relax, Comparison.holds_le, Comparison.holds_lt, Bound.fin_le_fin,
      Bound.fin_lt_fin, true_or, forall_const]
    constructor
    · intro h heq
      exact absurd (h.mp heq.le) (by simp [heq])
    · intro hne
      exact ⟨fun h => lt_of_le_of_ne h hne, le_of_lt⟩
  | gt =>
    simp only [Comparison.relax, Comparison.holds_ge, Comparison.holds_gt, Bound.fin_le_fin,
      Bound.fin_lt_fin, or_true, forall_const]
    constructor
    · intro h heq
      exact absurd (h.mp heq.ge) (by simp [heq])
    · intro hne
      exact ⟨fun h => lt_of_le_of_ne h hne.symm, le_of_lt⟩
  | le | eq | ne | ge => simp [Comparison.relax]

/-- One row with two INTEGER variables `x` and `y` over `[0, 10]`. -/
def twoIntegers : SolverInput where
  numRows := 1
  variableTypes := [.integer, .integer]
  lowerBounds := [0, 0]
  upperBounds := [10, 10]

/-- `SUM(x) + MAX(y)`. -/
def sumPlusMax : AggregateSum :=
  .add (.reducer none { name := .sum, child := [{ variableIndex := some 0, rowCoefficients := fun _ => 1, reduction := .sum }] })
    (.reducer none { name := .max, child := [{ variableIndex := some 1, rowCoefficients := fun _ => 1 }] })

theorem twoIntegers_wellScoped : twoIntegers.WellScoped (.rowScoped 1 1) :=
  ⟨rfl, fun r hr => absurd hr (by simp [twoIntegers]), fun r hr => absurd hr (by simp [twoIntegers]),
    fun r hr => absurd hr (by simp [twoIntegers])⟩

theorem sumPlusMax_clean : ReducersClean (.rowScoped 1 1) 1 sumPlusMax := by
  intro agg hagg hmm r _
  simp only [sumPlusMax, AggregateSum.reducers, List.cons_append, List.nil_append, List.mem_cons,
    List.not_mem_nil, or_false] at hagg
  rcases hagg with rfl | rfl
  · cases hmm
  · constructor
    · intro t ht
      rw [List.mem_singleton.mp ht]
      right
      norm_num [coefficientCut]
    · intro t ht
      rw [List.mem_singleton.mp ht]
      right
      norm_num [coefficientCut]

/-- `x = 0` and `y = 1` lie in the boxes. -/
theorem twoIntegers_holds : twoIntegers.Holds (.rowScoped 1 1) (fun c => c) := by
  refine ⟨fun v box hv row hrow => ?_, fun i b hb => absurd hb (by simp [twoIntegers]),
    fun r hr => absurd hr (by simp [twoIntegers]), fun r hr => absurd hr (by simp [twoIntegers]),
    fun r hr => absurd hr (by simp [twoIntegers])⟩
  obtain rfl : row = 0 := Nat.lt_one_iff.mp hrow
  match v with
  | 0 =>
    obtain rfl := Option.some.inj hv
    exact ⟨Or.inr (by decide +kernel), Or.inr (by decide +kernel), fun _ => rfl⟩
  | 1 =>
    obtain rfl := Option.some.inj hv
    exact ⟨Or.inr (by decide +kernel), Or.inr (by decide +kernel), fun _ => rfl⟩
  | v + 2 => cases hv

theorem sumPlusMax_lowers (rhs : ℚ) : ∃ out,
    lowerComposedConstraint twoIntegers (.rowScoped 1 1) sumPlusMax .lt rhs [] {} = .ok out :=
  ⟨_, rfl⟩

theorem lowerComposedConstraint_exact_iff_sumPlusMax :
    ∃ out, lowerComposedConstraint twoIntegers (.rowScoped 1 1) sumPlusMax .lt 2 [] {} = .ok out ∧
      (((∃ b, AgreeBelow (twoIntegers.width (.rowScoped 1 1)) b (fun c => (c : ℚ)) ∧
          out.Holds (.rowScoped 1 1) b) ↔
        Comparison.lt.Holds (sumPlusMax.value (.rowScoped 1 1) 1 fun c => c) (.fin 2)) ↔
      (Comparison.lt = .lt ∨ Comparison.lt = .gt →
        sumPlusMax.value (.rowScoped 1 1) 1 (fun c => c) ≠ 2)) := by
  obtain ⟨out, hok⟩ := sumPlusMax_lowers 2
  exact ⟨out, hok, lowerComposedConstraint_exact_iff twoIntegers_wellScoped sumPlusMax_clean hok
    twoIntegers_holds⟩

/-- `SUM(x) + MAX(y) < 1` is lowered to rows that accept `x = 0`, `y = 1`. -/
theorem strict_sumPlusMax_accepts_equality :
    ∃ out, lowerComposedConstraint twoIntegers (.rowScoped 1 1) sumPlusMax .lt 1 [] {} = .ok out ∧
      (∃ b, AgreeBelow (twoIntegers.width (.rowScoped 1 1)) b (fun c => (c : ℚ)) ∧
        out.Holds (.rowScoped 1 1) b) ∧
      ¬ Comparison.lt.Holds (sumPlusMax.value (.rowScoped 1 1) 1 fun c => c) (.fin 1) := by
  have hvalue : sumPlusMax.value (.rowScoped 1 1) 1 (fun c => c) = 1 := by decide +kernel
  obtain ⟨out, hok⟩ := sumPlusMax_lowers 1
  refine ⟨out, hok, ?_, by simp [hvalue]⟩
  have hext := lowerComposedConstraint_spec twoIntegers_wellScoped sumPlusMax_clean hok
  refine (hext.completes_iff _).mpr ⟨twoIntegers_holds, ?_⟩
  show Comparison.le.Holds (sumPlusMax.value (.rowScoped 1 1) 1 fun c => c) (.fin 1)
  simp [hvalue]

end Decidb
