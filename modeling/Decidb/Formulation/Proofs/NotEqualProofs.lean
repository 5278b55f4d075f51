import Decidb.Formulation.NotEqual
import Decidb.Formulation.Proofs.AggregateRowProofs
import Decidb.Formulation.Proofs.LowerConstructsProofs

/-!
# The conditional rows of a `<>`

Every conditional row the pass emits is one-sided, on a zero-one condition of a fresh binary, and over
columns there are: what the lowering of conditional rows takes for granted.
-/

namespace Decidb

open Linear

variable {indexer : VarIndexer} {input : SolverInput}

/-! ## Columns of an accumulated row -/

theorem mem_flushDense {touched : List Nat} : ∀ {dense : Nat → ℚ} {t : Nat × ℚ},
    t ∈ SparseCoeffAccumulator.flushDense touched dense → t.1 ∈ touched := by
  induction touched with
  | nil =>
    intro dense t ht
    cases ht
  | cons idx touched ih =>
    intro dense t ht
    unfold SparseCoeffAccumulator.flushDense at ht
    simp only at ht
    split at ht
    · rcases List.mem_cons.mp ht with rfl | ht
      · exact List.mem_cons_self
      · exact List.mem_cons_of_mem _ (ih ht)
    · exact List.mem_cons_of_mem _ (ih ht)

theorem mem_mergeRuns {pairs : List (Nat × ℚ)} : ∀ {run t : Nat × ℚ},
    t ∈ SparseCoeffAccumulator.mergeRuns run pairs → t.1 ∈ (run :: pairs).map Prod.fst := by
  induction pairs with
  | nil =>
    intro run t ht
    unfold SparseCoeffAccumulator.mergeRuns at ht
    split at ht
    · rw [List.mem_singleton.mp ht]
      exact List.mem_cons_self
    · cases ht
  | cons p pairs ih =>
    intro run t ht
    unfold SparseCoeffAccumulator.mergeRuns at ht
    rw [List.map_cons]
    split at ht
    · rename_i hp
      have hmem := ih ht
      rw [List.map_cons, ← hp, ← List.map_cons] at hmem
      exact List.mem_cons_of_mem _ hmem
    · split at ht
      · rcases List.mem_cons.mp ht with rfl | ht
        · exact List.mem_cons_self
        · exact List.mem_cons_of_mem _ (ih ht)
      · exact List.mem_cons_of_mem _ (ih ht)

/-- An accumulator holds only columns it was given. -/
theorem mem_accumulated (useDense : Bool) {entries : List (Nat × ℚ)} {t : Nat × ℚ}
    (ht : t ∈ (entries.foldl (fun acc e => SparseCoeffAccumulator.add acc e.1 e.2)
      ({ useDense } : SparseCoeffAccumulator)).flush) : t.1 ∈ entries.map Prod.fst := by
  have hfold : ∀ acc : SparseCoeffAccumulator,
      (∀ c ∈ (entries.foldl (fun acc e => acc.add e.1 e.2) acc).touched,
        c ∈ acc.touched ∨ c ∈ entries.map Prod.fst) ∧
      ∀ c ∈ (entries.foldl (fun acc e => acc.add e.1 e.2) acc).pairs.map Prod.fst,
        c ∈ acc.pairs.map Prod.fst ∨ c ∈ entries.map Prod.fst := by
    clear ht
    induction entries with
    | nil => exact fun acc => ⟨fun c => Or.inl, fun c => Or.inl⟩
    | cons e entries ih =>
      intro acc
      obtain ⟨htouched, hpairs⟩ := ih (acc.add e.1 e.2)
      rw [List.map_cons]
      refine ⟨fun c hc => ?_, fun c hc => ?_⟩
      · rcases htouched c hc with hc | hc
        · unfold SparseCoeffAccumulator.add at hc
          split at hc
          · simp only at hc
            split at hc
            · rcases List.mem_append.mp hc with hc | hc
              · exact Or.inl hc
              · exact Or.inr (List.mem_cons.mpr (Or.inl (List.mem_singleton.mp hc)))
            · exact Or.inl hc
          · exact Or.inl hc
        · exact Or.inr (List.mem_cons_of_mem _ hc)
      · rcases hpairs c hc with hc | hc
        · unfold SparseCoeffAccumulator.add at hc
          split at hc
          · exact Or.inl hc
          · rw [List.map_append] at hc
            rcases List.mem_append.mp hc with hc | hc
            · exact Or.inl hc
            · exact Or.inr (List.mem_cons.mpr (Or.inl (List.mem_singleton.mp hc)))
        · exact Or.inr (List.mem_cons_of_mem _ hc)
  obtain ⟨htouched, hpairs⟩ := hfold { useDense }
  unfold SparseCoeffAccumulator.flush at ht
  split at ht
  · exact (htouched _ (mem_flushDense ht)).resolve_left List.not_mem_nil
  · split at ht
    · cases ht
    · rename_i p pairs hsort
      have hmem := mem_mergeRuns ht
      rw [← hsort] at hmem
      have hperm := (List.mergeSort_perm _ _).map Prod.fst |>.mem_iff.mp hmem
      exact (hpairs _ hperm).resolve_left List.not_mem_nil

/-! ## The invariant -/

/-- The conditional rows of an input are well formed, and each has a binary of its own. -/
structure ConditionalRows (indexer : VarIndexer) (input : SolverInput) : Prop where
  sense_ne : ∀ ic ∈ input.indicatorConstraints, ic.row.sense ≠ .eq
  binaryValue : ∀ ic ∈ input.indicatorConstraints, ic.binaryValue = 0 ∨ ic.binaryValue = 1
  columns : ∀ ic ∈ input.indicatorConstraints, ∀ t ∈ ic.row.form, t.1 < input.width indexer
  binary : ∀ ic ∈ input.indicatorConstraints, ∃ g,
    ic.binaryColumn = indexer.globalBlockStart + g ∧ input.globalColumns[g]? = some ⟨0, 1, true⟩

/-- **One exclusion keeps the conditional rows well formed.** -/
theorem emitNotEqual_conditional (h : ConditionalRows indexer input) {form : Form Nat ℚ}
    (hform : ∀ t ∈ form, t.1 < indexer.globalBlockStart) (collapse : NECollapse) (k : ℚ) :
    ConditionalRows indexer (emitNotEqual indexer input collapse form k) := by
  have hkeep : ConditionalRows indexer (input.addGlobalBinaryAux indexer).1 := by
    refine ⟨h.sense_ne, h.binaryValue, fun ic hic t ht => ?_, fun ic hic => ?_⟩
    · have := h.columns ic hic t ht
      unfold SolverInput.width SolverInput.addGlobalBinaryAux at *
      simp only [List.length_append]
      omega
    · obtain ⟨g, hcol, hbox⟩ := h.binary ic hic
      refine ⟨g, hcol, ?_⟩
      show (input.globalColumns ++ [_])[g]? = _
      rw [List.getElem?_append_left (List.getElem?_eq_some_iff.mp hbox).1]
      exact hbox
  have hnew : ∀ value row, row.sense ≠ Sense.eq → (value = 0 ∨ value = 1) → row.form = form →
      ∀ inp : SolverInput, inp.globalColumns = (input.addGlobalBinaryAux indexer).1.globalColumns →
      ConditionalRows indexer inp →
      ConditionalRows indexer (inp.pushIndicator ⟨(input.addGlobalBinaryAux indexer).2, value, row⟩) := by
    intro value row hsense hvalue hrow inp hglobals hinp
    refine ⟨fun ic hic => ?_, fun ic hic => ?_, fun ic hic t ht => ?_, fun ic hic => ?_⟩ <;>
      rcases List.mem_append.mp hic with hic | hic
    · exact hinp.sense_ne ic hic
    · rw [List.mem_singleton.mp hic]
      exact hsense
    · exact hinp.binaryValue ic hic
    · rw [List.mem_singleton.mp hic]
      exact hvalue
    · exact hinp.columns ic hic t ht
    · rw [List.mem_singleton.mp hic] at ht
      have hlt := hform t (hrow ▸ ht)
      exact lt_of_lt_of_le hlt (Nat.le_add_right _ _)
    · exact hinp.binary ic hic
    · rw [List.mem_singleton.mp hic]
      refine ⟨input.globalColumns.length, rfl, ?_⟩
      show inp.globalColumns[_]? = _
      rw [hglobals]
      show (input.globalColumns ++ [_])[_]? = _
      rw [List.getElem?_append_right le_rfl, Nat.sub_self]
      rfl
  unfold emitNotEqual
  cases collapse with
  | lowerOnly | upperOnly => exact ⟨hkeep.sense_ne, hkeep.binaryValue, hkeep.columns, hkeep.binary⟩
  | disjunction | alwaysTrue =>
    refine hnew 1 _ (by simp) (Or.inr rfl) rfl _ rfl ?_
    exact hnew 0 _ (by simp) (Or.inl rfl) rfl _ rfl hkeep

theorem emitNotEqual_numRows (collapse : NECollapse) (form : Form Nat ℚ) (k : ℚ) :
    (emitNotEqual indexer input collapse form k).numRows = input.numRows := by
  unfold emitNotEqual
  cases collapse <;> rfl

/-- What the loops of the pass keep. -/
def LoopKeeps (indexer : VarIndexer) (input : SolverInput) : Prop :=
  input.numRows = indexer.numRows ∧ ConditionalRows indexer input

theorem foldl_loopKeeps {α : Type} {f : SolverInput → α → SolverInput} {l : List α}
    (hf : ∀ x ∈ l, ∀ s, LoopKeeps indexer s → LoopKeeps indexer (f s x)) : ∀ {s : SolverInput},
    LoopKeeps indexer s → LoopKeeps indexer (l.foldl f s) := by
  induction l with
  | nil => exact fun hs => hs
  | cons x l ih =>
    intro s hs
    exact ih (fun y hy => hf y (List.mem_cons_of_mem _ hy)) (hf x List.mem_cons_self s hs)

theorem foldlM_loopKeeps {α : Type} {f : SolverInput → α → Except String SolverInput} {l : List α}
    (hf : ∀ x ∈ l, ∀ s s', LoopKeeps indexer s → f s x = .ok s' → LoopKeeps indexer s') :
    ∀ {s s' : SolverInput}, LoopKeeps indexer s → l.foldlM f s = .ok s' → LoopKeeps indexer s' := by
  induction l with
  | nil =>
    intro s s' hs h
    obtain rfl : s = s' := Except.ok.inj h
    exact hs
  | cons x l ih =>
    intro s s' hs h
    rw [List.foldlM_cons] at h
    cases hx : f s x with
    | error e =>
      rw [hx] at h
      cases h
    | ok t =>
      rw [hx] at h
      exact ih (fun y hy => hf y (List.mem_cons_of_mem _ hy)) (hf x List.mem_cons_self s t hs hx) h

/-- The columns of a row of a variable lie before the globals. -/
theorem notEqualRowForm_lt {terms : List LhsTerm} {row : Nat} (hrow : row < indexer.numRows)
    {t : Nat × ℚ} (ht : t ∈ notEqualRowForm indexer terms row) : t.1 < indexer.globalBlockStart := by
  have hmem := (List.mem_filter.mp ht).1
  unfold rowEntries at hmem
  obtain ⟨term, -, hterm⟩ := List.mem_filterMap.mp hmem
  obtain ⟨v, -, rfl⟩ := Option.map_eq_some_iff.mp hterm
  exact indexer.get_lt v hrow

theorem notEqualAggregateRow_lt {dense : Bool} {terms : List LhsTerm} {rows : List Nat}
    (hrows : ∀ r ∈ rows, r < indexer.numRows) {t : Nat × ℚ}
    (ht : t ∈ notEqualAggregateRow indexer dense terms rows) : t.1 < indexer.globalBlockStart := by
  obtain ⟨e, he, hcol⟩ := List.mem_map.mp (mem_accumulated dense ht)
  unfold notEqualEntries at he
  obtain ⟨term, -, hterm⟩ := List.mem_flatMap.mp he
  cases hv : term.variableIndex with
  | none =>
    rw [hv] at hterm
    cases hterm
  | some v =>
    rw [hv] at hterm
    obtain ⟨r, hr, rfl⟩ := List.mem_map.mp hterm
    rw [← hcol]
    exact indexer.get_lt v (hrows r (List.mem_filter.mp hr).1)

theorem expandRowNotEqual_keeps (ec : EvaluatedConstraint) (h : LoopKeeps indexer input) :
    LoopKeeps indexer (expandRowNotEqual indexer input ec) := by
  unfold expandRowNotEqual
  simp only
  split
  · exact h
  · refine foldl_loopKeeps (fun r hr s hs => ?_) h
    unfold emitNotEqualRow
    split
    · have hrow : r < indexer.numRows := by
        rw [← h.1]
        exact List.mem_range.mp (List.mem_filter.mp hr).1
      exact ⟨(emitNotEqual_numRows _ _ _).trans hs.1,
        emitNotEqual_conditional hs.2 (fun t ht => notEqualRowForm_lt hrow ht) _ _⟩
    · exact hs

theorem emitGroupExclusion_keeps {ec : EvaluatedConstraint} {form : Form Nat ℚ}
    (hform : ∀ t ∈ form, t.1 < indexer.globalBlockStart) {range : Option ℚ × Option ℚ} {bound : Bound}
    (h : LoopKeeps indexer input) :
    LoopKeeps indexer (emitGroupExclusion indexer ec form range input bound) := by
  unfold emitGroupExclusion
  split
  · exact h
  · cases bound with
    | negInf | posInf => exact h
    | fin k =>
      simp only
      generalize (if ec.bilinearTerms.isEmpty && ec.quadraticGroups.isEmpty then _ else _) = collapse
      split
      · exact h
      · exact ⟨(emitNotEqual_numRows _ _ _).trans h.1, emitNotEqual_conditional h.2 hform _ _⟩

theorem expandAggregateNotEqual_keeps {ec : EvaluatedConstraint} {out : SolverInput}
    (h : LoopKeeps indexer input) (hout : expandAggregateNotEqual indexer input ec = .ok out) :
    LoopKeeps indexer out := by
  unfold expandAggregateNotEqual at hout
  refine foldlM_loopKeeps (fun rows hrows s s' hs hs' => ?_) h hout
  have hlt : ∀ r ∈ rows, r < indexer.numRows := by
    rw [← h.1]
    exact lt_of_mem_aggregateGroups (List.mem_filter.mp hrows).1
  unfold expandGroupNotEqual at hs'
  split at hs'
  · cases hs'
  · obtain rfl := Except.ok.inj hs'
    exact foldl_loopKeeps
      (fun bound _ t ht => emitGroupExclusion_keeps (fun e he => notEqualAggregateRow_lt hlt he) ht) hs

/-- **The `<>` pass emits well-formed conditional rows.** -/
theorem linearizeNotEqual_conditional {out : SolverInput} (hrows : input.numRows = indexer.numRows)
    (h : ConditionalRows indexer input) (hout : linearizeNotEqual input indexer = .ok out) :
    ConditionalRows indexer out := by
  unfold linearizeNotEqual at hout
  simp only at hout
  split at hout
  · cases hout
  · refine (foldlM_loopKeeps (fun ec _ s s' hs hs' => expandAggregateNotEqual_keeps hs hs') ?_
      hout).2
    have hperRow := foldl_loopKeeps (fun ec (_ : ec ∈ (notEqualConstraints input).filter fun ec =>
      !ec.lhsIsAggregate) s hs => expandRowNotEqual_keeps ec hs) ⟨hrows, h⟩
    exact ⟨hperRow.1, ⟨hperRow.2.sense_ne, hperRow.2.binaryValue, hperRow.2.columns,
      hperRow.2.binary⟩⟩

end Decidb
