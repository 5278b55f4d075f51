import Decidb.Formulation.ImpliedBounds
import Decidb.Formulation.Proofs.ModelBuilderProofs

/-!
# What implied-bound propagation writes

Every write of the pass is one bound on one variable that occurs in a constraint the pass reads, and
it only ever lowers that variable's upper end.
-/

namespace Decidb

open Linear

/-! ## Reading lists of ends -/

/-- A write reads back at its own index. -/
theorem getD_set_self {l : List ℚ} {i : Nat} (a d : ℚ) (h : i < l.length) :
    (l.set i a).getD i d = a := by
  simp [List.getD, h]

theorem getD_set_ne {l : List ℚ} {i j : Nat} (a d : ℚ) (h : i ≠ j) :
    (l.set i a).getD j d = l.getD j d := by
  simp [List.getD, List.getElem?_set_ne h]

/-- Copying an entry from a list of the same length makes the two agree there. -/
theorem getD_set_copy {l d : List ℚ} (i : Nat) (h : l.length = d.length) :
    (l.set i (d.getD i 0)).getD i 0 = d.getD i 0 := by
  by_cases hi : i < l.length
  · exact getD_set_self _ _ hi
  · have hle := not_lt.mp hi
    rw [List.set_eq_of_length_le hle]
    simp [List.getD, List.getElem?_eq_none hle, List.getElem?_eq_none (h ▸ hle)]

/-! ## One write -/

/-- What is written at `v` by one constraint: either nothing, or a bound below the end that was
there. -/
theorem writeImpliedBound_cases (ec : EvaluatedConstraint) (lower : List ℚ) (numRows : Nat)
    (upper : List ℚ) (v : Nat) :
    writeImpliedBound ec lower numRows upper v = upper ∨
      ∃ bound, impliedBound ec v numRows = some (.fin bound) ∧ bound < upper.getD v 0 ∧
        lower.getD v 0 ≤ bound ∧ writeImpliedBound ec lower numRows upper v = upper.set v bound := by
  unfold writeImpliedBound
  split
  · rename_i bound hbound
    split
    · rename_i h
      exact Or.inr ⟨bound, hbound, h.1, h.2, rfl⟩
    · exact Or.inl rfl
  · exact Or.inl rfl

theorem mem_termVariables {terms : List LhsTerm} {v : Nat} :
    v ∈ termVariables terms ↔ ∃ t ∈ terms, t.variableIndex = some v := by
  simp [termVariables, List.mem_filterMap]

/-! ## The whole pass -/

/-- What every write of the pass preserves holds of its result. -/
theorem propagate_induction {P : List ℚ → Prop} {constraints : List EvaluatedConstraint}
    {lower upper : List ℚ} {numRows : Nat} (h0 : P upper)
    (hstep : ∀ ec ∈ constraints, readsImpliedBounds ec lower numRows = true →
      ∀ t ∈ ec.lhsTerms, ∀ v, t.variableIndex = some v → ∀ u, P u →
        P (writeImpliedBound ec lower numRows u v)) :
    P (decidePropagateImpliedBounds constraints lower upper numRows) := by
  unfold decidePropagateImpliedBounds
  refine List.foldlRecOn constraints _ h0 fun u hu ec hec => ?_
  by_cases hreads : readsImpliedBounds ec lower numRows = true
  · rw [if_pos hreads]
    refine List.foldlRecOn (termVariables ec.lhsTerms) _ hu fun u' hu' v hv => ?_
    obtain ⟨t, ht, htv⟩ := mem_termVariables.mp hv
    exact hstep ec hec hreads t ht v htv u' hu'
  · rw [if_neg hreads]
    exact hu

theorem propagate_length (constraints : List EvaluatedConstraint) (lower upper : List ℚ)
    (numRows : Nat) :
    (decidePropagateImpliedBounds constraints lower upper numRows).length = upper.length := by
  refine propagate_induction (P := fun u => u.length = upper.length) rfl
    fun ec _ _ _ _ v _ u hu => ?_
  rcases writeImpliedBound_cases ec lower numRows u v with h | ⟨bound, _, _, _, h⟩
  · rw [h, hu]
  · rw [h, List.length_set, hu]

/-- A variable no constraint mentions keeps its upper end. -/
theorem propagate_unmentioned {constraints : List EvaluatedConstraint} {lower upper : List ℚ}
    {numRows w : Nat} (hw : ∀ ec ∈ constraints, ∀ t ∈ ec.lhsTerms, t.variableIndex ≠ some w) :
    (decidePropagateImpliedBounds constraints lower upper numRows).getD w 0 = upper.getD w 0 := by
  refine propagate_induction (P := fun u => u.getD w 0 = upper.getD w 0) rfl
    fun ec hec _ t ht v htv u hu => ?_
  have hne : v ≠ w := fun h => hw ec hec t ht (h ▸ htv)
  rcases writeImpliedBound_cases ec lower numRows u v with h | ⟨bound, _, _, _, h⟩
  · rw [h, hu]
  · rw [h, getD_set_ne _ _ hne, hu]

/-! ## The bound of one constraint -/

/-- One row either leaves the variable unconstrained or raises the bound to its own. -/
theorem impliedBoundStep_cases (ec : EvaluatedConstraint) (v r : Nat) (b : Bound) :
    impliedBoundStep ec v (some b) r = none ∨
      (coefficientCut < combinedCoefficient ec.lhsTerms v r ∧ ¬ ec.rhsValues r < .fin 0 ∧
        impliedBoundStep ec v (some b) r =
          some (max b ((ec.rhsValues r).map (· / combinedCoefficient ec.lhsTerms v r)))) := by
  unfold impliedBoundStep
  simp only
  split
  · exact Or.inl rfl
  rename_i hactive
  split
  · exact Or.inl rfl
  rename_i hk
  simp only [Bool.or_eq_true, decide_eq_true_eq, not_or, not_le] at hactive
  exact Or.inr ⟨hactive.2, hk, rfl⟩

theorem foldl_impliedBoundStep_none (ec : EvaluatedConstraint) (v : Nat) (rows : List Nat) :
    rows.foldl (impliedBoundStep ec v) none = none := by
  induction rows with
  | nil => rfl
  | cons r rows ih => rw [List.foldl_cons]; exact ih

/-- What an implied bound says of every row: the variable has a positive coefficient in it, and the
bound covers the row's own. -/
theorem impliedBound_row {ec : EvaluatedConstraint} {v numRows : Nat} {bound : ℚ}
    (h : impliedBound ec v numRows = some (.fin bound)) {r : Nat} (hr : r < numRows) :
    coefficientCut < combinedCoefficient ec.lhsTerms v r ∧ ¬ ec.rhsValues r < .fin 0 ∧
      (ec.rhsValues r).map (· / combinedCoefficient ec.lhsTerms v r) ≤ .fin bound := by
  have hfold : ∀ (rows : List Nat) (b : Bound),
      rows.foldl (impliedBoundStep ec v) (some b) = some (.fin bound) →
        b ≤ .fin bound ∧ ∀ r ∈ rows, coefficientCut < combinedCoefficient ec.lhsTerms v r ∧
          ¬ ec.rhsValues r < .fin 0 ∧
            (ec.rhsValues r).map (· / combinedCoefficient ec.lhsTerms v r) ≤ .fin bound := by
    intro rows
    induction rows with
    | nil =>
      intro b hb
      obtain rfl : b = .fin bound := by simpa using hb
      simp
    | cons r rows ih =>
      intro b hb
      rw [List.foldl_cons] at hb
      rcases impliedBoundStep_cases ec v r b with hstep | ⟨hcut, hk, hstep⟩
      · rw [hstep, foldl_impliedBoundStep_none] at hb
        cases hb
      · rw [hstep] at hb
        obtain ⟨hle, hrows⟩ := ih _ hb
        refine ⟨(le_max_left _ _).trans hle, fun r' hr' => ?_⟩
        rcases List.mem_cons.mp hr' with rfl | hr'
        · exact ⟨hcut, hk, (le_max_right _ _).trans hle⟩
        · exact hrows r' hr'
  exact (hfold _ _ h).2 r (List.mem_range.mpr hr)

/-- A row below its right-hand side keeps the variable below the implied bound. -/
theorem le_impliedBound {ec : EvaluatedConstraint} {v numRows : Nat} {bound x : ℚ}
    (h : impliedBound ec v numRows = some (.fin bound)) {r : Nat} (hr : r < numRows)
    (hrow : Bound.fin (combinedCoefficient ec.lhsTerms v r * x) ≤ ec.rhsValues r) : x ≤ bound := by
  obtain ⟨hcut, -, hle⟩ := impliedBound_row h hr
  have hpos : 0 < combinedCoefficient ec.lhsTerms v r :=
    lt_of_le_of_lt (by norm_num [coefficientCut]) hcut
  cases hk : ec.rhsValues r with
  | negInf => rw [hk] at hrow; simp at hrow
  | posInf => rw [hk] at hle; simp [Bound.map] at hle
  | fin k =>
    rw [hk] at hrow hle
    simp only [Bound.map, Bound.fin_le_fin] at hrow hle
    exact ((le_div_iff₀ hpos).mpr (by linarith)).trans hle

/-! ## Dropping non-negative terms -/

/-- The terms of a constraint are non-negative at an assignment: coefficients and columns are. -/
structure NonnegTerms (indexer : VarIndexer) (ec : EvaluatedConstraint) (a : Nat → ℚ) : Prop where
  coefficient : ∀ t ∈ ec.lhsTerms, ∀ r, r < indexer.numRows → 0 ≤ t.rowCoefficients r
  column : ∀ t ∈ ec.lhsTerms, ∀ v, t.variableIndex = some v → ∀ r, r < indexer.numRows →
    0 ≤ a (indexer.get v r)

/-- Of non-negative shares, those of one variable are at most all of them. -/
theorem sum_filter_le {f g : LhsTerm → ℚ} (p : LhsTerm → Bool) :
    ∀ terms : List LhsTerm, (∀ t ∈ terms, 0 ≤ g t) → (∀ t ∈ terms, p t = true → f t ≤ g t) →
      ((terms.filter p).map f).sum ≤ (terms.map g).sum := by
  intro terms
  induction terms with
  | nil => intro _ _; simp
  | cons t terms ih =>
    intro hg hf
    have ih' := ih (fun u hu => hg u (List.mem_cons_of_mem _ hu))
      (fun u hu => hf u (List.mem_cons_of_mem _ hu))
    rw [List.map_cons, List.sum_cons]
    cases hp : p t with
    | true =>
      rw [List.filter_cons_of_pos hp, List.map_cons, List.sum_cons]
      exact add_le_add (hf t List.mem_cons_self hp) ih'
    | false =>
      rw [List.filter_cons_of_neg (by simp [hp])]
      linarith [hg t List.mem_cons_self]

theorem combinedCoefficient_mul (terms : List LhsTerm) (v r : Nat) (x : ℚ) :
    combinedCoefficient terms v r * x =
      ((terms.filter fun t => decide (t.variableIndex = some v)).map
        fun t => t.rowCoefficients r * x).sum := by
  unfold combinedCoefficient
  rw [List.sum_map_mul_right]

section Rows

variable {indexer : VarIndexer} {ec : EvaluatedConstraint} {a : Nat → ℚ}

/-- In a row of a per-row constraint, a variable's terms are at most the whole left-hand side. -/
theorem combined_le_rowVariablePart (h : NonnegTerms indexer ec a) {r : Nat}
    (hr : r < indexer.numRows) (v : Nat) :
    combinedCoefficient ec.lhsTerms v r * a (indexer.get v r) ≤
      rowVariablePart ec.lhsTerms r fun v => a (indexer.get v r) := by
  rw [combinedCoefficient_mul]
  unfold rowVariablePart
  refine sum_filter_le _ _ (fun t ht => ?_) fun t ht hv => ?_
  · cases htv : t.variableIndex with
    | none => simp
    | some w => exact mul_nonneg (h.coefficient t ht r hr) (h.column t ht w htv r hr)
  · rw [decide_eq_true_eq] at hv
    simp [hv]

theorem fixedLhsOffset_nonneg (h : NonnegTerms indexer ec a) {r : Nat} (hr : r < indexer.numRows) :
    0 ≤ decideRowFixedLhsOffset ec.lhsTerms r := by
  unfold decideRowFixedLhsOffset
  refine List.sum_nonneg fun c hc => ?_
  obtain ⟨t, ht, rfl⟩ := List.mem_map.mp hc
  exact h.coefficient t (List.mem_filter.mp ht).1 r hr

/-- Every entry of a group is non-negative. -/
theorem aggregateEntries_nonneg (h : NonnegTerms indexer ec a) {rows : List Nat}
    (hrows : ∀ r ∈ rows, r < indexer.numRows) (hne : rows ≠ []) {t : LhsTerm}
    (ht : t ∈ ec.lhsTerms) : ∀ e ∈ aggregateEntries indexer rows t, 0 ≤ e.2 * a e.1 := by
  have hhead : rows.headD 0 < indexer.numRows := by
    cases rows with
    | nil => exact absurd rfl hne
    | cons r rows => exact hrows r List.mem_cons_self
  intro e he
  unfold aggregateEntries at he
  cases hv : t.variableIndex with
  | none => simp [hv] at he
  | some v =>
    simp only [hv] at he
    split at he
    · obtain rfl := List.mem_singleton.mp he
      exact mul_nonneg (h.coefficient t ht _ hhead) (h.column t ht v hv _ hhead)
    · obtain ⟨r, hr, rfl⟩ := List.mem_map.mp he
      exact mul_nonneg (h.coefficient t ht r (hrows r hr)) (h.column t ht v hv r (hrows r hr))

/-- A term has an entry at every row of the group, or at its first one only. -/
theorem mem_aggregateEntries {rows : List Nat} {t : LhsTerm} {v r : Nat}
    (hv : t.variableIndex = some v) (hr : r ∈ rows)
    (honce : entersOnce indexer t v = true → r = rows.headD 0) :
    (indexer.get v r, t.rowCoefficients r) ∈ aggregateEntries indexer rows t := by
  unfold aggregateEntries
  simp only [hv]
  split
  · rename_i h
    rw [honce h]
    exact List.mem_singleton.mpr rfl
  · exact List.mem_map.mpr ⟨r, hr, rfl⟩

/-- In the row of a group, there is one row of the group at which a variable's terms are at most the
whole left-hand side; it is the given one unless the variable is query-wide. -/
theorem combined_le_aggregateVariablePart (h : NonnegTerms indexer ec a) {rows : List Nat}
    (hrows : ∀ r ∈ rows, r < indexer.numRows) {r : Nat} (hr : r ∈ rows) (v : Nat) :
    ∃ r' ∈ rows, indexer.get v r' = indexer.get v r ∧
      combinedCoefficient ec.lhsTerms v r' * a (indexer.get v r') ≤
        aggregateVariablePart indexer ec.lhsTerms rows a := by
  have hne : rows ≠ [] := List.ne_nil_of_mem hr
  have hsum : ∀ t ∈ ec.lhsTerms, 0 ≤ Form.eval (aggregateEntries indexer rows t) a := by
    intro t ht
    refine List.sum_nonneg fun c hc => ?_
    obtain ⟨e, he, rfl⟩ := List.mem_map.mp hc
    exact aggregateEntries_nonneg h hrows hne ht e he
  have hmem : ∀ t ∈ ec.lhsTerms, ∀ e ∈ aggregateEntries indexer rows t,
      e.2 * a e.1 ≤ Form.eval (aggregateEntries indexer rows t) a := fun t ht e he =>
    List.single_le_sum (fun c hc => by
      obtain ⟨e', he', rfl⟩ := List.mem_map.mp hc
      exact aggregateEntries_nonneg h hrows hne ht e' he') _ (List.mem_map_of_mem he)
  have hat : ∀ r' ∈ rows, (∀ t, entersOnce indexer t v = true → r' = rows.headD 0) →
      combinedCoefficient ec.lhsTerms v r' * a (indexer.get v r') ≤
        aggregateVariablePart indexer ec.lhsTerms rows a := by
    intro r' hr' honce
    rw [combinedCoefficient_mul]
    refine sum_filter_le _ _ hsum fun t ht hv => ?_
    rw [decide_eq_true_eq] at hv
    exact hmem t ht _ (mem_aggregateEntries hv hr' (honce t))
  cases hscope : indexer.varScope v with
  | scalar column =>
    obtain ⟨r₀, rest, rfl⟩ := List.exists_cons_of_ne_nil hne
    exact ⟨r₀, List.mem_cons_self, by simp [VarIndexer.get, hscope, DecideVarScope.column],
      hat r₀ List.mem_cons_self fun _ _ => rfl⟩
  | row offset => exact ⟨r, hr, rfl, hat r hr fun t ht => by simp [entersOnce, hscope] at ht⟩
  | entity base rowToEntity =>
    exact ⟨r, hr, rfl, hat r hr fun t ht => by simp [entersOnce, hscope] at ht⟩

end Rows

end Decidb
