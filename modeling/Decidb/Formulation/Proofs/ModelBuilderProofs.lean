import Decidb.Formulation.ModelBuilder
import Decidb.Formulation.Proofs.SolverInputProofs

/-!
# What the rows of the model say

Merging keeps the value of a row, and a row of a linear constraint asks of a row or a group what the
constraint says there.
-/

namespace Decidb

open Linear

/-! ## Merging -/

theorem eval_mergeEntries (entries : List (Nat × ℚ)) (a : Nat → ℚ) :
    (mergeEntries entries).eval a = Form.eval entries a := by
  have hfold : ∀ form : Form Nat ℚ,
      (entries.foldl (fun form e => Form.addColumn form e.1 e.2) form).eval a =
        form.eval a + Form.eval entries a := by
    induction entries with
    | nil => intro form; simp
    | cons e entries ih =>
      intro form
      rw [List.foldl_cons, ih, Form.eval_addColumn, Form.eval_cons]
      ring
  unfold mergeEntries
  rw [Form.eval_filter_of_zero _ _ _ (by simp), hfold, Form.eval_nil, zero_add]

/-- A row that keeps a variable is kept as it is. -/
theorem holds_of_pushNormalized {c : ModelConstraint} {a : Nat → ℚ} (hform : c.form ≠ [])
    (h : ∀ m ∈ pushNormalizedConstraint c, m.Holds a) : c.Holds a := by
  unfold pushNormalizedConstraint at h
  rw [if_pos hform] at h
  exact h c List.mem_cons_self

/-- The row of `<=` and of `=` keeps its variable part below the bound. -/
theorem applyComparisonSense_le {form : Form Nat ℚ} {cmp : Comparison} {rhs : Bound}
    {integrality : LhsIntegrality} {c : ModelConstraint} (hcmp : cmp = .le ∨ cmp = .eq)
    (h : applyComparisonSense form cmp rhs integrality = .ok c) {a : Nat → ℚ} (hc : c.Holds a) :
    c.form = form ∧ Bound.fin (form.eval a) ≤ rhs := by
  rcases hcmp with rfl | rfl
  · obtain rfl := Except.ok.inj h
    exact ⟨rfl, hc⟩
  · obtain rfl := Except.ok.inj h
    exact ⟨rfl, le_of_eq hc⟩

/-- `applyComparisonSense` never touches the form. -/
theorem applyComparisonSense_form {form : Form Nat ℚ} {cmp : Comparison} {rhs : Bound}
    {integrality : LhsIntegrality} {c : ModelConstraint}
    (h : applyComparisonSense form cmp rhs integrality = .ok c) : c.form = form := by
  cases cmp with
  | le | ge | eq => obtain rfl := Except.ok.inj h; rfl
  | ne => cases h
  | lt | gt =>
    simp only [applyComparisonSense] at h
    split at h
    · cases h
    · obtain rfl := Except.ok.inj h
      rfl

/-- **On an integral left-hand side, the row of a comparison is the comparison**, the strict ones
included. -/
theorem applyComparisonSense_holds {form : Form Nat ℚ} {cmp : Comparison} {rhs : Bound}
    {integrality : LhsIntegrality} {c : ModelConstraint}
    (h : applyComparisonSense form cmp rhs integrality = .ok c) {a : Nat → ℚ}
    (hint : cmp = .lt ∨ cmp = .gt → (form.eval a).den = 1) :
    c.Holds a ↔ cmp.Holds (form.eval a) rhs := by
  cases cmp with
  | le | ge | eq => obtain rfl := Except.ok.inj h; rfl
  | ne => cases h
  | lt =>
    simp only [applyComparisonSense] at h
    split at h
    · cases h
    obtain rfl := Except.ok.inj h
    obtain ⟨z, hz⟩ : ∃ z : ℤ, form.eval a = z :=
      ⟨_, (Rat.coe_int_num_of_den_eq_one (hint (Or.inl rfl))).symm⟩
    simp only [ModelConstraint.Holds, Comparison.holds_lt, hz]
    cases rhs with
    | negInf | posInf => simp [Bound.map]
    | fin k =>
      simp only [Bound.map, Bound.fin_le_fin, Bound.fin_lt_fin]
      rw [← Int.lt_ceil, ← Int.cast_one, ← Int.cast_sub, Int.cast_le]
      omega
  | gt =>
    simp only [applyComparisonSense] at h
    split at h
    · cases h
    obtain rfl := Except.ok.inj h
    obtain ⟨z, hz⟩ : ∃ z : ℤ, form.eval a = z :=
      ⟨_, (Rat.coe_int_num_of_den_eq_one (hint (Or.inr rfl))).symm⟩
    simp only [ModelConstraint.Holds, Comparison.holds_gt, hz]
    cases rhs with
    | negInf | posInf => simp [Bound.map]
    | fin k =>
      simp only [Bound.map, Bound.fin_le_fin, Bound.fin_lt_fin]
      rw [← Int.floor_lt, ← Int.cast_one, ← Int.cast_add, Int.cast_le]
      omega

/-- A row that holds is met after normalization too. -/
theorem pushNormalized_of_holds {c : ModelConstraint} {a : Nat → ℚ} (h : c.Holds a) :
    ∀ m ∈ pushNormalizedConstraint c, m.Holds a := by
  intro m hm
  unfold pushNormalizedConstraint at hm
  have hmc : m = c := by
    by_cases hform : c.form = []
    · rw [if_neg (not_not.mpr hform)] at hm
      exact List.mem_singleton.mp (List.mem_ite_nil_right.mp hm).2
    · rw [if_pos hform] at hm
      exact List.mem_singleton.mp hm
  rw [hmc]
  exact h

/-! ## Reading the rows back -/

/-- The value of the entries of one row is its variable part. -/
theorem eval_rowEntries (indexer : VarIndexer) (terms : List LhsTerm) (row : Nat) (a : Nat → ℚ) :
    Form.eval (rowEntries indexer terms row) a =
      rowVariablePart terms row fun v => a (indexer.get v row) := by
  unfold rowEntries rowVariablePart
  induction terms with
  | nil => simp
  | cons t terms ih =>
    cases hv : t.variableIndex with
    | none => simp [hv, ih]
    | some v => simp [hv, ih]

/-- The value of the variable part of an aggregate over the rows of a group. -/
def aggregateVariablePart (indexer : VarIndexer) (terms : List LhsTerm) (rows : List Nat)
    (a : Nat → ℚ) : ℚ :=
  (terms.map fun t => Form.eval (aggregateEntries indexer rows t) a).sum

theorem eval_flatMap_aggregateEntries (indexer : VarIndexer) (terms : List LhsTerm)
    (rows : List Nat) (a : Nat → ℚ) :
    Form.eval (terms.flatMap (aggregateEntries indexer rows)) a =
      aggregateVariablePart indexer terms rows a := by
  unfold aggregateVariablePart
  induction terms with
  | nil => simp
  | cons t terms ih => rw [List.flatMap_cons, Form.eval_append, ih, List.map_cons, List.sum_cons]

/-- An element of a list that maps without an error. -/
theorem mapM_ok_mem {α β : Type} {f : α → Except String β} {l : List α} {out : List β}
    (h : l.mapM f = .ok out) {x : α} (hx : x ∈ l) : ∃ y ∈ out, f x = .ok y := by
  induction l generalizing out with
  | nil => cases hx
  | cons z l ih =>
    rw [List.mapM_cons] at h
    cases hz : f z with
    | error e => rw [hz] at h; cases h
    | ok y =>
      cases hl : l.mapM f with
      | error e => rw [hz, hl] at h; cases h
      | ok ys =>
        rw [hz, hl] at h
        obtain rfl := Except.ok.inj h
        rcases List.mem_cons.mp hx with rfl | hx
        · exact ⟨y, List.mem_cons_self, hz⟩
        · obtain ⟨y', hy', hfy⟩ := ih hl hx
          exact ⟨y', List.mem_cons_of_mem _ hy', hfy⟩

/-- The row of a per-row constraint, among the rows that were built. -/
theorem buildConstraint_row {types : List VarType} {indexer : VarIndexer}
    {ec : EvaluatedConstraint} {rows : List ModelConstraint}
    (h : buildConstraint types indexer ec = .ok rows) (hbil : ec.bilinearTerms = [])
    (hquad : ec.quadraticGroups = []) (hagg : ec.lhsIsAggregate = false) {r : Nat}
    (hr : r < indexer.numRows) (hg : (ec.groupOf r).isSome = true) :
    ∃ c, perRowConstraint indexer (isEvalConstraintLhsIntegerValued types indexer.numRows ec) ec r =
      .ok c ∧ ∀ m ∈ pushNormalizedConstraint c, m ∈ rows := by
  unfold buildConstraint at h
  simp only [hbil, hquad, hagg, List.isEmpty_nil, Bool.not_true, Bool.or_self, Bool.false_eq_true,
    if_false] at h
  cases hm : ((List.range indexer.numRows).filter fun r => (ec.groupOf r).isSome).mapM
      (perRowConstraint indexer (isEvalConstraintLhsIntegerValued types indexer.numRows ec) ec) with
  | error e => rw [hm] at h; cases h
  | ok cs =>
    rw [hm] at h
    obtain rfl := Except.ok.inj h
    obtain ⟨c, hc, hok⟩ := mapM_ok_mem hm (List.mem_filter.mpr ⟨List.mem_range.mpr hr, hg⟩)
    exact ⟨c, hok, fun m hm => List.mem_flatMap.mpr ⟨c, hc, hm⟩⟩

/-- The row of a group, among the rows that were built of an aggregate. -/
theorem buildConstraint_group {types : List VarType} {indexer : VarIndexer}
    {ec : EvaluatedConstraint} {rows : List ModelConstraint}
    (h : buildConstraint types indexer ec = .ok rows) (hbil : ec.bilinearTerms = [])
    (hquad : ec.quadraticGroups = []) (hagg : ec.lhsIsAggregate = true) {group : List Nat}
    (hgroup : group ∈ aggregateGroups ec indexer.numRows) :
    ∃ c, aggregateConstraint indexer (isEvalConstraintLhsIntegerValued types indexer.numRows ec) ec
      group = .ok c ∧ ∀ m ∈ pushNormalizedConstraint c, m ∈ rows := by
  unfold buildConstraint at h
  simp only [hbil, hquad, hagg, List.isEmpty_nil, Bool.not_true, Bool.or_self, Bool.false_eq_true,
    if_false, if_true] at h
  cases hm : (aggregateGroups ec indexer.numRows).mapM (aggregateConstraint indexer
      (isEvalConstraintLhsIntegerValued types indexer.numRows ec) ec) with
  | error e => rw [hm] at h; cases h
  | ok cs =>
    rw [hm] at h
    obtain rfl := Except.ok.inj h
    obtain ⟨c, hc, hok⟩ := mapM_ok_mem hm hgroup
    exact ⟨c, hok, fun m hm => List.mem_flatMap.mpr ⟨c, hc, hm⟩⟩

/-- Moving the constants of a left-hand side across keeps the comparison. -/
theorem Comparison.holds_sub (cmp : Comparison) (v c : ℚ) (k : Bound) :
    cmp.Holds v (k.sub c) ↔ cmp.Holds (v + c) k := by
  cases k with
  | negInf | posInf => cases cmp <;> simp [Bound.sub, Bound.map]
  | fin k =>
    cases cmp <;> simp only [Bound.sub, Bound.map, Comparison.holds_lt, Comparison.holds_le,
      Comparison.holds_eq, Comparison.holds_ne, Comparison.holds_ge, Comparison.holds_gt,
      Bound.fin_le_fin, Bound.fin_lt_fin, Bound.fin.injEq, ne_eq, lt_sub_iff_add_lt,
      le_sub_iff_add_le, sub_le_iff_le_add, sub_lt_iff_lt_add, eq_sub_iff_add_eq]

theorem mapM_ok_of_forall {α β : Type} {f : α → Except String β} {P : β → Prop} (l : List α)
    (h : ∀ x ∈ l, ∃ y, f x = .ok y ∧ P y) : ∃ out, l.mapM f = .ok out ∧ ∀ y ∈ out, P y := by
  induction l with
  | nil => exact ⟨[], rfl, by simp⟩
  | cons x l ih =>
    obtain ⟨y, hy, hP⟩ := h x List.mem_cons_self
    obtain ⟨ys, hys, hPs⟩ := ih fun z hz => h z (List.mem_cons_of_mem _ hz)
    refine ⟨y :: ys, ?_, ?_⟩
    · rw [List.mapM_cons, hy, hys]
      rfl
    · intro z hz
      rcases List.mem_cons.mp hz with rfl | hz
      · exact hP
      · exact hPs z hz

/-- A linear per-row constraint without a strict comparison is built, and its rows hold where it
does. -/
theorem rowsHold_of_perRowHolds {types : List VarType} {indexer : VarIndexer}
    {ec : EvaluatedConstraint} {a : Nat → ℚ} (hbil : ec.bilinearTerms = [])
    (hquad : ec.quadraticGroups = []) (hagg : ec.lhsIsAggregate = false)
    (hcmp : ec.comparisonType = .le ∨ ec.comparisonType = .ge ∨ ec.comparisonType = .eq)
    (h : ec.PerRowHolds indexer indexer.numRows a) :
    ∃ rows, buildConstraint types indexer ec = .ok rows ∧ ∀ c ∈ rows, c.Holds a := by
  unfold buildConstraint
  simp only [hbil, hquad, hagg, List.isEmpty_nil, Bool.not_true, Bool.or_self, Bool.false_eq_true,
    if_false]
  set integrality := isEvalConstraintLhsIntegerValued types indexer.numRows ec
  have hone : ∀ r ∈ (List.range indexer.numRows).filter fun r => (ec.groupOf r).isSome,
      ∃ c, perRowConstraint indexer integrality ec r = .ok c ∧ c.Holds a := by
    intro r hr
    obtain ⟨hlt, hg⟩ := List.mem_filter.mp hr
    have hrow := h r (List.mem_range.mp hlt) hg
    unfold EvaluatedConstraint.lhsValue rowValue at hrow
    rw [← Comparison.holds_sub, ← eval_rowEntries, ← eval_mergeEntries] at hrow
    unfold perRowConstraint
    rcases hcmp with hc | hc | hc <;> rw [hc] at hrow ⊢ <;> exact ⟨_, rfl, hrow⟩
  obtain ⟨cs, hcs, hall⟩ := mapM_ok_of_forall _ hone
  refine ⟨cs.flatMap pushNormalizedConstraint, ?_, fun c hc => ?_⟩
  · rw [hcs]
    rfl
  · obtain ⟨c', hc', hm⟩ := List.mem_flatMap.mp hc
    exact pushNormalized_of_holds (hall c' hc') c hm

end Decidb
