import Decidb.Formulation.Proofs.BilinearProofs

/-!
# Implied bounds in the built model

A bound implied by a constraint is respected wherever the constraint's terms are non-negative. The
pass reads that off the boxes at the time it runs, and those contain the boxes of the built model
except for the products a later phase widens.
-/

namespace Decidb

open Linear

/-! ## One constraint -/

/-- What the pass has checked of a constraint it reads. -/
structure ReadsFacts (ec : EvaluatedConstraint) (lower : List ℚ) (numRows : Nat) : Prop where
  comparison : ec.comparisonType = .le ∨ ec.comparisonType = .eq
  bilinear : ec.bilinearTerms = []
  quadratic : ec.quadraticGroups = []
  untagged : ec.minmaxAggType = none ∧ ec.neClauseIdx = none ∧ ec.absAuxIdx = none
  included : ∀ r, r < numRows → (ec.groupOf r).isSome = true
  columns : ∀ t ∈ ec.lhsTerms, ∀ v, t.variableIndex = some v → 0 ≤ lower.getD v 0
  coefficients : ∀ t ∈ ec.lhsTerms, ∀ r, r < numRows → -coefficientCut ≤ t.rowCoefficients r

theorem readsFacts {ec : EvaluatedConstraint} {lower : List ℚ} {numRows : Nat}
    (h : readsImpliedBounds ec lower numRows = true) : ReadsFacts ec lower numRows := by
  unfold readsImpliedBounds at h
  simp only [Bool.and_eq_true, Bool.or_eq_true, decide_eq_true_eq, List.all_eq_true,
    List.isEmpty_iff, Option.isNone_iff_eq_none, List.mem_range,
    EvaluatedConstraint.excludes, Bool.not_eq_true'] at h
  obtain ⟨⟨⟨⟨⟨⟨⟨⟨hcmp, hbil⟩, hquad⟩, hmm⟩, hne⟩, habs⟩, hinc⟩, hcol⟩, hcoef⟩ := h
  refine ⟨hcmp, hbil, hquad, ⟨hmm, hne, habs⟩, fun r hr => ?_, fun t ht v hv => ?_, hcoef⟩
  · have := hinc r hr
    cases hg : ec.groupOf r with
    | none => rw [hg] at this; cases this
    | some g => rfl
  · have := hcol t ht
    rw [hv] at this
    simpa using this

/-- The shape evaluation gives every constraint: its terms name declared variables, its groups are
numbered, and an aggregate has one bound a group. -/
structure EvaluatedShape (ec : EvaluatedConstraint) (numVars numRows : Nat) : Prop where
  declared : ∀ t ∈ ec.lhsTerms, ∀ v, t.variableIndex = some v → v < numVars
  groups : ec.rowGroupIds.isSome = true → ∀ r g, r < numRows → ec.groupOf r = some g →
    g < ec.numGroups
  bounds : ec.lhsIsAggregate = true → RhsUniform ec numRows

section Row

variable {types : List VarType} {indexer : VarIndexer} {ec : EvaluatedConstraint} {a : Nat → ℚ}

/-- A form whose value is positive somewhere keeps an entry. -/
theorem form_ne_nil {entries : List (Nat × ℚ)} (h : 0 < Form.eval entries fun _ => 1) :
    mergeEntries entries ≠ [] := by
  intro hnil
  rw [← eval_mergeEntries, hnil, Form.eval_nil] at h
  exact lt_irrefl _ h

/-- The coefficients alone, read at the constant assignment. -/
theorem NonnegTerms.ones (h : NonnegTerms indexer ec a) : NonnegTerms indexer ec fun _ => 1 :=
  ⟨h.coefficient, fun _ _ _ _ _ _ => by norm_num⟩

/-- Every row lies in a group an aggregate has a row for. -/
theorem exists_aggregateGroup {numVars : Nat} (hshape : EvaluatedShape ec numVars indexer.numRows)
    {r : Nat} (hr : r < indexer.numRows) (hinc : (ec.groupOf r).isSome = true) :
    ∃ group ∈ aggregateGroups ec indexer.numRows, r ∈ group ∧ ∀ r' ∈ group,
      r' < indexer.numRows ∧ ec.groupOf r' = ec.groupOf r := by
  obtain ⟨g, hg⟩ := Option.isSome_iff_exists.mp hinc
  cases hids : ec.rowGroupIds with
  | none =>
    refine ⟨List.range indexer.numRows, by simp [aggregateGroups, hids], List.mem_range.mpr hr,
      fun r' hr' => ⟨List.mem_range.mp hr', ?_⟩⟩
    simp [EvaluatedConstraint.groupOf, hids]
  | some ids =>
    have hmem : r ∈ groupRows ec indexer.numRows g := mem_groupRows.mpr ⟨hr, hg⟩
    refine ⟨groupRows ec indexer.numRows g, ?_, hmem, fun r' hr' => ?_⟩
    · simp only [aggregateGroups, hids, List.mem_filter, List.mem_map, List.mem_range,
        decide_eq_true_eq]
      exact ⟨⟨g, hshape.groups (by simp [hids]) r g hr hg, rfl⟩, List.ne_nil_of_mem hmem⟩
    · obtain ⟨h1, h2⟩ := mem_groupRows.mp hr'
      exact ⟨h1, h2.trans hg.symm⟩

/-- **One constraint**: where its terms are non-negative and its rows hold, every bound it implies is
respected. -/
theorem impliedBound_respected {lower : List ℚ} {numVars : Nat}
    (hreads : readsImpliedBounds ec lower indexer.numRows = true)
    (hshape : EvaluatedShape ec numVars indexer.numRows) (hterms : NonnegTerms indexer ec a)
    {rows : List ModelConstraint} (hok : buildConstraint types indexer ec = .ok rows)
    (hrows : ∀ c ∈ rows, c.Holds a) {v : Nat} {bound : ℚ}
    (hbound : impliedBound ec v indexer.numRows = some (.fin bound)) {r : Nat}
    (hr : r < indexer.numRows) : a (indexer.get v r) ≤ bound := by
  have hf := readsFacts hreads
  have hinc := hf.included r hr
  have hcut0 : (0 : ℚ) < coefficientCut := by norm_num [coefficientCut]
  cases hagg : ec.lhsIsAggregate with
  | false =>
    obtain ⟨c, hc, hmem⟩ := buildConstraint_row hok hf.bilinear hf.quadratic hagg hr hinc
    have hform : c.form ≠ [] := by
      rw [applyComparisonSense_form hc]
      refine form_ne_nil ?_
      rw [eval_rowEntries]
      have h1 := combined_le_rowVariablePart hterms.ones hr v
      have h2 := (impliedBound_row hbound hr).1
      linarith
    have hholds := holds_of_pushNormalized hform fun m hm => hrows m (hmem m hm)
    obtain ⟨-, hle⟩ := applyComparisonSense_le hf.comparison hc hholds
    rw [eval_mergeEntries, eval_rowEntries] at hle
    refine le_impliedBound hbound hr ?_
    have hcomb := combined_le_rowVariablePart hterms hr v
    have hfix := fixedLhsOffset_nonneg hterms hr
    unfold decideRowEffectiveBound at hle
    cases hk : ec.rhsValues r with
    | negInf => rw [hk] at hle; simp [Bound.sub, Bound.map] at hle
    | posInf => simp
    | fin k =>
      rw [hk] at hle
      simp only [Bound.sub, Bound.map, Bound.fin_le_fin] at hle ⊢
      linarith
  | true =>
    obtain ⟨group, hgroup, hrg, hall⟩ := exists_aggregateGroup hshape hr hinc
    obtain ⟨c, hc, hmem⟩ := buildConstraint_group hok hf.bilinear hf.quadratic hagg hgroup
    have hlt : ∀ r' ∈ group, r' < indexer.numRows := fun r' hr' => (hall r' hr').1
    unfold aggregateConstraint at hc
    cases hoff : sumFixedAggregateLhsOffset ec.lhsTerms group with
    | error e => rw [hoff] at hc; cases hc
    | ok offset =>
      rw [hoff] at hc
      have hoff0 : 0 ≤ offset := by
        unfold sumFixedAggregateLhsOffset at hoff
        simp only at hoff
        split at hoff
        · cases hoff
        obtain rfl := Except.ok.inj hoff
        refine List.sum_nonneg fun s hs => ?_
        obtain ⟨t, ht, rfl⟩ := List.mem_map.mp hs
        refine List.sum_nonneg fun s hs => ?_
        obtain ⟨r', hr', rfl⟩ := List.mem_map.mp hs
        exact hterms.coefficient t (List.mem_filter.mp ht).1 r' (hlt r' hr')
      have hform : c.form ≠ [] := by
        rw [applyComparisonSense_form hc]
        refine form_ne_nil ?_
        rw [eval_flatMap_aggregateEntries]
        obtain ⟨r', hr', -, h1⟩ := combined_le_aggregateVariablePart hterms.ones hlt hrg v
        have h2 := (impliedBound_row hbound (hlt r' hr')).1
        linarith
      have hholds := holds_of_pushNormalized hform fun m hm => hrows m (hmem m hm)
      obtain ⟨-, hle⟩ := applyComparisonSense_le hf.comparison hc hholds
      rw [eval_mergeEntries, eval_flatMap_aggregateEntries] at hle
      obtain ⟨r', hr', hcol, hcomb⟩ := combined_le_aggregateVariablePart hterms hlt hrg v
      rw [← hcol]
      refine le_impliedBound hbound (hlt r' hr') ?_
      have hhead : group.headD 0 ∈ group := by
        cases group with
        | nil => cases hrg
        | cons r₀ rest => exact List.mem_cons_self
      obtain ⟨g, hg⟩ := Option.isSome_iff_exists.mp hinc
      have hk' : ec.rhsValues (group.headD 0) = ec.rhsValues r' :=
        hshape.bounds hagg _ _ g (hlt _ hhead) (hlt _ hr') ((hall _ hhead).2.trans hg)
          ((hall _ hr').2.trans hg)
      rw [hk'] at hle
      cases hk : ec.rhsValues r' with
      | negInf => rw [hk] at hle; simp [Bound.sub, Bound.map] at hle
      | posInf => simp
      | fin k =>
        rw [hk] at hle
        simp only [Bound.sub, Bound.map, Bound.fin_le_fin] at hle ⊢
        linarith

end Row

/-! ## The built model -/

/-- The constraints `SolverModel::Build` sees as they are: the tagged ones are encoded by passes of
their own. -/
def EvaluatedConstraint.plain (ec : EvaluatedConstraint) : Bool :=
  ec.minmaxAggType.isNone && ec.neClauseIdx.isNone && ec.absAuxIdx.isNone

/-- An assignment satisfies the built model, the ends the pass wrote left aside: the final lower
ends, the declared upper ends, and every row, those of the products among them. -/
structure SatisfiesBuilt (q : ProductQuery) (out : SolverInput) (indexer : VarIndexer)
    (a : Nat → ℚ) : Prop where
  boxes : ∀ v x, q.vars[v]? = some x → ∀ row, row < q.numRows →
    (⟨out.lowerBounds.getD v 0, x.box.upper, x.type ≠ .real⟩ : ColumnBox).Admits
      (a (indexer.get v row))
  rows : RowsHold out.variableTypes indexer (out.constraints.filter (·.plain)) a

/-- Every upper end the pass wrote is respected. -/
def WritesRespected (q : ProductQuery) (input : SolverInput) (indexer : VarIndexer)
    (a : Nat → ℚ) : Prop :=
  ∀ v x, q.vars[v]? = some x → ∀ row, row < q.numRows →
    input.upperBounds.getD v 0 = x.box.upper ∨
      a (indexer.get v row) ≤ input.upperBounds.getD v 0

/-- The boxes the pass reads contain the ones the columns finally have. -/
def ReadBoxesContain (q : ProductQuery) (input out : SolverInput) : Prop :=
  ∀ v, v < q.vars.length → input.lowerBounds.getD v 0 ≤ out.lowerBounds.getD v 0 ∧
    out.upperBounds.getD v 0 ≤ input.upperBounds.getD v 0

/-- No product is widened: one over a factor that can be negative already reaches as low. -/
def NoProductWidened (q : ProductQuery) (input : SolverInput) : Prop :=
  ∀ link ∈ q.links, link.auxIdx < q.vars.length → input.lowerBounds.getD link.otherVarIdx 0 < 0 →
    input.lowerBounds.getD link.auxIdx 0 ≤ input.lowerBounds.getD link.otherVarIdx 0

/-- The products among the terms of the constraints the pass reads are non-negative. -/
def ReadProductsNonneg (q : ProductQuery) (input : SolverInput) (indexer : VarIndexer)
    (a : Nat → ℚ) : Prop :=
  ∀ ec ∈ q.constraints, readsImpliedBounds ec input.lowerBounds q.numRows = true →
    ∀ t ∈ ec.lhsTerms, ∀ link ∈ q.links, t.variableIndex = some link.auxIdx →
      input.lowerBounds.getD link.otherVarIdx 0 < 0 → ∀ row, row < q.numRows →
        0 ≤ a (indexer.get link.auxIdx row)

/-- The boxes the pass reads are the final ones iff no product is widened. -/
theorem readBoxesContain_iff {q : ProductQuery} {input out : SolverInput}
    (hq : q.Formulated input out) : ReadBoxesContain q input out ↔ NoProductWidened q input := by
  obtain ⟨hbuild, hform⟩ := hq
  obtain ⟨-, hlowers, -, -, -⟩ := buildSolverInput_spec hbuild
  obtain ⟨-, -, hupper, hother, hown⟩ := formulateProducts_spec q.aux_nodup hform
  have hlen : input.lowerBounds.length = q.vars.length := by simp [hlowers]
  constructor
  · intro h link hlink hlt hneg
    have hle := (h link.auxIdx hlt).1
    rw [(hown link hlink (by rwa [hlen])).2, if_pos hneg] at hle
    exact hle.trans (min_le_right _ _)
  · intro h v hv
    refine ⟨?_, (hupper v).le⟩
    by_cases hmem : v ∈ q.links.map (·.auxIdx)
    · obtain ⟨link, hlink, rfl⟩ := List.mem_map.mp hmem
      rw [(hown link hlink (by rwa [hlen])).2]
      split
      · rename_i hneg
        exact le_min le_rfl (h link hlink hv hneg)
      · exact le_rfl
    · exact (hother v hmem).ge

/-- Without a widened product, those that are read are non-negative in every assignment of the built
model. -/
theorem readProductsNonneg_of_noProductWidened {q : ProductQuery} {input : SolverInput}
    {indexer : VarIndexer} {a : Nat → ℚ} (h : NoProductWidened q input)
    (hshape : ∀ ec ∈ q.constraints, EvaluatedShape ec q.vars.length q.numRows) :
    ReadProductsNonneg q input indexer a := by
  intro ec hec hreads t ht link hlink hv hneg
  have hcol := (readsFacts hreads).columns t ht _ hv
  have hle := h link hlink ((hshape ec hec).declared t ht _ hv) hneg
  linarith

/-- The terms of a constraint that is read are non-negative in an assignment of the built model. -/
theorem nonnegTerms_of_satisfiesBuilt {q : ProductQuery} {input out : SolverInput}
    (hq : q.Formulated input out) {indexer : VarIndexer} (hrows : indexer.numRows = q.numRows)
    {a : Nat → ℚ} (ha : SatisfiesBuilt q out indexer a)
    (hprod : ReadProductsNonneg q input indexer a) {ec : EvaluatedConstraint}
    (hec : ec ∈ q.constraints) (hshape : EvaluatedShape ec q.vars.length q.numRows)
    (hclean : ∀ t ∈ ec.lhsTerms, ∀ r, r < q.numRows →
      t.rowCoefficients r = 0 ∨ coefficientCut < |t.rowCoefficients r|)
    (hreads : readsImpliedBounds ec input.lowerBounds q.numRows = true) :
    NonnegTerms indexer ec a := by
  obtain ⟨hbuild, hform⟩ := hq
  obtain ⟨-, hlowers, -, -, -⟩ := buildSolverInput_spec hbuild
  obtain ⟨-, -, -, hother, hown⟩ := formulateProducts_spec q.aux_nodup hform
  have hf := readsFacts hreads
  constructor
  · intro t ht r hr
    rw [hrows] at hr
    have hge := hf.coefficients t ht r hr
    rcases hclean t ht r hr with h0 | hbig
    · exact h0.ge
    · by_contra hneg
      rw [abs_of_neg (not_le.mp hneg)] at hbig
      linarith
  · intro t ht v hv r hr
    rw [hrows] at hr
    have hcol := hf.columns t ht v hv
    have hvlt := hshape.declared t ht v hv
    have hfinal : 0 ≤ out.lowerBounds.getD v 0 → 0 ≤ a (indexer.get v r) := by
      intro h0
      have hbox := ha.boxes v _ (List.getElem?_eq_getElem hvlt) r hr
      rcases hbox.lower_le with hopen | hle
      · have : (0 : ℚ) < solverInfinity := by norm_num [solverInfinity]
        have hopen' : out.lowerBounds.getD v 0 ≤ -solverInfinity := hopen
        linarith
      · exact h0.trans hle
    by_cases hmem : v ∈ q.links.map (·.auxIdx)
    · obtain ⟨link, hlink, rfl⟩ := List.mem_map.mp hmem
      by_cases hneg : input.lowerBounds.getD link.otherVarIdx 0 < 0
      · exact hprod ec hec hreads t ht link hlink hv hneg r hr
      · refine hfinal ?_
        rw [(hown link hlink (by simpa [hlowers] using hvlt)).2, if_neg hneg]
        exact hcol
    · refine hfinal ?_
      rw [hother v hmem]
      exact hcol

/-- **Implied bounds are sound where the products they were read from are not negative**, and the
boxes they were read from are the final ones iff no product is widened. -/
theorem impliedBounds_sound {q : ProductQuery} {input out : SolverInput}
    (hq : q.Formulated input out) {indexer : VarIndexer} (hrows : indexer.numRows = q.numRows)
    (hshape : ∀ ec ∈ q.constraints, EvaluatedShape ec q.vars.length q.numRows)
    (hclean : ∀ ec ∈ q.constraints, ∀ t ∈ ec.lhsTerms, ∀ r, r < q.numRows →
      t.rowCoefficients r = 0 ∨ coefficientCut < |t.rowCoefficients r|) :
    (ReadBoxesContain q input out ↔ NoProductWidened q input) ∧
      ∀ a, SatisfiesBuilt q out indexer a →
        (NoProductWidened q input ∨ ReadProductsNonneg q input indexer a) →
          WritesRespected q input indexer a := by
  refine ⟨readBoxesContain_iff hq, fun a ha hcond => ?_⟩
  have hprod : ReadProductsNonneg q input indexer a :=
    hcond.elim (readProductsNonneg_of_noProductWidened · hshape) id
  obtain ⟨hbuild, hform⟩ := id hq
  obtain ⟨-, -, huppers, hcons, -⟩ := buildSolverInput_spec hbuild
  obtain ⟨-, houtcons, -, -, -⟩ := formulateProducts_spec q.aux_nodup hform
  unfold WritesRespected
  rw [huppers]
  refine propagate_induction
    (P := fun u => ∀ v x, q.vars[v]? = some x → ∀ row, row < q.numRows →
      u.getD v 0 = x.box.upper ∨ a (indexer.get v row) ≤ u.getD v 0) ?_ ?_
  · intro v x hx _ _
    exact Or.inl (by simp [List.getD, hx])
  intro ec hec hreads t ht v hv u hu v' x hx row hrow
  rcases writeImpliedBound_cases ec input.lowerBounds q.numRows u v with hw | ⟨bound, hb, hlt, -, hw⟩
  · rw [hw]
    exact hu v' x hx row hrow
  · rw [hw]
    by_cases hvv : v = v'
    · subst hvv
      by_cases hlen : v < u.length
      · refine Or.inr ?_
        rw [getD_set_self _ _ hlen]
        have hf := readsFacts hreads
        have hmem : ec ∈ out.constraints.filter (·.plain) := by
          rw [houtcons, hcons]
          refine List.mem_filter.mpr ⟨List.mem_append_left _ hec, ?_⟩
          obtain ⟨h1, h2, h3⟩ := hf.untagged
          simp [EvaluatedConstraint.plain, h1, h2, h3]
        obtain ⟨rows, hok, hall⟩ := ha.rows ec hmem
        rw [← hrows] at hb hrow
        exact impliedBound_respected (hrows ▸ hreads) (hrows ▸ hshape ec hec)
          (nonnegTerms_of_satisfiesBuilt hq hrows ha hprod hec (hshape ec hec) (hclean ec hec)
            hreads) hok hall hb hrow
      · rw [List.set_eq_of_length_le (not_lt.mp hlen)]
        exact hu v x hx row hrow
    · rw [getD_set_ne _ _ hvv]
      exact hu v' x hx row hrow

/-! ## A row over a product that can be negative -/

theorem nodup_oneProduct : ([⟨2, 0, 1⟩] : List BilinearLinkSpec).map (·.auxIdx) |>.Nodup :=
  List.nodup_singleton 2

/-- `b * x + y <= 5` over an INTEGER `x` between -5 and 10 and an INTEGER `y` up to 10. -/
def rowOverProduct : ProductQuery where
  numRows := 1
  vars := [⟨"b", .boolean, .seed .boolean⟩,
    ⟨"x", .integer, absorbBounds .integer [(.ge, -5), (.le, 10)]⟩,
    ⟨"__bilinear_aux_0__", .integer, .seed .integer⟩,
    ⟨"y", .integer, absorbBounds .integer [(.le, 10)]⟩]
  constraints := [{ lhsTerms := [scalarTerm 2 1, scalarTerm 3 1]
                    rhsValues := fun _ => .fin 5
                    comparisonType := .le }]
  links := [⟨2, 0, 1⟩]
  aux_nodup := nodup_oneProduct

theorem rowOverProduct_formulated : ∃ input out, rowOverProduct.Formulated input out ∧
    input.lowerBounds = [0, -5, 0, 0] ∧ input.upperBounds = [1, 10, 5, 5] := by
  obtain ⟨input, hbuild, hlower, hupper⟩ : ∃ input, buildSolverInput rowOverProduct.numRows
      rowOverProduct.vars rowOverProduct.constraints = .ok input ∧
        input.lowerBounds = [0, -5, 0, 0] ∧ input.upperBounds = [1, 10, 5, 5] := by
    refine ⟨_, rfl, ?_, ?_⟩ <;> decide +kernel
  have hfin : ∀ link ∈ rowOverProduct.links,
      input.upperBounds.getD link.otherVarIdx 0 < solverInfinity := by
    rw [hupper]
    decide +kernel
  obtain ⟨out, hform⟩ := exists_formulateProducts (rowOverProduct.vars.map (·.name)) hfin
  exact ⟨input, out, ⟨hbuild, hform⟩, hlower, hupper⟩

theorem rowOverProduct_shape : ∀ ec ∈ rowOverProduct.constraints,
    EvaluatedShape ec rowOverProduct.vars.length rowOverProduct.numRows := by
  intro ec hec
  obtain rfl := List.mem_singleton.mp hec
  refine ⟨fun t ht v hv => ?_, fun h => by simp at h, fun h => by simp at h⟩
  simp only [List.mem_cons, List.not_mem_nil, or_false] at ht
  rcases ht with rfl | rfl <;> (obtain rfl := Option.some.inj hv; decide)

theorem rowOverProduct_clean : ∀ ec ∈ rowOverProduct.constraints, ∀ t ∈ ec.lhsTerms, ∀ r,
    r < rowOverProduct.numRows →
      t.rowCoefficients r = 0 ∨ coefficientCut < |t.rowCoefficients r| := by
  intro ec hec t ht r _
  obtain rfl := List.mem_singleton.mp hec
  simp only [List.mem_cons, List.not_mem_nil, or_false] at ht
  rcases ht with rfl | rfl <;> (right; norm_num [scalarTerm, coefficientCut])

/-- The assignment of the one row. -/
def rowOverProductAt (b x w y : ℤ) : Nat → ℚ := fun c => (([b, x, w, y].getD c 0 : ℤ) : ℚ)

/-- What the built model of the query accepts. -/
theorem rowOverProduct_satisfies {input out : SolverInput}
    (h : rowOverProduct.Formulated input out) (hlower : input.lowerBounds = [0, -5, 0, 0])
    (hupper : input.upperBounds = [1, 10, 5, 5]) {b x y : ℤ} (hb : b = 0 ∨ b = 1)
    (hx : -5 ≤ x ∧ x ≤ 10) (hy : 0 ≤ y ∧ y ≤ 10) (hsum : b * x + y ≤ 5) :
    SatisfiesBuilt rowOverProduct out (.rowScoped 1 3) (rowOverProductAt b x (b * x) y) := by
  obtain ⟨hbuild, hform⟩ := h
  obtain ⟨-, -, -, hcons, -⟩ := buildSolverInput_spec hbuild
  obtain ⟨-, houtcons, -, hother, hown⟩ := formulateProducts_spec rowOverProduct.aux_nodup hform
  have hw : -5 ≤ b * x ∧ b * x ≤ 10 := by
    rcases hb with rfl | rfl
    · simp
    · omega
  constructor
  · intro v var hv row hrow
    obtain rfl : row = 0 := Nat.lt_one_iff.mp hrow
    have hlt : v < 4 := (List.getElem?_eq_some_iff.mp hv).1
    have hdown : ∀ v, v ≠ 2 → out.lowerBounds.getD v 0 = [0, -5, 0, 0].getD v 0 := fun v hne => by
      rw [hother v (by simpa [rowOverProduct] using hne), hlower]
    have hwide : out.lowerBounds.getD 2 0 = -5 := by
      rw [(hown ⟨2, 0, 1⟩ List.mem_cons_self (by simp [hlower])).2, hlower]
      decide +kernel
    have hopen : (10 : ℚ) ≤ openBound := by norm_num [openBound]
    have hxq : (-5 : ℚ) ≤ x ∧ (x : ℚ) ≤ 10 := by exact_mod_cast hx
    have hyq : (0 : ℚ) ≤ y ∧ (y : ℚ) ≤ 10 := by exact_mod_cast hy
    have hwq : (-5 : ℚ) ≤ (b * x : ℤ) ∧ ((b * x : ℤ) : ℚ) ≤ 10 := by exact_mod_cast hw
    have hbq : (0 : ℚ) ≤ b ∧ (b : ℚ) ≤ 1 := by rcases hb with rfl | rfl <;> simp
    have hden : ∀ c, (rowOverProductAt b x (b * x) y c).den = 1 := fun c => Rat.den_intCast _
    have hten : (absorbBounds .integer [(.ge, -5), (.le, 10)]).upper = 10 ∧
        (absorbBounds .integer [(.le, 10)]).upper = 10 := by decide +kernel
    interval_cases v <;> obtain rfl := Option.some.inj hv
    · exact ⟨Or.inr (by rw [hdown 0 (by decide)]; exact hbq.1), Or.inr hbq.2, fun _ => hden _⟩
    · exact ⟨Or.inr (by rw [hdown 1 (by decide)]; exact hxq.1), Or.inr (hxq.2.trans hten.1.ge),
        fun _ => hden _⟩
    · exact ⟨Or.inr (by rw [hwide]; exact hwq.1), Or.inr (hwq.2.trans hopen), fun _ => hden _⟩
    · exact ⟨Or.inr (by rw [hdown 3 (by decide)]; exact hyq.1), Or.inr (hyq.2.trans hten.2.ge),
        fun _ => hden _⟩
  · intro ec hec
    rw [houtcons, hcons] at hec
    rcases List.mem_append.mp (List.mem_filter.mp hec).1 with hec | hec
    · obtain rfl := List.mem_singleton.mp hec
      refine rowsHold_of_perRowHolds rfl rfl rfl (Or.inl rfl) fun row hrow _ => ?_
      obtain rfl : row = 0 := Nat.lt_one_iff.mp hrow
      have hsum' : ((b * x : ℤ) : ℚ) + y ≤ 5 := by exact_mod_cast hsum
      simpa [EvaluatedConstraint.lhsValue, rowValue, rowVariablePart, decideRowFixedLhsOffset,
        scalarTerm, rowOverProductAt, VarIndexer.get, VarIndexer.rowScoped,
        DecideVarScope.column] using hsum'
    · have hec' : ec ∈ mcCormickRows ⟨input.lowerBounds, input.upperBounds⟩ ⟨2, 0, 1⟩ := by
        simpa [rowOverProduct] using hec
      obtain ⟨h1, h2, h3, h4⟩ := mcCormickRows_plain _ _ ec hec'
      refine rowsHold_of_perRowHolds h1 h2 h3 h4 fun row hrow _ => ?_
      obtain rfl : row = 0 := Nat.lt_one_iff.mp hrow
      have hrows : ProductRowsHold ⟨input.lowerBounds, input.upperBounds⟩ ⟨2, 0, 1⟩ 0
          fun v => rowOverProductAt b x (b * x) y ((VarIndexer.rowScoped 1 3).get v 0) := by
        refine (productRowsHold_iff _ _ 0 _ (L := -5) (U := 10) (by simp [hlower])
          (by simp [hupper]) (Int.cast_le.mpr hx.1) (Int.cast_le.mpr hx.2) ?_).mpr ?_
        · rcases hb with rfl | rfl
          · exact Or.inl rfl
          · exact Or.inr rfl
        · rw [if_pos (Or.inl (by norm_num))]
          exact Int.cast_mul b x
      exact hrows ec hec'

theorem impliedBounds_sound_rowOverProduct : ∃ input out, rowOverProduct.Formulated input out ∧
    WritesRespected rowOverProduct input (.rowScoped 1 3) (rowOverProductAt 1 2 2 3) := by
  obtain ⟨input, out, h, hlower, hupper⟩ := rowOverProduct_formulated
  refine ⟨input, out, h, (impliedBounds_sound h rfl rowOverProduct_shape rowOverProduct_clean).2 _
    (rowOverProduct_satisfies h hlower hupper (b := 1) (x := 2) (y := 3) (Or.inr rfl) (by decide)
      (by decide) (by decide)) (Or.inr ?_)⟩
  intro ec _ _ t _ link hlink _ _ row hrow
  obtain rfl := List.mem_singleton.mp hlink
  obtain rfl : row = 0 := Nat.lt_one_iff.mp hrow
  decide +kernel

/-- **A bound that cuts feasible points off**: `x = -5`, `y = 10` satisfies every row and every box,
and the pass has written 5 as the upper end of `y`. -/
theorem rowOverProduct_write_violated : ∃ input out, rowOverProduct.Formulated input out ∧
    ∃ a, SatisfiesBuilt rowOverProduct out (.rowScoped 1 3) a ∧
      ¬ WritesRespected rowOverProduct input (.rowScoped 1 3) a := by
  obtain ⟨input, out, h, hlower, hupper⟩ := rowOverProduct_formulated
  refine ⟨input, out, h, _, rowOverProduct_satisfies h hlower hupper (b := 1) (x := -5) (y := 10)
    (Or.inr rfl) (by decide) (by decide) (by decide), fun hw => ?_⟩
  have hy := hw 3 _ rfl 0 (by decide)
  rw [hupper] at hy
  revert hy
  decide +kernel

end Decidb
