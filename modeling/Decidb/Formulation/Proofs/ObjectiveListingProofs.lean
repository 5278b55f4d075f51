import Decidb.Formulation.Proofs.PassListingProofs

/-!
# What composed clauses and MIN/MAX objectives emit lists its columns once

Both pin auxiliaries of their own to linking rows; a composed constraint adds one outer row, accumulated
over all its terms.
-/

namespace Decidb

open Linear SolverInput

variable {indexer : VarIndexer} {s t u : SolverInput}

/-! ## Composed auxiliaries -/

/-- The auxiliaries of the MIN/MAX terms are fresh and distinct. -/
theorem emits_allocateComposed (terms : List ComposedMinMaxTermData) : ∀ {s : SolverInput},
    s.WellScoped indexer →
      let out := allocateComposed indexer s terms
      Emits indexer s out.1 True ∧
        List.Forall₂ (fun ta ta' => ta' = { ta with zIdx := ta'.zIdx }) terms out.2 ∧
        (∀ ta ∈ out.2, ta.aggName.isMinMax = true →
          s.width indexer ≤ ta.zIdx ∧ ta.zIdx < out.1.width indexer) ∧
        ((out.2.filter fun ta => ta.aggName.isMinMax).map (·.zIdx)).Nodup := by
  induction terms with
  | nil => exact fun hs => ⟨.refl hs, .nil, by simp [allocateComposed], by simp [allocateComposed]⟩
  | cons ta terms ih =>
    intro s hs
    unfold allocateComposed
    cases hmm : ta.aggName.isMinMax with
    | false =>
      obtain ⟨hemit, hsame, hlt, hnodup⟩ := ih hs
      rw [if_neg (by simp)]
      dsimp only
      refine ⟨hemit, .cons rfl hsame, fun ta' hta' hmm' => ?_, ?_⟩
      · rcases List.mem_cons.mp hta' with rfl | hta'
        · rw [hmm] at hmm'
          cases hmm'
        · exact hlt ta' hta' hmm'
      · rw [List.filter_cons_of_neg (by simp [hmm])]
        exact hnodup
    | true =>
      have hadd := emits_addGlobalContinuousAux hs (composedTermRange s ta)
      have hwidth := @addGlobalContinuousAux_width s indexer
        (composedTermRange s ta)
      obtain ⟨hemit, hsame, hlt, hnodup⟩ := ih hadd.wellScoped
      rw [if_pos rfl]
      dsimp only
      refine ⟨hadd.trans_true hemit, .cons rfl hsame, fun ta' hta' hmm' => ?_, ?_⟩
      · have hle := hemit.width_le
        rcases List.mem_cons.mp hta' with rfl | hta'
        · exact ⟨le_rfl, by show s.width indexer < _; omega⟩
        · have := hlt ta' hta' hmm'
          omega
      · rw [List.filter_cons_of_pos (by simpa using hmm), List.map_cons, List.nodup_cons]
        refine ⟨fun hmem => ?_, hnodup⟩
        obtain ⟨ta', hta', heq⟩ := List.mem_map.mp hmem
        obtain ⟨hta', hmm'⟩ := List.mem_filter.mp hta'
        have hge := (hlt ta' hta' hmm').1
        have heq' : ta'.zIdx = s.width indexer := heq
        omega

theorem composedMembers_listed (hrows : s.numRows = indexer.numRows) (ta : ComposedMinMaxTermData) :
    ∀ m ∈ composedMembers s indexer ta, LinkListed indexer.globalBlockStart m.link := by
  intro m hm
  obtain ⟨r, hr, rfl⟩ := List.mem_map.mp hm
  refine composedLink_listed ta.innerTerms ?_
  rw [← hrows]
  exact List.mem_range.mp (List.mem_filter.mp hr).1

/-- The native arm of one term. -/
def ComposedTermClean (indexer : VarIndexer) (policy : NativeConstructPolicy) (input : SolverInput)
    (ta : ComposedMinMaxTermData) : Prop :=
  ta.aggName.isMinMax = true →
    LinkClean policy (!ta.isEasy) (composedTermRange input ta).unbounded
      (composedMembers input indexer ta)

/-- The column of a term has no say in its native arm. -/
theorem composedTermsClean_of_same {policy : NativeConstructPolicy}
    {terms terms' : List ComposedMinMaxTermData}
    (h : List.Forall₂ (fun ta ta' => ta' = { ta with zIdx := ta'.zIdx }) terms terms') :
    (∀ ta ∈ terms', ComposedTermClean indexer policy s ta) ↔
      ComposedTermsClean indexer policy s terms := by
  unfold ComposedTermsClean
  induction h with
  | nil => simp
  | cons hsame _ ih =>
    rw [List.forall_mem_cons, List.forall_mem_cons]
    refine and_congr ?_ ih
    rw [hsame]
    rfl

/-- **Composed auxiliaries.** -/
theorem emits_composedAuxiliaries {terms terms' : List ComposedMinMaxTermData} {varNames : List String}
    {policy : NativeConstructPolicy} (hs : s.WellScoped indexer)
    (hout : emitComposedMinMaxAuxiliaries s indexer terms varNames policy = .ok (u, terms')) :
    Emits indexer s u (ComposedTermsClean indexer policy s terms) ∧
      List.Forall₂ (fun ta ta' => ta' = { ta with zIdx := ta'.zIdx }) terms terms' ∧
      (∀ ta ∈ terms', ta.aggName.isMinMax = true →
        s.width indexer ≤ ta.zIdx ∧ ta.zIdx < u.width indexer) ∧
      ((terms'.filter fun ta => ta.aggName.isMinMax).map (·.zIdx)).Nodup := by
  obtain ⟨halloc, hsame, hlt, hnodup⟩ := emits_allocateComposed terms hs
  unfold emitComposedMinMaxAuxiliaries at hout
  set alloc := allocateComposed indexer s terms with halloc_eq
  dsimp only at hout
  cases hloop : alloc.2.foldlM (emitComposedTerm s indexer varNames policy) alloc.1 with
  | error e =>
    rw [hloop] at hout
    cases hout
  | ok v =>
    rw [hloop] at hout
    obtain ⟨rfl, rfl⟩ := Prod.mk.inj (Except.ok.inj hout)
    have hemit := Emits.foldlM id (s := alloc.1) (C := ComposedTermClean indexer policy s)
      (fun ta hta x y hx hxy => ?_) (.refl halloc.wellScoped) hloop
    · have hle : alloc.1.width indexer ≤ v.width indexer := hemit.width_le
      refine ⟨(halloc.true_trans hemit).congr ?_, hsame, fun ta hta hmm => ?_, hnodup⟩
      · exact composedTermsClean_of_same hsame
      · have := hlt ta hta hmm
        omega
    · unfold emitComposedTerm at hxy
      cases hmm : ta.aggName.isMinMax with
      | false =>
        rw [hmm, if_neg (by simp)] at hxy
        obtain rfl := Except.ok.inj hxy
        refine (Emits.refl hx.wellScoped).congr (iff_of_true trivial fun h => ?_)
        rw [hmm] at h
        cases h
      | true =>
        rw [hmm, if_pos rfl] at hxy
        dsimp only at hxy
        obtain ⟨hge, hz⟩ := hlt ta hta hmm
        have hgbs : indexer.globalBlockStart ≤ s.width indexer := Nat.le_add_right _ _
        have hwx : alloc.1.width indexer ≤ (id x).width indexer := hx.width_le
        refine (emits_extremumLink hx.wellScoped (hz.trans_le hwx) (fun m hm =>
          (composedMembers_listed hs.numRows_eq ta m hm).member (hgbs.trans hge) ?_) hxy).congr
          ⟨fun h _ => h, fun h => h hmm⟩
        exact Nat.le_add_right _ _

/-! ## The outer row -/

/-- One row of one inner term adds to one column. -/
theorem coefficient_addOuterEntry (ta : ComposedMinMaxTermData) (d : ℚ) (inner : LhsTerm)
    (rows : List Nat) (c : Nat) : ∀ acc : Form Nat ℚ × ℚ,
    Form.coefficient (rows.foldl (addOuterEntry indexer ta d inner) acc).1 c =
      Form.coefficient acc.1 c +
        Form.coefficient (rows.foldl (addOuterEntry indexer ta d inner) ([], 0)).1 c := by
  suffices h : ∀ acc : Form Nat ℚ × ℚ,
      Form.coefficient (rows.foldl (addOuterEntry indexer ta d inner) acc).1 c =
        Form.coefficient acc.1 c + (rows.map fun r =>
          Form.coefficient (addOuterEntry indexer ta d inner ([], 0) r).1 c).sum by
    intro acc
    rw [h acc, h ([], 0), Form.coefficient_nil, zero_add]
  induction rows with
  | nil => intro acc; simp
  | cons r rows ih =>
    intro acc
    rw [List.foldl_cons, ih, List.map_cons, List.sum_cons, ← add_assoc]
    refine congrArg (· + _) ?_
    unfold addOuterEntry
    cases inner.variableIndex <;> simp [Form.addColumn, Form.coefficient_cons]

/-- One term adds to the columns of the outer row what it puts there on its own. -/
theorem coefficient_addOuterTerm (numRows : Nat) (ta : ComposedMinMaxTermData) (c : Nat)
    (acc : Form Nat ℚ × ℚ) :
    Form.coefficient (addOuterTerm indexer numRows acc ta).1 c =
      Form.coefficient acc.1 c +
        Form.coefficient (addOuterTerm indexer numRows ([], 0) ta).1 c := by
  unfold addOuterTerm
  split
  · simp [Form.addColumn, Form.coefficient_cons]
  · dsimp only
    split
    · simp
    · suffices h : ∀ (terms : List LhsTerm) (acc : Form Nat ℚ × ℚ),
          Form.coefficient (terms.foldl (fun acc inner =>
              (ta.rows numRows).foldl (addOuterEntry indexer ta
                (if ta.aggName = .avg then ((ta.rows numRows).length : ℚ) else 1) inner) acc) acc).1 c =
            Form.coefficient acc.1 c + (terms.map fun inner =>
              Form.coefficient ((ta.rows numRows).foldl (addOuterEntry indexer ta
                (if ta.aggName = .avg then ((ta.rows numRows).length : ℚ) else 1) inner)
                  ([], 0)).1 c).sum by
        rw [h _ acc, h _ ([], 0), Form.coefficient_nil, zero_add]
      intro terms
      induction terms with
      | nil => intro acc; simp
      | cons inner terms ih =>
        intro acc
        rw [List.foldl_cons, ih, List.map_cons, List.sum_cons, coefficient_addOuterEntry, add_assoc]

/-- A reducer that folds into the row reads no column of its own. -/
theorem addOuterTerm_zIdx {ta : ComposedMinMaxTermData} (hmm : ta.aggName.isMinMax = false)
    (numRows z : Nat) (acc : Form Nat ℚ × ℚ) :
    addOuterTerm indexer numRows acc { ta with zIdx := z } = addOuterTerm indexer numRows acc ta := by
  unfold addOuterTerm
  simp only [hmm]
  rfl

/-- The entries of the auxiliaries in the outer row. -/
def outerAuxEntries (terms : List ComposedMinMaxTermData) : Form Nat ℚ :=
  (terms.filter fun ta => ta.aggName.isMinMax).map fun ta => (ta.zIdx, (ta.sign : ℚ) * ta.scale)

/-- The terms of a composed clause that fold into its outer row. -/
def outerReducers (indexer : VarIndexer) (numRows : Nat) (terms : List ComposedMinMaxTermData) :
    Form Nat ℚ × ℚ :=
  (terms.filter fun ta => !ta.aggName.isMinMax).foldl (addOuterTerm indexer numRows) ([], 0)

theorem coefficient_foldl_addOuterTerm (numRows : Nat) (terms : List ComposedMinMaxTermData) (c : Nat) :
    ∀ acc : Form Nat ℚ × ℚ,
    Form.coefficient (terms.foldl (addOuterTerm indexer numRows) acc).1 c =
      Form.coefficient acc.1 c + (terms.map fun ta =>
        Form.coefficient (addOuterTerm indexer numRows ([], 0) ta).1 c).sum := by
  induction terms with
  | nil => intro acc; simp
  | cons ta terms ih =>
    intro acc
    rw [List.foldl_cons, ih, coefficient_addOuterTerm, List.map_cons, List.sum_cons, add_assoc]

/-- The coefficient of a column in the outer row: the auxiliaries' share and the reducers'. -/
theorem coefficient_outerRow (numRows : Nat) (terms : List ComposedMinMaxTermData) (k : ℚ) (c : Nat) :
    Form.coefficient (terms.foldl (addOuterTerm indexer numRows) ([], k)).1 c =
      Form.coefficient (outerAuxEntries terms) c +
        Form.coefficient (outerReducers indexer numRows terms).1 c := by
  unfold outerAuxEntries outerReducers
  rw [coefficient_foldl_addOuterTerm, coefficient_foldl_addOuterTerm, Form.coefficient_nil, zero_add,
    zero_add]
  induction terms with
  | nil => simp
  | cons ta terms ih =>
    cases hmm : ta.aggName.isMinMax with
    | true =>
      rw [List.filter_cons_of_pos (by simpa using hmm), List.filter_cons_of_neg (by simp [hmm]),
        List.map_cons, List.sum_cons, ih, List.map_cons, Form.coefficient_cons, add_assoc]
      refine congrArg (· + _) ?_
      unfold addOuterTerm
      rw [hmm, if_pos rfl]
      simp [Form.addColumn, Form.coefficient_cons]
    | false =>
      rw [List.filter_cons_of_neg (by simp [hmm]), List.filter_cons_of_pos (by simp [hmm]),
        List.map_cons, List.sum_cons, ih, List.map_cons, List.sum_cons]
      ring

/-- A form lists every column once, all of them of one kind. -/
structure ListsOnly (P : Nat → Prop) (f : Form Nat ℚ) : Prop where
  nodup : (f.map (·.1)).Nodup
  of_mem : ∀ e ∈ f, P e.1

namespace ListsOnly

variable {P : Nat → Prop} {f : Form Nat ℚ}

theorem addColumn (h : ListsOnly P f) {c : Nat} (hc : P c) (k : ℚ) :
    ListsOnly P (Form.addColumn f c k) := by
  refine ⟨Form.nodup_addColumn h.nodup c k, fun e he => ?_⟩
  rcases Form.mem_addColumn he with heq | ⟨w, hw, hwe⟩
  · rw [heq]
    exact hc
  · rw [← hwe]
    exact h.of_mem w hw

/-- A loop that accumulates into the first part of its state. -/
theorem foldl {α : Type} {step : Form Nat ℚ × ℚ → α → Form Nat ℚ × ℚ} (l : List α)
    (hstep : ∀ x ∈ l, ∀ acc, ListsOnly P acc.1 → ListsOnly P (step acc x).1) :
    ∀ {acc : Form Nat ℚ × ℚ}, ListsOnly P acc.1 → ListsOnly P (l.foldl step acc).1 := by
  induction l with
  | nil => exact fun h => h
  | cons x l ih =>
    exact fun h => ih (fun y hy => hstep y (List.mem_cons_of_mem _ hy))
      (hstep x List.mem_cons_self _ h)

theorem addOuterTerm {numRows : Nat} {ta : ComposedMinMaxTermData} {acc : Form Nat ℚ × ℚ}
    (hcol : ∀ v r, r < numRows → P (indexer.get v r)) (hz : ta.aggName.isMinMax = true → P ta.zIdx)
    (h : ListsOnly P acc.1) : ListsOnly P (addOuterTerm indexer numRows acc ta).1 := by
  unfold Decidb.addOuterTerm
  split
  · rename_i hmm
    exact h.addColumn (hz hmm) _
  · dsimp only
    split
    · exact h
    · refine foldl _ (fun inner _ acc h => foldl _ (fun r hr acc h => ?_) h) h
      unfold addOuterEntry
      cases inner.variableIndex with
      | none => exact h
      | some v => exact h.addColumn (hcol v r (List.mem_range.mp (List.mem_filter.mp hr).1)) _

end ListsOnly

/-- The outer row keeps a column when an auxiliary has a factor or the reducers leave something. -/
theorem outerRow_ne_nil_iff {numRows n : Nat} {terms terms' : List ComposedMinMaxTermData} {k : ℚ}
    (hrows : numRows = indexer.numRows) (hn : indexer.globalBlockStart ≤ n)
    (hsame : List.Forall₂ (fun ta ta' => ta' = { ta with zIdx := ta'.zIdx }) terms terms')
    (hz : ∀ ta ∈ terms', ta.aggName.isMinMax = true → n ≤ ta.zIdx)
    (hnodup : ((terms'.filter fun ta => ta.aggName.isMinMax).map (·.zIdx)).Nodup) :
    ((terms'.foldl (addOuterTerm indexer numRows) ([], k)).1.filter fun t => t.2 ≠ 0) ≠ [] ↔
      OuterRowKeepsColumn indexer numRows terms := by
  have houter : ListsOnly (fun _ => True) (terms'.foldl (addOuterTerm indexer numRows) ([], k)).1 :=
    ListsOnly.foldl terms' (fun ta _ acc h => h.addOuterTerm (fun _ _ _ => trivial) fun _ => trivial)
      ⟨List.nodup_nil, fun _ _ => trivial⟩
  rw [Form.ne_nil_iff_coefficient (Form.nodup_filter houter.nodup _)
    fun e he => by simpa using (List.mem_filter.mp he).2]
  have hfilter : ∀ c, Form.coefficient
      ((terms'.foldl (addOuterTerm indexer numRows) ([], k)).1.filter fun t => t.2 ≠ 0) c =
        Form.coefficient (outerAuxEntries terms') c +
          Form.coefficient (outerReducers indexer numRows terms').1 c := by
    intro c
    rw [Form.coefficient_filter_of_zero _ _ _ fun t _ ht => by simpa using ht, coefficient_outerRow]
  -- the reducers reach decision columns only, the auxiliaries lie after them
  have hreducers : ∀ c, indexer.globalBlockStart ≤ c →
      Form.coefficient (outerReducers indexer numRows terms').1 c = 0 := by
    intro c hc
    have honly : ListsOnly (· < indexer.globalBlockStart)
        (outerReducers indexer numRows terms').1 :=
      ListsOnly.foldl _ (fun ta hta acc h => h.addOuterTerm
        (fun v r hr => indexer.get_lt v (hrows ▸ hr))
        fun hmm => by simp [hmm] at hta) ⟨List.nodup_nil, by simp⟩
    refine Form.coefficient_of_not_mem fun hmem => ?_
    obtain ⟨e, he, heq⟩ := List.mem_map.mp hmem
    have := honly.of_mem e he
    have heq' : e.1 = c := heq
    omega
  have haux : ∀ c, c < indexer.globalBlockStart →
      Form.coefficient (outerAuxEntries terms') c = 0 := by
    intro c hc
    refine Form.coefficient_of_not_mem fun hmem => ?_
    unfold outerAuxEntries at hmem
    rw [List.map_map] at hmem
    obtain ⟨ta, hta, heq⟩ := List.mem_map.mp hmem
    obtain ⟨hta, hmm⟩ := List.mem_filter.mp hta
    have := hz ta hta hmm
    have heq' : ta.zIdx = c := heq
    omega
  have hauxNodup : ((outerAuxEntries terms').map (·.1)).Nodup := by
    unfold outerAuxEntries
    rw [List.map_map]
    exact hnodup
  have hreducers_same : outerReducers indexer numRows terms' = outerReducers indexer numRows terms := by
    clear hz hnodup houter hfilter hreducers haux hauxNodup
    unfold outerReducers
    generalize (([], 0) : Form Nat ℚ × ℚ) = acc
    induction hsame generalizing acc with
    | nil => rfl
    | @cons ta ta' _ _ h _ ih =>
      have hname : ta'.aggName = ta.aggName := by rw [h]
      rw [List.filter_cons, List.filter_cons, hname]
      cases hmm : ta.aggName.isMinMax with
      | true => exact ih acc
      | false =>
        rw [if_pos (by simp), if_pos (by simp), List.foldl_cons, List.foldl_cons]
        rw [h, addOuterTerm_zIdx hmm]
        exact ih _
  have hfactor : (∃ ta ∈ terms', ta.aggName.isMinMax = true ∧ (ta.sign : ℚ) * ta.scale ≠ 0) ↔
      ∃ ta ∈ terms, ta.aggName.isMinMax = true ∧ (ta.sign : ℚ) * ta.scale ≠ 0 := by
    clear hz hnodup houter hfilter hreducers haux hauxNodup hreducers_same
    induction hsame with
    | nil => simp
    | @cons ta ta' _ _ h _ ih =>
      rw [List.exists_mem_cons_iff, List.exists_mem_cons_iff]
      refine or_congr ?_ ih
      rw [h]
  unfold OuterRowKeepsColumn
  rw [← hfactor]
  change _ ↔ _ ∨ ∃ c, Form.coefficient (outerReducers indexer numRows terms).1 c ≠ 0
  rw [← hreducers_same]
  constructor
  · rintro ⟨c, hc⟩
    rw [hfilter] at hc
    rcases Nat.lt_or_ge c indexer.globalBlockStart with hlt | hge
    · rw [haux c hlt, zero_add] at hc
      exact Or.inr ⟨c, hc⟩
    · rw [hreducers c hge, add_zero] at hc
      have hmem : c ∈ (outerAuxEntries terms').map (·.1) := by
        by_contra hnot
        exact hc (Form.coefficient_of_not_mem hnot)
      obtain ⟨e, he, rfl⟩ := List.mem_map.mp hmem
      rw [Form.coefficient_of_mem hauxNodup he] at hc
      obtain ⟨ta, hta, rfl⟩ := List.mem_map.mp he
      obtain ⟨hta, hmm⟩ := List.mem_filter.mp hta
      exact Or.inl ⟨ta, hta, hmm, hc⟩
  · rintro (⟨ta, hta, hmm, hne⟩ | ⟨c, hc⟩)
    · have he : (ta.zIdx, (ta.sign : ℚ) * ta.scale) ∈ outerAuxEntries terms' :=
        List.mem_map.mpr ⟨ta, List.mem_filter.mpr ⟨hta, hmm⟩, rfl⟩
      refine ⟨ta.zIdx, ?_⟩
      rw [hfilter, hreducers _ (hn.trans (hz ta hta hmm)), add_zero,
        Form.coefficient_of_mem hauxNodup he]
      exact hne
    · have hlt : c < indexer.globalBlockStart := by
        by_contra hge
        exact hc (hreducers c (by omega))
      refine ⟨c, ?_⟩
      rw [hfilter, haux c hlt, zero_add]
      exact hc

/-- **A composed constraint.** -/
theorem emits_composedConstraint {terms : List ComposedMinMaxTermData} {rhs : ℚ} {cmp : Comparison}
    {varNames : List String} {policy : NativeConstructPolicy} (hs : s.WellScoped indexer)
    (hout : linearizeComposedMinMaxConstraint s indexer terms rhs cmp varNames policy = .ok u) :
    Emits indexer s u (ComposedTermsClean indexer policy s terms ∧
      OuterRowKeepsColumn indexer s.numRows terms) := by
  unfold linearizeComposedMinMaxConstraint at hout
  cases haux : emitComposedMinMaxAuxiliaries s indexer terms varNames policy with
  | error e =>
    rw [haux] at hout
    cases hout
  | ok p =>
    obtain ⟨linked, terms'⟩ := p
    rw [haux] at hout
    dsimp only at hout
    obtain ⟨hemit, hsame, hz, hnodup⟩ := emits_composedAuxiliaries hs haux
    cases hsense : composedOuterSense cmp with
    | error e =>
      rw [hsense] at hout
      cases hout
    | ok sense =>
      rw [hsense] at hout
      obtain rfl := Except.ok.inj hout
      have hgbs : indexer.globalBlockStart ≤ s.width indexer := Nat.le_add_right _ _
      have houter : ListsOnly (· < linked.width indexer)
          (terms'.foldl (addOuterTerm indexer s.numRows) ([], rhs)).1 :=
        ListsOnly.foldl terms' (fun ta hta acc h => h.addOuterTerm
          (fun v r hr => (indexer.get_lt v (hs.numRows_eq ▸ hr)).trans_le
            (hgbs.trans hemit.width_le))
          fun hmm => (hz ta hta hmm).2) ⟨List.nodup_nil, by simp⟩
      refine (hemit.trans (emits_pushRow hemit.wellScoped fun e he =>
        houter.of_mem e (List.mem_filter.mp he).1)).congr (and_congr_right fun _ => ?_)
      rw [← outerRow_ne_nil_iff (k := rhs) hs.numRows_eq hgbs hsame
        (fun ta hta hmm => (hz ta hta hmm).1) hnodup]
      exact ⟨fun h => h.ne_nil, fun h => ⟨Form.nodup_filter houter.nodup _, h⟩⟩

/-- **A composed objective.** -/
theorem emits_composedObjective {obj : LinearObjective} {terms : List ComposedMinMaxTermData}
    {varNames : List String} {policy : NativeConstructPolicy} {out : SolverInput × LinearObjective}
    (hs : s.WellScoped indexer)
    (hout : linearizeComposedMinMaxObjective s indexer obj terms varNames policy = .ok out) :
    Emits indexer s out.1 (ComposedTermsClean indexer policy s terms) := by
  unfold linearizeComposedMinMaxObjective at hout
  cases haux : emitComposedMinMaxAuxiliaries s indexer terms varNames policy with
  | error e =>
    rw [haux] at hout
    cases hout
  | ok p =>
    rw [haux] at hout
    obtain rfl := Except.ok.inj hout
    exact (emits_composedAuxiliaries hs haux).1

/-! ## MIN/MAX objectives -/

theorem objectiveMember_listed (hrows : s.numRows = indexer.numRows) (terms : List LhsTerm) {r : Nat}
    (hr : r < s.numRows) :
    LinkListed indexer.globalBlockStart (objectiveMember s indexer terms r).link := by
  rw [hrows] at hr
  exact addObjectiveRowTerms_listed terms 1 (.empty _) hr

/-- Pinning a column touches no row. -/
theorem emits_pinGlobalAux (hs : s.WellScoped indexer) (z : Nat) (k : ℚ) :
    Emits indexer s (s.pinGlobalAux indexer z k) True := by
  have hwidth : (s.pinGlobalAux indexer z k).width indexer = s.width indexer := by
    show _ + (List.modify _ _ _).length = _
    rw [List.length_modify]
    rfl
  refine ⟨⟨⟨hs.numRows_eq, ?_, ?_, ?_⟩, hwidth.ge, rfl⟩, ?_⟩
  · rw [hwidth]
    exact hs.rows
  · rw [hwidth]
    exact hs.generals
  · rw [hwidth]
    exact hs.indicators
  · rw [and_true]
    exact ⟨fun h => ⟨h.rows, h.generals, h.indicators⟩, fun h => ⟨h.rows, h.generals, h.indicators⟩⟩

/-- The link of an objective, from an input grown from `s`. -/
theorem emits_objectiveLink {z : Nat} {isMax isEasy : Bool} {family : AuxRange}
    {members : List ExtremumMember} {varNames : List String} {policy : NativeConstructPolicy}
    (ht : t.WellScoped indexer) (hz : z < t.width indexer)
    (hmem : ∀ m ∈ members, MemberListed (t.width indexer) z m)
    (hout : emitExtremumLink t indexer (objectiveLink z isMax isEasy family) members varNames policy
      = .ok u) :
    Emits indexer t u (LinkClean policy (!isEasy) family.unbounded members) :=
  emits_extremumLink ht hz hmem hout

/-- **A flat MIN/MAX objective.** -/
theorem emits_flatObjective {spec : MinMaxObjectiveSpec} {obj : LinearObjective}
    {varNames : List String} {policy : NativeConstructPolicy} {out : SolverInput × LinearObjective}
    (hs : s.WellScoped indexer)
    (hout : linearizeFlatObjective s indexer spec obj varNames policy = .ok out) :
    Emits indexer s out.1 (LinkClean policy (!spec.flatIsEasy) (rowFamily s obj.savedTerms).unbounded
      ((flatActiveRows spec s.numRows obj.savedTerms).map
        (objectiveMember s indexer obj.savedTerms))) := by
  unfold linearizeFlatObjective at hout
  dsimp only at hout
  split at hout
  · cases hout
  · have hadd := emits_addGlobalContinuousAux hs (rowFamily s obj.savedTerms)
    have hwidth := @addGlobalContinuousAux_width s indexer
      (rowFamily s obj.savedTerms)
    have hgbs : indexer.globalBlockStart ≤ s.width indexer := Nat.le_add_right _ _
    split at hout
    · cases hout
    · rename_i v hlink
      obtain rfl := Except.ok.inj hout
      refine hadd.true_trans (emits_objectiveLink hadd.wellScoped
        (by rw [hwidth]; exact Nat.lt_succ_self _) (fun m hm => ?_) hlink)
      obtain ⟨r, hr, rfl⟩ := List.mem_map.mp hm
      refine (objectiveMember_listed hs.numRows_eq _ ?_).member hgbs (by omega)
      exact List.mem_range.mp (List.mem_filter.mp hr).1

/-- The auxiliaries of the groups are fresh and distinct. -/
theorem emits_allocateGroups (range : AuxRange) (gs : List Nat) : ∀ {s : SolverInput},
    s.WellScoped indexer →
      let out := allocateGroups indexer range s gs
      Emits indexer s out.1 True ∧ out.2.map (·.1) = gs ∧
        (∀ gz ∈ out.2, s.width indexer ≤ gz.2 ∧ gz.2 < out.1.width indexer) ∧
        (out.2.map (·.2)).Nodup := by
  induction gs with
  | nil => exact fun hs => ⟨.refl hs, rfl, by simp [allocateGroups], by simp [allocateGroups]⟩
  | cons g gs ih =>
    intro s hs
    have hadd := emits_addGlobalContinuousAux hs range
    have hwidth := @addGlobalContinuousAux_width s indexer range
    obtain ⟨hemit, hgroups, hlt, hnodup⟩ := ih hadd.wellScoped
    have hle := hemit.width_le
    refine ⟨hadd.true_trans hemit, congrArg (g :: ·) hgroups, fun gz hgz => ?_, ?_⟩
    · rcases List.mem_cons.mp hgz with rfl | hgz
      · rw [hwidth] at hle
        exact ⟨le_rfl, hle⟩
      · have := hlt gz hgz
        exact ⟨by omega, this.2⟩
    · refine List.nodup_cons.mpr ⟨fun hmem => ?_, hnodup⟩
      obtain ⟨gz, hgz, heq⟩ := List.mem_map.mp hmem
      have hge := (hlt gz hgz).1
      have heq' : gz.2 = s.width indexer := heq
      omega

/-- The native arm of one group. -/
def ObjectiveGroupClean (indexer : VarIndexer) (policy : NativeConstructPolicy) (input : SolverInput)
    (spec : MinMaxObjectiveSpec) (groups : ObjectiveGroups) (terms : List LhsTerm) (g : Nat) : Prop :=
  LinkClean policy (!spec.perInnerIsEasy) (rowFamily input terms).unbounded
    (((groups.rows input.numRows g).filter (isActiveRow terms)).map
      (objectiveMember input indexer terms))

/-- The link of one group. -/
theorem emits_objectiveGroup {spec : MinMaxObjectiveSpec} {groups : ObjectiveGroups}
    {terms : List LhsTerm} {varNames : List String} {policy : NativeConstructPolicy} {gz : Nat × Nat}
    (hs : s.WellScoped indexer) (ht : t.WellScoped indexer) (hz : s.width indexer ≤ gz.2)
    (hzt : gz.2 < t.width indexer) (hle : s.width indexer ≤ t.width indexer)
    (hout : emitObjectiveGroup s indexer spec groups terms varNames policy t gz = .ok u) :
    Emits indexer t u (ObjectiveGroupClean indexer policy s spec groups terms gz.1) := by
  unfold emitObjectiveGroup at hout
  unfold ObjectiveGroupClean
  dsimp only at hout
  have hgbs : indexer.globalBlockStart ≤ s.width indexer := Nat.le_add_right _ _
  split at hout
  · rename_i hempty
    obtain rfl := Except.ok.inj hout
    rw [List.isEmpty_iff.mp hempty]
    exact (emits_pinGlobalAux ht _ _).congr (iff_of_true trivial fun _ _ => List.nodup_nil)
  · refine emits_objectiveLink ht hzt (fun m hm => ?_) hout
    obtain ⟨r, hr, rfl⟩ := List.mem_map.mp hm
    refine (objectiveMember_listed hs.numRows_eq _ ?_).member (hgbs.trans hz) (hgbs.trans hle)
    exact List.mem_range.mp (List.mem_filter.mp (List.mem_filter.mp hr).1).1

/-- A member that is a column renames it. -/
theorem soleColumn_addColumn (z : Nat) :
    (({} : MinMaxLinkRow).addColumn z (-1)).soleColumn? = some z := by
  have hform : (({} : MinMaxLinkRow).addColumn z (-1)).appendTo = [(z, -1)] :=
    List.filter_cons_of_pos (by norm_num [coefficientCut])
  unfold MinMaxLinkRow.soleColumn?
  rw [hform]
  simp [MinMaxLinkRow.addColumn]

/-- **An inner MIN/MAX**: the columns of the groups are distinct, so its outer link renames none twice. -/
theorem emits_innerMinMax {spec : MinMaxObjectiveSpec} {groups : ObjectiveGroups}
    {obj : LinearObjective} {varNames : List String} {policy : NativeConstructPolicy}
    {out : SolverInput × LinearObjective} (hs : s.WellScoped indexer)
    (hout : linearizeInnerMinMax s indexer spec groups obj varNames policy = .ok out) :
    Emits indexer s out.1 (∀ g, g < groups.numGroups →
      ObjectiveGroupClean indexer policy s spec groups obj.savedTerms g) := by
  unfold linearizeInnerMinMax at hout
  dsimp only at hout
  set family := rowFamily s obj.savedTerms with hfamily
  obtain ⟨halloc, hgroups, hzs, hnodup⟩ := @emits_allocateGroups indexer family
    (List.range groups.numGroups) s hs
  set alloc := allocateGroups indexer family s (List.range groups.numGroups) with halloc_eq
  cases hloop : alloc.2.foldlM
      (emitObjectiveGroup s indexer spec groups obj.savedTerms varNames policy) alloc.1 with
  | error e =>
    rw [hloop] at hout
    cases hout
  | ok v =>
    rw [hloop] at hout
    have hstep : ∀ gz ∈ alloc.2, ∀ x y, Grown indexer alloc.1 x →
        emitObjectiveGroup s indexer spec groups obj.savedTerms varNames policy x gz = .ok y →
          Emits indexer x y (ObjectiveGroupClean indexer policy s spec groups obj.savedTerms gz.1) :=
      fun gz hgz x y hx hxy => emits_objectiveGroup hs hx.wellScoped (hzs gz hgz).1
        ((hzs gz hgz).2.trans_le hx.width_le) (halloc.width_le.trans hx.width_le) hxy
    have hv : Emits indexer alloc.1 v (∀ gz ∈ alloc.2,
        ObjectiveGroupClean indexer policy s spec groups obj.savedTerms gz.1) :=
      Emits.foldlM id hstep (.refl halloc.wellScoped) hloop
    have hgrown : Emits indexer s v (∀ g, g < groups.numGroups →
        ObjectiveGroupClean indexer policy s spec groups obj.savedTerms g) := by
      refine (halloc.true_trans hv).congr ?_
      rw [← List.forall_mem_map (f := Prod.fst) (P := ObjectiveGroupClean indexer policy s spec groups
        obj.savedTerms), hgroups]
      simp only [List.mem_range]
    have houter : ∀ {isMax : Bool} {w : SolverInput},
        emitExtremumLink (v.addGlobalContinuousAux indexer family).1 indexer
          (objectiveLink (v.width indexer) isMax spec.perOuterIsEasy family)
          (alloc.2.map fun gz =>
            { link := ({} : MinMaxLinkRow).addColumn gz.2 (-1), range := family : ExtremumMember })
          varNames policy = .ok w → Emits indexer v w True := by
      intro isMax w hlink
      have hadd := emits_addGlobalContinuousAux hv.wellScoped family
      have hwidth := @addGlobalContinuousAux_width v indexer family
      have hle : alloc.1.width indexer ≤ v.width indexer := hv.width_le
      refine hadd.true_trans ((emits_objectiveLink hadd.wellScoped
        (by show v.width indexer < _; erw [hwidth]; exact Nat.lt_succ_self _) (fun m hm => ?_)
          hlink).always fun _ _ => ?_)
      · obtain ⟨gz, hgz, rfl⟩ := List.mem_map.mp hm
        have hz := hzs gz hgz
        have hform : (({} : MinMaxLinkRow).addColumn gz.2 (-1)).form = [(gz.2, -1)] := rfl
        refine ⟨?_, fun e he => ?_, fun e he => ?_⟩
        · rw [hform]
          exact List.nodup_singleton _
        · rw [hform, List.mem_singleton] at he
          rw [he]
          erw [hwidth]
          show gz.2 < _
          omega
        · rw [hform, List.mem_singleton] at he
          rw [he]
          show gz.2 ≠ v.width indexer
          omega
      · unfold RenamesDistinct
        rw [List.filterMap_map]
        have hsole : (fun m : ExtremumMember => m.link.soleColumn?) ∘ (fun gz : Nat × Nat =>
            { link := ({} : MinMaxLinkRow).addColumn gz.2 (-1), range := family : ExtremumMember }) =
            fun gz => some gz.2 := funext fun gz => soleColumn_addColumn gz.2
        rw [hsole]
        have hmap : (fun gz : Nat × Nat => some gz.2) = some ∘ Prod.snd := rfl
        rw [hmap, List.filterMap_eq_map]
        exact hnodup
    dsimp only at hout
    cases hagg : spec.perOuterAgg with
    | none | sum =>
      rw [hagg] at hout
      obtain rfl := Except.ok.inj hout
      exact hgrown
    | min | max =>
      rw [hagg] at hout
      dsimp only at hout
      split at hout
      · cases hout
      · rename_i w hlink
        obtain rfl := Except.ok.inj hout
        exact hgrown.trans_true (houter hlink)

/-- The sum of one group is a linking row over the decision columns. -/
theorem groupSumMembers_listed (hrows : s.numRows = indexer.numRows) (spec : MinMaxObjectiveSpec)
    (groups : ObjectiveGroups) (terms : List LhsTerm) :
    ∀ m ∈ groupSumMembers s indexer spec groups terms,
      LinkListed indexer.globalBlockStart m.link := by
  intro m hm
  obtain ⟨link, hlink, rfl⟩ := List.mem_map.mp hm
  obtain ⟨g, -, rfl⟩ := List.mem_map.mp (List.mem_filter.mp hlink).1
  refine LinkListed.foldl _ (fun r hr link h => addObjectiveRowTerms_listed terms _ h ?_) (.empty _)
  rw [← hrows]
  exact List.mem_range.mp (List.mem_filter.mp hr).1

/-- **An inner SUM or AVG.** -/
theorem emits_innerSum {spec : MinMaxObjectiveSpec} {groups : ObjectiveGroups} {obj : LinearObjective}
    {varNames : List String} {policy : NativeConstructPolicy} {out : SolverInput × LinearObjective}
    (hs : s.WellScoped indexer)
    (hout : linearizeInnerSum s indexer spec groups obj varNames policy = .ok out) :
    Emits indexer s out.1 (spec.perOuterAgg.isMinMax = true → LinkClean policy (!spec.perOuterIsEasy)
      (groupSumFamily s groups spec.perInnerWasAvg obj.savedTerms).unbounded
      (groupSumMembers s indexer spec groups obj.savedTerms)) := by
  unfold linearizeInnerSum at hout
  dsimp only at hout
  cases hagg : spec.perOuterAgg with
  | none | sum =>
    rw [hagg] at hout
    obtain rfl := Except.ok.inj hout
    exact (Emits.refl hs).congr (iff_of_true trivial fun h => by cases h)
  | min | max =>
    rw [hagg] at hout
    dsimp only at hout
    set family := groupSumFamily s groups spec.perInnerWasAvg obj.savedTerms with hfamily
    have hadd := emits_addGlobalContinuousAux hs family
    have hwidth := @addGlobalContinuousAux_width s indexer family
    have hgbs : indexer.globalBlockStart ≤ s.width indexer := Nat.le_add_right _ _
    split at hout
    · rename_i hempty
      obtain rfl := Except.ok.inj hout
      rw [List.isEmpty_iff.mp hempty]
      exact (hadd.trans_true (emits_pinGlobalAux hadd.wellScoped _ _)).congr
        (iff_of_true trivial fun _ _ _ => List.nodup_nil)
    · split at hout
      · cases hout
      · rename_i w hlink
        obtain rfl := Except.ok.inj hout
        refine (hadd.true_trans (emits_objectiveLink hadd.wellScoped
          (by rw [hwidth]; exact Nat.lt_succ_self _) (fun m hm => ?_) hlink)).congr
            ⟨fun h _ => h, fun h => h rfl⟩
        exact (groupSumMembers_listed hs.numRows_eq spec groups _ m hm).member hgbs (by omega)

/-- **MIN/MAX objectives.** -/
theorem emits_minMaxObjective {spec : MinMaxObjectiveSpec} {groups : ObjectiveGroups}
    {obj : LinearObjective} {varNames : List String} {policy : NativeConstructPolicy}
    {out : SolverInput × LinearObjective} (hs : s.WellScoped indexer)
    (hout : linearizeMinMaxObjective s indexer spec groups obj varNames policy = .ok out) :
    Emits indexer s out.1 (MinMaxObjectiveClean indexer policy s spec groups obj) := by
  unfold linearizeMinMaxObjective at hout
  unfold MinMaxObjectiveClean
  dsimp only
  by_cases hempty : obj.objectiveVariableIndices = []
  · rw [if_pos (List.isEmpty_iff.mpr hempty)] at hout
    obtain rfl := Except.ok.inj hout
    exact (Emits.refl hs).congr (iff_of_true trivial fun h => absurd hempty h)
  rw [if_neg fun h => hempty (List.isEmpty_iff.mp h)] at hout
  refine Emits.congr ?_ ⟨fun h _ => h, fun h => h hempty⟩
  by_cases hnested : spec.perInnerAgg ≠ .none ∧ 0 < groups.numGroups
  · rw [if_pos hnested] at hout ⊢
    split at hout
    · rename_i hmm
      rw [if_pos hmm]
      exact emits_innerMinMax hs hout
    · rename_i hmm
      rw [if_neg hmm]
      exact emits_innerSum hs hout
  · rw [if_neg hnested] at hout ⊢
    split at hout
    · rename_i hflat
      exact (emits_flatObjective hs hout).congr ⟨fun h _ => h, fun h => h hflat⟩
    · rename_i hflat
      obtain rfl := Except.ok.inj hout
      exact (Emits.refl hs).congr (iff_of_true trivial fun h => absurd h hflat)

end Decidb
