import Decidb.Formulation.NormCount
import Decidb.Formulation.Proofs.AbsLinkProofs

/-!
# A counting norm counts

The links hold an indicator at one exactly where its expression is at least the tolerance away from
zero, and at zero exactly where it is zero; the sum of the indicators is then the count.
-/

namespace Decidb

open Linear

/-! ## The rewrite -/

/-- What the rewrite makes of one summand. -/
def ItemRewritten (occurrences : List (Nat × NormTerm)) : NormItem → LhsTerm → Prop
  | .term t, t' => t' = t
  | .norm n, t' => ∃ z, (z, n) ∈ occurrences ∧ t' = n.indicatorTerm z

theorem ItemRewritten.mono {occurrences more : List (Nat × NormTerm)} {item : NormItem}
    {t : LhsTerm} (h : ItemRewritten occurrences item t) :
    ItemRewritten (occurrences ++ more) item t := by
  cases item with
  | term t' => exact h
  | norm n =>
    obtain ⟨z, hz, ht⟩ := h
    exact ⟨z, List.mem_append_left _ hz, ht⟩

/-- The prefix the name of an indicator starts with. -/
def NormTerm.namePrefix (n : NormTerm) : String :=
  if n.bound.isNone then autoIndicatorPrefix else "__l0_ind_"

/-- Every occurrence has an indicator declared under its name. -/
def NormState.Named (s : NormState) : Prop :=
  ∀ o ∈ s.occurrences, ∃ suffix, s.declared[o.1]? = some (o.2.namePrefix ++ suffix)

/-- A later state: more is declared, and the names stay right. -/
structure NormState.Grows (s s' : NormState) : Prop where
  declared : ∃ more, s'.declared = s.declared ++ more
  occurrences : ∃ more, s'.occurrences = s.occurrences ++ more
  named : s.Named → s'.Named

theorem NormState.Grows.refl (s : NormState) : s.Grows s :=
  ⟨⟨[], (List.append_nil _).symm⟩, ⟨[], (List.append_nil _).symm⟩, id⟩

theorem NormState.Grows.trans {s t u : NormState} (h : s.Grows t) (h' : t.Grows u) : s.Grows u := by
  obtain ⟨d, hd⟩ := h.declared
  obtain ⟨d', hd'⟩ := h'.declared
  obtain ⟨o, ho⟩ := h.occurrences
  obtain ⟨o', ho'⟩ := h'.occurrences
  exact ⟨⟨d ++ d', by rw [hd', hd, List.append_assoc]⟩,
    ⟨o ++ o', by rw [ho', ho, List.append_assoc]⟩, h'.named ∘ h.named⟩

theorem NormState.grows_addIndicator (s : NormState) (n : NormTerm) :
    s.Grows (s.addIndicator n) where
  declared := ⟨_, rfl⟩
  occurrences := ⟨_, rfl⟩
  named h o ho := by
    rcases List.mem_append.mp ho with ho | ho
    · obtain ⟨suffix, hs⟩ := h o ho
      refine ⟨suffix, ?_⟩
      have hlt : o.1 < s.declared.length := (List.getElem?_eq_some_iff.mp hs).1
      show (s.declared ++ _)[o.1]? = _
      rw [List.getElem?_append_left hlt, hs]
    · obtain rfl := List.mem_singleton.mp ho
      refine ⟨toString s.occurrences.length ++ "__", ?_⟩
      show (s.declared ++ _)[s.declared.length]? = _
      rw [List.getElem?_concat_length, NormTerm.namePrefix, String.append_assoc]

/-- The summands of a clause are rewritten one by one. -/
theorem rewriteNormItems_spec (items : List NormItem) : ∀ s : NormState,
    let out := rewriteNormItems s items
    s.Grows out.1 ∧ List.Forall₂ (ItemRewritten out.1.occurrences) items out.2 := by
  induction items with
  | nil => exact fun s => ⟨.refl s, .nil⟩
  | cons item items ih =>
    intro s
    cases item with
    | term t =>
      obtain ⟨hgrows, hall⟩ := ih s
      exact ⟨hgrows, .cons rfl hall⟩
    | norm n =>
      obtain ⟨hgrows, hall⟩ := ih (s.addIndicator n)
      refine ⟨(s.grows_addIndicator n).trans hgrows, .cons ⟨s.declared.length, ?_, rfl⟩ hall⟩
      obtain ⟨more, hmore⟩ := hgrows.occurrences
      show (s.declared.length, n) ∈ (rewriteNormItems (s.addIndicator n) items).1.occurrences
      rw [hmore]
      exact List.mem_append_left _ (List.mem_append_right _ List.mem_cons_self)

/-- The clauses are rewritten one by one. -/
theorem rewriteNorm_spec (clauses : List NormClause) : ∀ s : NormState,
    let out := rewriteNorm s clauses
    s.Grows out.1 ∧ List.Forall₂ (fun c ec => ∃ terms, ec = c.evaluated terms ∧
      List.Forall₂ (ItemRewritten out.1.occurrences) c.items terms) clauses out.2 := by
  induction clauses with
  | nil => exact fun s => ⟨.refl s, .nil⟩
  | cons c clauses ih =>
    intro s
    obtain ⟨hitems, hall⟩ := rewriteNormItems_spec c.items s
    obtain ⟨hrest, hclauses⟩ := ih (rewriteNormItems s c.items).1
    refine ⟨hitems.trans hrest, .cons ⟨_, rfl, hall.imp fun item t h => ?_⟩ hclauses⟩
    obtain ⟨more, hmore⟩ := hrest.occurrences
    show ItemRewritten (rewriteNorm (rewriteNormItems s c.items).1 clauses).1.occurrences item t
    rw [hmore]
    exact h.mono

/-- The occurrences are the norms of the clauses, their indicators being new variables. -/
theorem mem_rewriteNormItems_occurrences (items : List NormItem) : ∀ s : NormState,
    ∀ o ∈ (rewriteNormItems s items).1.occurrences,
      o ∈ s.occurrences ∨ (.norm o.2 ∈ items ∧ s.declared.length ≤ o.1) := by
  induction items with
  | nil => exact fun s o ho => Or.inl ho
  | cons item items ih =>
    intro s o ho
    cases item with
    | term t =>
      rcases ih s o ho with h | ⟨hmem, hle⟩
      · exact Or.inl h
      · exact Or.inr ⟨List.mem_cons_of_mem _ hmem, hle⟩
    | norm n =>
      rcases ih (s.addIndicator n) o ho with h | ⟨hmem, hle⟩
      · rcases List.mem_append.mp h with h | h
        · exact Or.inl h
        · obtain rfl := List.mem_singleton.mp h
          exact Or.inr ⟨List.mem_cons_self, le_rfl⟩
      · refine Or.inr ⟨List.mem_cons_of_mem _ hmem, le_trans ?_ hle⟩
        simp [NormState.addIndicator]

theorem mem_rewriteNorm_occurrences (clauses : List NormClause) : ∀ s : NormState,
    ∀ o ∈ (rewriteNorm s clauses).1.occurrences,
      o ∈ s.occurrences ∨ (∃ c ∈ clauses, .norm o.2 ∈ c.items) ∧ s.declared.length ≤ o.1 := by
  induction clauses with
  | nil => exact fun s o ho => Or.inl ho
  | cons c clauses ih =>
    intro s o ho
    rcases ih (rewriteNormItems s c.items).1 o ho with h | ⟨⟨c', hc', hmem⟩, hle⟩
    · rcases mem_rewriteNormItems_occurrences c.items s o h with h | ⟨hmem, hle⟩
      · exact Or.inl h
      · exact Or.inr ⟨⟨c, List.mem_cons_self, hmem⟩, hle⟩
    · refine Or.inr ⟨⟨c', List.mem_cons_of_mem _ hc', hmem⟩, le_trans ?_ hle⟩
      obtain ⟨more, hmore⟩ := (rewriteNormItems_spec c.items s).1.declared
      rw [hmore]
      simp

/-! ## Names -/

section Names

variable {varNames : List String}

theorem hasNamePrefix_of_getElem? {pre other suffix : String} {v : Nat}
    (h : varNames[v]? = some (pre ++ suffix)) :
    hasNamePrefix varNames other v = other.toList.isPrefixOf (pre.toList ++ suffix.toList) := by
  rw [hasNamePrefix, List.getD_eq_getElem?_getD, h, Option.getD_some, String.toList_append]

/-- The two prefixes exclude each other. -/
theorem not_auto_of_absAuxiliary {v : Nat} (h : hasNamePrefix varNames absAuxiliaryPrefix v) :
    hasNamePrefix varNames autoIndicatorPrefix v = false := by
  by_contra hauto
  rw [Bool.not_eq_false] at hauto
  rw [hasNamePrefix, List.isPrefixOf_iff_prefix] at h hauto
  have hpre := List.prefix_of_prefix_length_le h hauto (by decide)
  rw [← List.isPrefixOf_iff_prefix] at hpre
  exact absurd hpre (by decide)

/-- Whether a term is an indicator with a derived bound. -/
def isAutoTerm (varNames : List String) (t : LhsTerm) : Bool :=
  t.variableIndex.any fun v => hasNamePrefix varNames autoIndicatorPrefix v

/-- Whether a term is a variable that is neither such an indicator nor an ABS auxiliary. -/
def isInnerTerm (varNames : List String) (t : LhsTerm) : Bool :=
  t.variableIndex.any fun v => !hasNamePrefix varNames autoIndicatorPrefix v &&
    !hasNamePrefix varNames absAuxiliaryPrefix v

/-- What the scan adds up over the rest of a row. -/
theorem scanAutoIndicator_fold (terms : List LhsTerm) : ∀ (k : Nat) (acc : Option Nat × Bool),
    let out := (terms.zipIdx k).foldl
      (fun acc p =>
        match p.1.variableIndex with
        | none => acc
        | some v =>
          if hasNamePrefix varNames autoIndicatorPrefix v then (some p.2, acc.2)
          else if hasNamePrefix varNames absAuxiliaryPrefix v then acc
          else (acc.1, true)) acc
    out.2 = (acc.2 || terms.any (isInnerTerm varNames)) ∧
      (terms.any (isAutoTerm varNames) = false → out.1 = acc.1) := by
  induction terms with
  | nil => intro k acc; simp
  | cons t terms ih =>
    intro k acc
    simp only [List.zipIdx_cons, List.foldl_cons, List.any_cons]
    obtain ⟨hinner, hauto⟩ := ih (k + 1) _
    refine ⟨hinner.trans ?_, fun h => (hauto (Bool.or_eq_false_iff.mp h).2).trans ?_⟩
    · cases hv : t.variableIndex with
      | none => simp [isInnerTerm, hv]
      | some v =>
        cases ha : hasNamePrefix varNames autoIndicatorPrefix v <;>
          cases hb : hasNamePrefix varNames absAuxiliaryPrefix v <;> simp [isInnerTerm, hv, ha, hb]
    · have ht := (Bool.or_eq_false_iff.mp h).1
      cases hv : t.variableIndex with
      | none => rfl
      | some v =>
        have ha : hasNamePrefix varNames autoIndicatorPrefix v = false := by
          simpa [isAutoTerm, hv] using ht
        cases hb : hasNamePrefix varNames absAuxiliaryPrefix v <;> simp [ha, hb]

/-- A row is misread when an indicator with a derived bound and an inner variable share it. -/
def Misread (varNames : List String) (terms : List LhsTerm) : Prop :=
  (∃ t ∈ terms, isAutoTerm varNames t) ∧ ∃ t ∈ terms, isInnerTerm varNames t

/-- Every row that is no forward link in shape stays as it is. -/
theorem fillAutoBound_of_not_misread {box : FormulationBox} {numRows : Nat}
    {ec : EvaluatedConstraint} (h : ¬ Misread varNames ec.lhsTerms) :
    fillAutoBound varNames box numRows ec = .ok ec := by
  obtain ⟨hinner, hauto⟩ := @scanAutoIndicator_fold varNames ec.lhsTerms 0 (none, false)
  have hscan : (scanAutoIndicator varNames ec.lhsTerms).1 = none ∨
      (scanAutoIndicator varNames ec.lhsTerms).2 = false := by
    rw [Misread, not_and_or] at h
    rcases h with h | h
    · refine Or.inl (hauto ?_)
      simpa [List.any_eq_false] using h
    · refine Or.inr (hinner.trans ?_)
      simpa [List.any_eq_false] using h
  unfold fillAutoBound
  cases hs : scanAutoIndicator varNames ec.lhsTerms with
  | mk i b =>
    rw [hs] at hscan
    rcases hscan with hscan | hscan <;> simp only at hscan <;> subst hscan
    · rfl
    · cases i <;> rfl

end Names

/-! ## The derived bound -/

section Derived

variable {ec : EvaluatedConstraint} {box : FormulationBox} {numRows : Nat}
  {varNames : List String}

/-- What a row needs to be bounded: a finite bound, and closed columns. -/
def RowBoundable (ec : EvaluatedConstraint) (box : FormulationBox) (r : Nat) : Prop :=
  ∃ k, decideRowEffectiveBound ec r = .fin k ∧
    (decideRowTermRange ec.lhsTerms r box.lower box.upper).2 = false

/-- What the derived bound covers at a row. -/
def RowCovered (ec : EvaluatedConstraint) (box : FormulationBox) (M : ℚ) (r : Nat) : Prop :=
  ∃ k, decideRowEffectiveBound ec r = .fin k ∧
    (decideRowTermRange ec.lhsTerms r box.lower box.upper).2 = false ∧
    |k| + (decideRowTermRange ec.lhsTerms r box.lower box.upper).1 ≤ M

theorem RowCovered.mono {M M' : ℚ} {r : Nat} (h : RowCovered ec box M r) (hM : M ≤ M') :
    RowCovered ec box M' r := by
  obtain ⟨k, hk, hclosed, hle⟩ := h
  exact ⟨k, hk, hclosed, hle.trans hM⟩

/-- The rows gone over are covered, unless an open column was met. -/
theorem tightBigMStep_fold (rows : List Nat) : ∀ acc out : ℚ × Bool,
    rows.foldlM (tightBigMStep ec box) acc = .ok out → out.2 = false →
      acc.1 ≤ out.1 ∧ acc.2 = false ∧
        ∀ r ∈ rows, (ec.groupOf r).isSome → RowCovered ec box out.1 r := by
  induction rows with
  | nil =>
    intro acc out h hout
    obtain rfl : acc = out := Except.ok.inj h
    exact ⟨le_rfl, hout, by simp⟩
  | cons r rows ih =>
    intro acc out h hout
    rw [List.foldlM_cons] at h
    by_cases hg : (ec.groupOf r).isNone
    · simp only [tightBigMStep, hg, if_true, bind, Except.bind] at h
      obtain ⟨hle, hacc, hrows⟩ := ih _ _ h hout
      refine ⟨hle, hacc, fun q hq hin => ?_⟩
      rcases List.mem_cons.mp hq with rfl | hq
      · rw [Option.isNone_iff_eq_none] at hg
        simp [hg] at hin
      · exact hrows q hq hin
    · cases hk : decideRowEffectiveBound ec r with
      | negInf => simp [tightBigMStep, hg, hk, bind, Except.bind] at h
      | posInf => simp [tightBigMStep, hg, hk, bind, Except.bind] at h
      | fin k =>
        simp only [tightBigMStep, hg, hk, bind, Except.bind] at h
        obtain ⟨hle, hacc, hrows⟩ := ih _ _ h hout
        simp only [Bool.or_eq_false_iff] at hacc
        refine ⟨(le_max_left _ _).trans hle, hacc.1, fun q hq hin => ?_⟩
        rcases List.mem_cons.mp hq with rfl | hq
        · exact ⟨k, hk, hacc.2, (le_max_right _ _).trans hle⟩
        · exact hrows q hq hin

/-- **The derived bound covers every row**, with one to spare. -/
theorem decideTightPerRowBigM_ok {M : ℚ}
    (h : decideTightPerRowBigM ec box numRows varNames = .ok M) :
    ∀ r, r < numRows → (ec.groupOf r).isSome → RowCovered ec box M r := by
  unfold decideTightPerRowBigM at h
  cases hf : (List.range numRows).foldlM (tightBigMStep ec box) (0, false) with
  | error e => simp [hf] at h
  | ok out =>
    obtain ⟨reach, isOpen⟩ := out
    cases isOpen with
    | true =>
      simp only [hf, if_true, throwUnboundedBigMNaming] at h
      split at h <;> simp at h
    | false =>
      have hM : reach + 1 = M := by simpa [hf] using h
      obtain ⟨-, -, hrows⟩ := tightBigMStep_fold _ _ _ hf rfl
      intro r hr hin
      exact (hrows r (List.mem_range.mpr hr) hin).mono (by linarith)

/-- Finite bounds and closed columns are all it takes. -/
theorem decideTightPerRowBigM_isOk
    (h : ∀ r, r < numRows → (ec.groupOf r).isSome → RowBoundable ec box r) :
    ∃ M, decideTightPerRowBigM ec box numRows varNames = .ok M := by
  suffices hfold : ∀ (rows : List Nat) (acc : ℚ × Bool), acc.2 = false →
      (∀ r ∈ rows, (ec.groupOf r).isSome → RowBoundable ec box r) →
      ∃ out, rows.foldlM (tightBigMStep ec box) acc = .ok out ∧ out.2 = false by
    obtain ⟨⟨reach, isOpen⟩, hout, hclosed⟩ := hfold (List.range numRows) (0, false) rfl
      fun r hr => h r (List.mem_range.mp hr)
    simp only at hclosed
    subst hclosed
    exact ⟨reach + 1, by simp [decideTightPerRowBigM, hout]⟩
  intro rows
  induction rows with
  | nil => exact fun acc hacc _ => ⟨acc, rfl, hacc⟩
  | cons r rows ih =>
    intro acc hacc hrows
    have hrest := fun q hq => hrows q (List.mem_cons_of_mem r hq)
    rw [List.foldlM_cons]
    by_cases hg : (ec.groupOf r).isNone
    · simpa [tightBigMStep, hg, bind, Except.bind] using ih acc hacc hrest
    · have hin : (ec.groupOf r).isSome := by simpa [Option.isSome_iff_ne_none] using hg
      obtain ⟨k, hk, hclosed⟩ := hrows r List.mem_cons_self hin
      simp only [tightBigMStep, hg, hk, bind, Except.bind]
      exact ih _ (by simp [hacc, hclosed]) hrest

end Derived

/-! ## The links -/

theorem rowValue_scaled (terms : List LhsTerm) (c : ℚ) (r : Nat) (y : Nat → ℚ) :
    rowValue (terms.map (·.scaled c)) r y = c * rowValue terms r y := by
  induction terms with
  | nil => simp [rowValue_nil]
  | cons t terms ih =>
    rw [List.map_cons, rowValue_cons, rowValue_cons, ih]
    cases hv : t.variableIndex with
    | none => simp only [termValue, LhsTerm.scaled, hv]; ring
    | some v => simp only [termValue, LhsTerm.scaled, hv]; ring

theorem rowValue_scalarTerm_cons (v : Nat) (c : ℚ) (terms : List LhsTerm) (r : Nat) (y : Nat → ℚ) :
    rowValue (scalarTerm v c :: terms) r y = c * y v + rowValue terms r y := by
  rw [rowValue_cons]
  rfl

/-- A row whose terms are all variables has no constant part. -/
theorem decideRowFixedLhsOffset_of_variables {terms : List LhsTerm}
    (h : ∀ t ∈ terms, t.variableIndex.isSome) (r : Nat) : decideRowFixedLhsOffset terms r = 0 := by
  have hnil : (terms.filter fun t => t.variableIndex.isNone) = [] := by
    rw [List.filter_eq_nil_iff]
    intro t ht hnone
    have hsome := h t ht
    rw [Option.isNone_iff_eq_none] at hnone
    simp [hnone] at hsome
  simp [decideRowFixedLhsOffset, hnil]

/-- A skipped variable with coefficient zero need not be skipped. -/
theorem decideRowTermRange_skip {terms : List LhsTerm} {z r : Nat} {lower upper : List ℚ}
    (h : ∀ t ∈ terms, t.variableIndex = some z → t.rowCoefficients r = 0) :
    decideRowTermRange terms r lower upper = decideRowTermRange terms r lower upper (some z) := by
  unfold decideRowTermRange
  refine List.foldl_ext _ _ _ fun acc t ht => ?_
  cases hv : t.variableIndex with
  | none => simp [termRangeStep, hv]
  | some v =>
    by_cases hz : v = z
    · subst hz
      have h0 : t.rowCoefficients r = 0 := h t ht hv
      norm_num [termRangeStep, hv, h0, coefficientCut]
    · simp [termRangeStep, hv, hz]

/-- What the expression of an occurrence is: a nonempty sum of user variables, the constant apart. -/
structure NormTerm.Plain (n : NormTerm) (numUser : Nat) : Prop where
  nonempty : n.inner ≠ []
  inner_lt : ∀ t ∈ n.inner, ∃ v, t.variableIndex = some v ∧ v < numUser

theorem NormTerm.Plain.isSome {n : NormTerm} {numUser : Nat} (h : n.Plain numUser) :
    ∀ t ∈ n.inner, t.variableIndex.isSome := by
  intro t ht
  obtain ⟨v, hv, -⟩ := h.inner_lt t ht
  simp [hv]

theorem NormTerm.Plain.ne {n : NormTerm} {numUser z : Nat} (h : n.Plain numUser)
    (hz : numUser ≤ z) : ∀ t ∈ n.inner, t.variableIndex ≠ some z := by
  intro t ht he
  obtain ⟨v, hv, hlt⟩ := h.inner_lt t ht
  rw [he] at hv
  cases hv
  omega

section Links

variable {n : NormTerm} {numUser z r : Nat}

/-- **A bound that covers a forward link dominates its expression.** -/
theorem forwardLink_dominates {box : FormulationBox} {sign M : ℚ} {y : Nat → ℚ}
    (hn : n.Plain numUser) (hz : numUser ≤ z) (hsign : |sign| = 1)
    (hlen : numUser ≤ box.lower.length) (hbox : InBoxApart z box.lower box.upper y)
    (htiny : NoTinyCoefficient n.inner r)
    (hM : RowCovered (forwardLink n z 0 sign) box M r) : |n.value r y| ≤ M := by
  obtain ⟨k, hk, hclosed, hle⟩ := hM
  have hoffset : decideRowFixedLhsOffset (forwardLink n z 0 sign).lhsTerms r = 0 := by
    refine decideRowFixedLhsOffset_of_variables (fun t ht => ?_) r
    rcases List.mem_cons.mp ht with rfl | ht
    · rfl
    · obtain ⟨u, hu, rfl⟩ := List.mem_map.mp ht
      exact hn.isSome u hu
  have hkeq : k = sign * n.constant r := by
    rw [decideRowEffectiveBound, hoffset] at hk
    simpa [forwardLink, Bound.sub, Bound.map, eq_comm] using hk
  have hskip : ∀ t ∈ (forwardLink n z 0 sign).lhsTerms, t.variableIndex = some z →
      t.rowCoefficients r = 0 := by
    intro t ht htz
    rcases List.mem_cons.mp ht with rfl | ht
    · rfl
    · obtain ⟨u, hu, rfl⟩ := List.mem_map.mp ht
      exact absurd htz (hn.ne hz u hu)
  have hpart : decideRowTermRange (forwardLink n z 0 sign).lhsTerms r box.lower box.upper =
      decideRowTermRange (n.inner.map (·.scaled (-sign))) r box.lower box.upper (some z) := by
    rw [decideRowTermRange_skip hskip]
    show List.foldl _ _ (scalarTerm z 0 :: _) = _
    rw [List.foldl_cons, termRangeStep_aux rfl]
    rfl
  have hwithout : withoutAux (n.inner.map (·.scaled (-sign))) z = n.inner.map (·.scaled (-sign)) := by
    refine List.filter_eq_self.mpr fun t ht => ?_
    obtain ⟨u, hu, rfl⟩ := List.mem_map.mp ht
    simpa [LhsTerm.scaled] using hn.ne hz u hu
  rw [hpart] at hclosed hle
  have hreach := @decideRowTermRange_dominates _ _ _ _ r _ rfl hbox
    (n.inner.map (·.scaled (-sign))) (fun t ht v hv => ?_) (fun t ht => ?_) hclosed
  · have hvalue : |rowVariablePart (n.inner.map (·.scaled (-sign))) r y| = |rowValue n.inner r y| := by
      have h := rowValue_scaled n.inner (-sign) r y
      rw [rowValue, decideRowFixedLhsOffset_of_variables (fun t ht => ?_), add_zero] at h
      · rw [h, abs_mul, abs_neg, hsign, one_mul]
      · obtain ⟨u, hu, rfl⟩ := List.mem_map.mp ht
        exact hn.isSome u hu
    have hconst : |k| = |n.constant r| := by rw [hkeq, abs_mul, hsign, one_mul]
    rw [hwithout, hvalue] at hreach
    have htri := abs_add_le (rowValue n.inner r y) (n.constant r)
    rw [NormTerm.value]
    linarith
  · obtain ⟨u, hu, rfl⟩ := List.mem_map.mp ht
    obtain ⟨w, hw, hlt⟩ := hn.inner_lt u hu
    obtain rfl : w = v := by
      rw [LhsTerm.scaled, hw] at hv
      exact Option.some.inj hv
    omega
  · obtain ⟨u, hu, rfl⟩ := List.mem_map.mp ht
    rcases htiny u hu with h0 | hbig
    · exact Or.inl (by simp [LhsTerm.scaled, h0])
    · refine Or.inr ?_
      simpa only [LhsTerm.scaled, abs_mul, abs_neg, hsign, one_mul] using hbig

/-- The three links of an occurrence, once their bounds are in. -/
def boundedLinks (n : NormTerm) (z aux : Nat) (tolerance M M' : ℚ) : List EvaluatedConstraint :=
  [forwardLink n z M 1, forwardLink n z M' (-1), reverseLink tolerance z aux]

/-- **The links count**: where the auxiliary is the absolute value of an expression within the
bounds, the indicator may be zero exactly when the expression is, and one exactly when it is at
least the tolerance away from zero. -/
theorem boundedLinks_iff {aux : Nat} {tolerance M M' : ℚ} {y : Nat → ℚ} (hn : n.Plain numUser)
    (hz : numUser ≤ z) (haux : aux ≠ z) (hM : |n.value r y| ≤ M) (hM' : |n.value r y| ≤ M')
    (hy : y aux = |n.value r y|) :
    (LinkRowsHold (boundedLinks n z aux tolerance M M') r (Function.update y z 0) ↔
      n.value r y = 0) ∧
    (LinkRowsHold (boundedLinks n z aux tolerance M M') r (Function.update y z 1) ↔
      tolerance ≤ |n.value r y|) := by
  have hrows : ∀ b, LinkRowsHold (boundedLinks n z aux tolerance M M') r (Function.update y z b) ↔
      n.value r y ≤ M * b ∧ -n.value r y ≤ M' * b ∧ tolerance * b ≤ |n.value r y| := by
    intro b
    unfold LinkRowsHold boundedLinks
    have hinner := rowValue_update (hn.ne hz) r y b
    simp only [List.forall_mem_cons, List.not_mem_nil, false_implies, implies_true, and_true,
      forwardLink, reverseLink, EvaluatedConstraint.groupOf, Option.isSome_some, forall_const,
      rowValue_scalarTerm_cons, rowValue_scaled, rowValue_nil, hinner, Function.update_self,
      Function.update_of_ne haux, hy, Comparison.holds_ge, Bound.fin_le_fin]
    have hv : n.value r y = rowValue n.inner r y + n.constant r := rfl
    constructor
    · rintro ⟨h1, h2, h3⟩
      refine ⟨?_, ?_, ?_⟩ <;> linarith
    · rintro ⟨h1, h2, h3⟩
      refine ⟨?_, ?_, ?_⟩ <;> linarith
  refine ⟨(hrows 0).trans ⟨fun h => ?_, fun h => ?_⟩, (hrows 1).trans ⟨fun h => ?_, fun h => ?_⟩⟩
  · exact le_antisymm (by linarith [h.1]) (by linarith [h.2.1])
  · simp [h]
  · simpa using h.2.2
  · have hle := abs_le.mp hM
    have hle' := abs_le.mp hM'
    exact ⟨by linarith, by linarith, by simpa using h⟩

end Links

/-! ## Rows filled one by one -/

theorem mapM_ok_iff {α β : Type} {f : α → Except String β} {l : List α} :
    ∀ {out : List β}, l.mapM f = .ok out ↔ List.Forall₂ (fun a b => f a = .ok b) l out := by
  induction l with
  | nil =>
    intro out
    rw [List.mapM_nil, List.forall₂_nil_left_iff]
    exact ⟨fun h => (Except.ok.inj h).symm, fun h => h ▸ rfl⟩
  | cons x l ih =>
    intro out
    rw [List.mapM_cons, List.forall₂_cons_left_iff]
    cases hx : f x with
    | error e => simp [bind, Except.bind]
    | ok b =>
      simp only [← ih, Except.ok.injEq]
      cases hl : l.mapM f with
      | error e => simp [bind, Except.bind]
      | ok bs => simp [bind, Except.bind, pure, Except.pure, eq_comm]

/-- What is related to an appended list is appended. -/
theorem exists_of_forall₂_append {α β : Type} {R : α → β → Prop} {l₁ l₂ : List α} {out : List β}
    (h : List.Forall₂ R (l₁ ++ l₂) out) :
    ∃ o₁ o₂, out = o₁ ++ o₂ ∧ List.Forall₂ R l₁ o₁ ∧ List.Forall₂ R l₂ o₂ := by
  induction l₁ generalizing out with
  | nil => exact ⟨[], out, rfl, .nil, h⟩
  | cons a l₁ ih =>
    obtain ⟨b, out', hab, hrest, rfl⟩ := List.forall₂_cons_left_iff.mp h
    obtain ⟨o₁, o₂, rfl, h₁, h₂⟩ := ih hrest
    exact ⟨b :: o₁, o₂, rfl, .cons hab h₁, h₂⟩

/-- What is related to a list of pieces comes in pieces. -/
theorem exists_of_forall₂_flatMap {α β γ : Type} {R : β → γ → Prop} {g : α → List β} {l : List α}
    {out : List γ} (h : List.Forall₂ R (l.flatMap g) out) :
    ∃ outs, out = outs.flatten ∧ List.Forall₂ (fun a o => List.Forall₂ R (g a) o) l outs := by
  induction l generalizing out with
  | nil =>
    rw [List.flatMap_nil, List.forall₂_nil_left_iff] at h
    exact ⟨[], h, .nil⟩
  | cons a l ih =>
    rw [List.flatMap_cons] at h
    obtain ⟨o, rest, rfl, ho, hrest⟩ := exists_of_forall₂_append h
    obtain ⟨outs, rfl, houts⟩ := ih hrest
    exact ⟨o :: outs, rfl, .cons ho houts⟩

/-- Rows that are kept one by one are kept. -/
theorem eq_of_forall₂_kept {α : Type} {f : α → Except String α} {l out : List α}
    (hkeep : ∀ a ∈ l, f a = .ok a) (h : List.Forall₂ (fun a b => f a = .ok b) l out) : out = l := by
  induction h with
  | nil => rfl
  | cons hab _ ih =>
    rw [hkeep _ List.mem_cons_self] at hab
    rw [Except.ok.inj hab, ih fun a ha => hkeep a (List.mem_cons_of_mem _ ha)]

theorem mapM_isOk {α β : Type} {f : α → Except String β} {l : List α}
    (h : ∀ a ∈ l, ∃ b, f a = .ok b) : ∃ out, l.mapM f = .ok out := by
  induction l with
  | nil => exact ⟨[], rfl⟩
  | cons a l ih =>
    obtain ⟨b, hb⟩ := h a List.mem_cons_self
    obtain ⟨out, hout⟩ := ih fun x hx => h x (List.mem_cons_of_mem _ hx)
    exact ⟨b :: out, mapM_ok_iff.mpr (.cons hb (mapM_ok_iff.mp hout))⟩

theorem forall₂_comp {α β γ : Type} {R : α → β → Prop} {S : β → γ → Prop} {l : List α} {m : List β}
    {n : List γ} (h : List.Forall₂ R l m) (h' : List.Forall₂ S m n) :
    List.Forall₂ (fun a c => ∃ b, R a b ∧ S b c) l n := by
  induction h generalizing n with
  | nil =>
    rw [List.forall₂_nil_left_iff.mp h']
    exact .nil
  | cons hab _ ih =>
    obtain ⟨c, n', hbc, hrest, rfl⟩ := List.forall₂_cons_left_iff.mp h'
    exact .cons ⟨_, hab, hbc⟩ (ih hrest)

/-! ## A query -/

/-- A query that counts. The names past those the rewrite declares are those of the later passes, and
`absRows` are the rows the ABS pass adds. -/
structure NormQuery where
  userNames : List String
  laterNames : List String
  tolerance : ℚ
  objective : List NormItem
  clauses : List NormClause
  absAux : Nat → Nat
  absRows : List EvaluatedConstraint
  box : FormulationBox
  numRows : Nat

namespace NormQuery

/-- The objective rewritten. -/
def rewrittenObjective (q : NormQuery) : NormState × List LhsTerm :=
  rewriteNormItems { declared := q.userNames } q.objective

/-- The clauses rewritten. -/
def rewritten (q : NormQuery) : NormState × List EvaluatedConstraint :=
  rewriteNorm q.rewrittenObjective.1 q.clauses

/-- The occurrences of the norm, each with its indicator. -/
def occurrences (q : NormQuery) : List (Nat × NormTerm) := q.rewritten.1.occurrences

/-- The names of all variables. -/
def varNames (q : NormQuery) : List String := q.rewritten.1.declared ++ q.laterNames

/-- The constraints the formulation starts from. -/
def constraints (q : NormQuery) : List EvaluatedConstraint :=
  q.rewritten.2 ++ q.occurrences.flatMap (normLinks q.tolerance q.absAux) ++ q.absRows

/-- The constraints with the derived bounds in. -/
def formulate (q : NormQuery) : Except String (List EvaluatedConstraint) :=
  fillAutoBounds q.varNames q.box q.numRows q.constraints

/-- A summand the query writes, in the objective or in a clause. -/
def Writes (q : NormQuery) (item : NormItem) : Prop :=
  item ∈ q.objective ∨ ∃ c ∈ q.clauses, item ∈ c.items

/-- What the pipeline promises: names and columns are apart, and no expression of a norm holds an ABS
or a coefficient below the cut. -/
structure WellFormed (q : NormQuery) : Prop where
  tolerance_pos : 0 < q.tolerance
  lower_length : q.box.lower.length = q.varNames.length
  upper_length : q.box.upper.length = q.varNames.length
  userNames_apart : ∀ name ∈ q.userNames,
    autoIndicatorPrefix.toList.isPrefixOf name.toList = false ∧
      absAuxiliaryPrefix.toList.isPrefixOf name.toList = false
  terms_apart : ∀ t, q.Writes (.term t) → isAutoTerm q.varNames t = false
  norms_plain : ∀ n, q.Writes (.norm n) → n.Plain q.userNames.length
  norms_noTiny : ∀ n, q.Writes (.norm n) → ∀ r, r < q.numRows → NoTinyCoefficient n.inner r
  absAux_named : ∀ o ∈ q.occurrences, hasNamePrefix q.varNames absAuxiliaryPrefix (q.absAux o.1)
  absRows_apart : ∀ ec ∈ q.absRows, ∀ t ∈ ec.lhsTerms, isAutoTerm q.varNames t = false

/-- A clause in which something else stands beside an automatic norm. -/
def MixesAuto (q : NormQuery) (items : List NormItem) : Prop :=
  (∃ n, .norm n ∈ items ∧ n.bound = none) ∧
    ((∃ n, .norm n ∈ items ∧ n.bound ≠ none) ∨ ∃ t, .term t ∈ items ∧ isInnerTerm q.varNames t)

end NormQuery

section Query

variable {q : NormQuery}

/-- Every occurrence is a norm the query writes, and its indicator is a new variable named for it. -/
theorem NormQuery.occurrence_spec {o : Nat × NormTerm} (ho : o ∈ q.occurrences) :
    q.Writes (.norm o.2) ∧ q.userNames.length ≤ o.1 ∧ o.1 < q.varNames.length ∧
      ∃ suffix, q.varNames[o.1]? = some (o.2.namePrefix ++ suffix) := by
  have hobj := rewriteNormItems_spec q.objective { declared := q.userNames }
  have hcl := rewriteNorm_spec q.clauses q.rewrittenObjective.1
  have hnamed : q.rewritten.1.Named := hcl.1.named (hobj.1.named (by simp [NormState.Named]))
  obtain ⟨suffix, hs⟩ := hnamed o ho
  have hname : q.varNames[o.1]? = some (o.2.namePrefix ++ suffix) := by
    rw [NormQuery.varNames, List.getElem?_append_left (List.getElem?_eq_some_iff.mp hs).1, hs]
  have hlt : o.1 < q.varNames.length := (List.getElem?_eq_some_iff.mp hname).1
  rcases mem_rewriteNorm_occurrences q.clauses q.rewrittenObjective.1 o ho with h | ⟨hmem, hle⟩
  · rcases mem_rewriteNormItems_occurrences q.objective _ o h with h | ⟨hmem, hle⟩
    · cases h
    · exact ⟨Or.inl hmem, hle, hlt, suffix, hname⟩
  · refine ⟨Or.inr hmem, le_trans ?_ hle, hlt, suffix, hname⟩
    obtain ⟨more, hmore⟩ := hobj.1.declared
    show q.userNames.length ≤ (rewriteNormItems _ q.objective).1.declared.length
    rw [hmore]
    simp

/-- The name of an indicator starts with the one prefix or the other. -/
theorem NormQuery.indicator_name {o : Nat × NormTerm} (ho : o ∈ q.occurrences) :
    hasNamePrefix q.varNames autoIndicatorPrefix o.1 = o.2.bound.isNone ∧
      hasNamePrefix q.varNames absAuxiliaryPrefix o.1 = false := by
  obtain ⟨-, -, -, suffix, hname⟩ := q.occurrence_spec ho
  cases hb : o.2.bound with
  | none =>
    have hpre : o.2.namePrefix = autoIndicatorPrefix := by simp [NormTerm.namePrefix, hb]
    rw [hpre] at hname
    exact ⟨hasNamePrefix_of_getElem? hname, hasNamePrefix_of_getElem? hname⟩
  | some m =>
    have hpre : o.2.namePrefix = "__l0_ind_" := by simp [NormTerm.namePrefix, hb]
    rw [hpre] at hname
    exact ⟨hasNamePrefix_of_getElem? hname, hasNamePrefix_of_getElem? hname⟩

/-- A user variable is an inner variable. -/
theorem NormQuery.WellFormed.isInner (h : q.WellFormed) {t : LhsTerm} {v : Nat}
    (hv : t.variableIndex = some v) (hlt : v < q.userNames.length) :
    isInnerTerm q.varNames t = true ∧ isAutoTerm q.varNames t = false := by
  obtain ⟨more, hmore⟩ := (rewriteNormItems_spec q.objective { declared := q.userNames }).1.declared
  obtain ⟨more', hmore'⟩ := (rewriteNorm_spec q.clauses q.rewrittenObjective.1).1.declared
  have hname : q.varNames[v]? = some q.userNames[v] := by
    have hdecl : q.varNames = q.userNames ++ (more ++ more' ++ q.laterNames) := by
      show (rewriteNorm _ q.clauses).1.declared ++ _ = _
      rw [hmore']
      show ((rewriteNormItems _ q.objective).1.declared ++ _) ++ _ = _
      rw [hmore]
      simp
    rw [hdecl, List.getElem?_append_left hlt, List.getElem?_eq_getElem hlt]
  obtain ⟨hauto, habs⟩ := h.userNames_apart _ (List.getElem_mem hlt)
  simp [isInnerTerm, isAutoTerm, hv, hasNamePrefix, hname, hauto, habs]

/-! ### Which rows are filled -/

theorem exists_of_forall₂_mem_right {α β : Type} {R : α → β → Prop} {l : List α} {l' : List β}
    (h : List.Forall₂ R l l') {b : β} (hb : b ∈ l') : ∃ a ∈ l, R a b := by
  induction h with
  | nil => cases hb
  | cons hab _ ih =>
    rcases List.mem_cons.mp hb with rfl | hb
    · exact ⟨_, List.mem_cons_self, hab⟩
    · obtain ⟨a, ha, hR⟩ := ih hb
      exact ⟨a, List.mem_cons_of_mem _ ha, hR⟩

/-- A clause is not taken for a link unless something stands beside an automatic norm. -/
theorem NormQuery.WellFormed.not_misread (h : q.WellFormed) {items : List NormItem}
    {terms : List LhsTerm} (hwrites : ∀ item ∈ items, q.Writes item)
    (hterms : List.Forall₂ (ItemRewritten q.occurrences) items terms) (hmix : ¬ q.MixesAuto items) :
    ¬ Misread q.varNames terms := by
  rintro ⟨⟨t, ht, hauto⟩, ⟨u, hu, hinner⟩⟩
  refine hmix ⟨?_, ?_⟩
  · obtain ⟨item, hitem, hrew⟩ := exists_of_forall₂_mem_right hterms ht
    cases item with
    | term t' =>
      cases hrew
      rw [h.terms_apart _ (hwrites _ hitem)] at hauto
      cases hauto
    | norm n =>
      obtain ⟨z, hz, rfl⟩ := hrew
      refine ⟨n, hitem, ?_⟩
      have hname := (NormQuery.indicator_name hz).1
      have htrue : hasNamePrefix q.varNames autoIndicatorPrefix z = true := hauto
      rw [htrue] at hname
      exact Option.isNone_iff_eq_none.mp hname.symm
  · obtain ⟨item, hitem, hrew⟩ := exists_of_forall₂_mem_right hterms hu
    cases item with
    | term t' =>
      cases hrew
      exact Or.inr ⟨_, hitem, hinner⟩
    | norm n =>
      obtain ⟨z, hz, rfl⟩ := hrew
      refine Or.inl ⟨n, hitem, fun hnone => ?_⟩
      have hname := (NormQuery.indicator_name hz).1
      simp only [hnone, Option.isNone_none] at hname
      simp [isInnerTerm, NormTerm.indicatorTerm, hname] at hinner

/-- The reverse link stays as it is. -/
theorem NormQuery.WellFormed.reverse_kept (h : q.WellFormed) {o : Nat × NormTerm}
    (ho : o ∈ q.occurrences) {box : FormulationBox} {numRows : Nat} :
    fillAutoBound q.varNames box numRows (reverseLink q.tolerance o.1 (q.absAux o.1)) =
      .ok (reverseLink q.tolerance o.1 (q.absAux o.1)) := by
  by_cases hauto : hasNamePrefix q.varNames autoIndicatorPrefix o.1
  · refine fillAutoBound_of_not_misread fun hmis => ?_
    obtain ⟨-, t, ht, hinner⟩ := hmis
    simp only [reverseLink, List.mem_cons, List.not_mem_nil, or_false] at ht
    rcases ht with rfl | rfl
    · simp [isInnerTerm, scalarTerm, h.absAux_named o ho] at hinner
    · simp [isInnerTerm, scalarTerm, hauto] at hinner
  · refine fillAutoBound_of_not_misread fun hmis => ?_
    obtain ⟨⟨t, ht, hauto'⟩, -⟩ := hmis
    simp only [reverseLink, List.mem_cons, List.not_mem_nil, or_false] at ht
    rcases ht with rfl | rfl
    · rw [isAutoTerm, scalarTerm, Option.any_some,
        not_auto_of_absAuxiliary (h.absAux_named o ho)] at hauto'
      cases hauto'
    · exact hauto hauto'

/-- A forward link is recognised, and gets its bound. -/
theorem NormQuery.WellFormed.forward_filled (h : q.WellFormed) {o : Nat × NormTerm}
    (ho : o ∈ q.occurrences) (hbound : o.2.bound = none) (sign : ℚ) {box : FormulationBox}
    {numRows : Nat} :
    fillAutoBound q.varNames box numRows (forwardLink o.2 o.1 o.2.linkCoefficient sign) =
      (decideTightPerRowBigM (forwardLink o.2 o.1 0 sign) box numRows q.varNames).map
        fun M => forwardLink o.2 o.1 M sign := by
  have hplain := h.norms_plain _ (NormQuery.occurrence_spec ho).1
  have hauto : hasNamePrefix q.varNames autoIndicatorPrefix o.1 = true := by
    rw [(NormQuery.indicator_name ho).1, hbound]
    rfl
  have hrest : ∀ t ∈ o.2.inner.map (·.scaled (-sign)),
      isInnerTerm q.varNames t = true ∧ isAutoTerm q.varNames t = false := by
    intro t ht
    obtain ⟨u, hu, rfl⟩ := List.mem_map.mp ht
    obtain ⟨v, hv, hlt⟩ := hplain.inner_lt u hu
    exact h.isInner (t := u.scaled (-sign)) hv hlt
  have hscan : scanAutoIndicator q.varNames (forwardLink o.2 o.1 o.2.linkCoefficient sign).lhsTerms =
      (some 0, true) := by
    unfold scanAutoIndicator forwardLink
    simp only [List.zipIdx_cons, List.foldl_cons, scalarTerm, hauto, if_true]
    obtain ⟨hinner, hnone⟩ := @scanAutoIndicator_fold q.varNames
      (o.2.inner.map (·.scaled (-sign))) (0 + 1) (some 0, false)
    refine Prod.ext (hnone ?_) (hinner.trans ?_)
    · rw [List.any_eq_false]
      intro t ht
      simp [(hrest t ht).2]
    · obtain ⟨t, ht⟩ := List.exists_mem_of_ne_nil _ hplain.nonempty
      rw [Bool.false_or, List.any_eq_true]
      exact ⟨_, List.mem_map_of_mem ht, (hrest _ (List.mem_map_of_mem ht)).1⟩
  have hset : ∀ c, (forwardLink o.2 o.1 o.2.linkCoefficient sign).setCoefficient 0 c =
      forwardLink o.2 o.1 c sign := fun _ => rfl
  simp only [fillAutoBound, hscan, hset]
  cases decideTightPerRowBigM (forwardLink o.2 o.1 0 sign) box numRows q.varNames <;> rfl

/-- A forward link with a written bound stays as it is. -/
theorem NormQuery.WellFormed.forward_kept (h : q.WellFormed) {o : Nat × NormTerm}
    (ho : o ∈ q.occurrences) (hbound : o.2.bound ≠ none) (sign : ℚ) {box : FormulationBox}
    {numRows : Nat} :
    fillAutoBound q.varNames box numRows (forwardLink o.2 o.1 o.2.linkCoefficient sign) =
      .ok (forwardLink o.2 o.1 o.2.linkCoefficient sign) := by
  refine fillAutoBound_of_not_misread ?_
  rintro ⟨⟨t, ht, hauto⟩, -⟩
  rcases List.mem_cons.mp ht with rfl | ht
  · have hname := (NormQuery.indicator_name ho).1
    have htrue : hasNamePrefix q.varNames autoIndicatorPrefix o.1 = true := hauto
    rw [htrue] at hname
    exact hbound (Option.isNone_iff_eq_none.mp hname.symm)
  · obtain ⟨u, hu, rfl⟩ := List.mem_map.mp ht
    obtain ⟨v, hv, hlt⟩ :=
      (h.norms_plain _ (NormQuery.occurrence_spec ho).1).inner_lt u hu
    rw [(h.isInner (t := u.scaled (-sign)) hv hlt).2] at hauto
    cases hauto

/-! ### The links of an occurrence -/

/-- The columns an expression with a derived bound reads at a row are closed. -/
def NormTerm.ClosedAt (n : NormTerm) (box : FormulationBox) (r : Nat) : Prop :=
  ∀ t ∈ n.inner, ∀ v, t.variableIndex = some v → coefficientCut ≤ |t.rowCoefficients r| →
    -solverInfinity < box.lower.getD v 0 ∧ box.upper.getD v 0 < solverInfinity

/-- Every row of a forward link is included, and its bound is finite. -/
theorem forwardLink_boundable_iff {n : NormTerm} {numUser z r : Nat} {sign : ℚ}
    {box : FormulationBox} (hn : n.Plain numUser) (hz : numUser ≤ z) (hsign : |sign| = 1) :
    RowBoundable (forwardLink n z 0 sign) box r ↔ n.ClosedAt box r := by
  have hopen : (decideRowTermRange (forwardLink n z 0 sign).lhsTerms r box.lower box.upper).2 =
      true ↔ ¬ n.ClosedAt box r := by
    have hskip : ∀ t ∈ (forwardLink n z 0 sign).lhsTerms, t.variableIndex = some z →
        t.rowCoefficients r = 0 := by
      intro t ht htz
      rcases List.mem_cons.mp ht with rfl | ht
      · rfl
      · obtain ⟨u, hu, rfl⟩ := List.mem_map.mp ht
        exact absurd htz (hn.ne hz u hu)
    rw [decideRowTermRange_skip hskip]
    have h := @decideRowTermRange_open z r
      { numRows := 0, variableTypes := [], lowerBounds := box.lower, upperBounds := box.upper }
      (forwardLink n z 0 sign)
    refine h.trans ⟨?_, fun hnot => ?_⟩
    · rintro ⟨t, ht, v, hv, hvz, hcoef, hbad⟩ hclosed
      rcases List.mem_cons.mp ht with rfl | ht
      · exact hvz (Option.some.inj hv).symm
      · obtain ⟨u, hu, rfl⟩ := List.mem_map.mp ht
        have hu' := hclosed u hu v hv
          (by simpa only [LhsTerm.scaled, abs_mul, abs_neg, hsign, one_mul] using hcoef)
        exact hbad.elim (not_le.mpr hu'.2) (not_le.mpr hu'.1)
    · simp only [NormTerm.ClosedAt, not_forall] at hnot
      obtain ⟨u, hu, v, hv, hcoef, hbad⟩ := hnot
      refine ⟨u.scaled (-sign), List.mem_cons_of_mem _ (List.mem_map_of_mem hu), v, hv, ?_, ?_, ?_⟩
      · rintro rfl
        exact hn.ne hz u hu hv
      · simpa only [LhsTerm.scaled, abs_mul, abs_neg, hsign, one_mul] using hcoef
      · rw [not_and_or, not_lt, not_lt] at hbad
        exact hbad.symm
  rw [RowBoundable]
  constructor
  · rintro ⟨k, -, hclosed⟩
    by_contra hnot
    rw [hopen.mpr hnot] at hclosed
    cases hclosed
  · intro hclosed
    refine ⟨_, rfl, ?_⟩
    rw [← Bool.not_eq_true, hopen]
    exact not_not.mpr hclosed

/-- An assignment of one row respects the written bound of an occurrence. -/
def NormTerm.WithinBound (n : NormTerm) (r : Nat) (y : Nat → ℚ) : Prop :=
  ∀ m, n.bound = some m → |n.value r y| ≤ m

/-- What the links of an occurrence are, and what they say on every row: where the auxiliary is the
absolute value of the expression, the indicator may be zero exactly when the expression is, and one
exactly when it is at least the tolerance away from zero. -/
structure NormQuery.Counts (q : NormQuery) (o : Nat × NormTerm) (links : List EvaluatedConstraint) :
    Prop where
  shape : ∃ M M', links = boundedLinks o.2 o.1 (q.absAux o.1) q.tolerance M M' ∧
    ∀ m, o.2.bound = some m → M = m ∧ M' = m
  indicator : ∀ r, r < q.numRows → ∀ y, InBox q.box.lower q.box.upper y → o.2.WithinBound r y →
    y (q.absAux o.1) = |o.2.value r y| →
      (LinkRowsHold links r (Function.update y o.1 0) ↔ o.2.value r y = 0) ∧
      (LinkRowsHold links r (Function.update y o.1 1) ↔ q.tolerance ≤ |o.2.value r y|)

theorem NormQuery.WellFormed.inBoxApart (h : q.WellFormed) {y : Nat → ℚ}
    (hbox : InBox q.box.lower q.box.upper y) (z : Nat) :
    InBoxApart z q.box.lower q.box.upper y := by
  intro v _ hv
  have hu : v < q.box.upper.length := by rw [h.upper_length, ← h.lower_length]; exact hv
  have hb := hbox v _ _ (List.getElem?_eq_getElem hv) (List.getElem?_eq_getElem hu)
  simpa [List.getD_eq_getElem?_getD, List.getElem?_eq_getElem, hv, hu] using hb

/-- An auxiliary is no indicator. -/
theorem NormQuery.WellFormed.absAux_ne (h : q.WellFormed) {o : Nat × NormTerm}
    (ho : o ∈ q.occurrences) : q.absAux o.1 ≠ o.1 := by
  intro he
  have hname := h.absAux_named o ho
  rw [he, (NormQuery.indicator_name ho).2] at hname
  cases hname

/-- The bound of a forward link, written or derived, covers its expression. -/
theorem NormQuery.WellFormed.forward_ok (h : q.WellFormed) {o : Nat × NormTerm}
    (ho : o ∈ q.occurrences) {sign : ℚ} (hsign : |sign| = 1) {out : EvaluatedConstraint}
    (hok : fillAutoBound q.varNames q.box q.numRows
      (forwardLink o.2 o.1 o.2.linkCoefficient sign) = .ok out) :
    ∃ M, out = forwardLink o.2 o.1 M sign ∧ (∀ m, o.2.bound = some m → M = m) ∧
      ∀ r, r < q.numRows → ∀ y, InBox q.box.lower q.box.upper y → o.2.WithinBound r y →
        |o.2.value r y| ≤ M := by
  obtain ⟨hwrites, hz, -, -⟩ := NormQuery.occurrence_spec ho
  have hplain := h.norms_plain _ hwrites
  cases hb : o.2.bound with
  | some m =>
    rw [h.forward_kept ho (by simp [hb])] at hok
    obtain rfl := Except.ok.inj hok
    have hm : o.2.linkCoefficient = m := by simp [NormTerm.linkCoefficient, hb]
    exact ⟨m, by rw [hm], fun m' hm' => Option.some.inj hm', fun r _ y _ hwithin => hwithin m hb⟩
  | none =>
    rw [h.forward_filled ho hb] at hok
    cases hM : decideTightPerRowBigM (forwardLink o.2 o.1 0 sign) q.box q.numRows q.varNames with
    | error e => simp [hM, Except.map] at hok
    | ok M =>
      rw [hM] at hok
      obtain rfl : forwardLink o.2 o.1 M sign = out := Except.ok.inj hok
      refine ⟨M, rfl, fun m' hm' => by simp at hm', fun r hr y hbox _ => ?_⟩
      refine forwardLink_dominates hplain hz hsign ?_ (h.inBoxApart hbox o.1)
        (h.norms_noTiny _ hwrites r hr) (decideTightPerRowBigM_ok hM r hr rfl)
      have hlen := (NormQuery.occurrence_spec ho).2.2.1
      rw [h.lower_length]
      omega

/-- The links of an occurrence count, once their bounds are in. -/
theorem NormQuery.WellFormed.links_count (h : q.WellFormed) {o : Nat × NormTerm}
    (ho : o ∈ q.occurrences) {links : List EvaluatedConstraint}
    (hlinks : List.Forall₂ (fun ec ec' => fillAutoBound q.varNames q.box q.numRows ec = .ok ec')
      (normLinks q.tolerance q.absAux o) links) : q.Counts o links := by
  obtain ⟨hwrites, hz, -, -⟩ := NormQuery.occurrence_spec ho
  obtain ⟨fwd, rest, hfwd, hrest, rfl⟩ := List.forall₂_cons_left_iff.mp hlinks
  obtain ⟨fwd', rest', hfwd', hrest', rfl⟩ := List.forall₂_cons_left_iff.mp hrest
  obtain ⟨rev, last, hrev, hlast, rfl⟩ := List.forall₂_cons_left_iff.mp hrest'
  obtain rfl := List.forall₂_nil_left_iff.mp hlast
  obtain ⟨M, rfl, hM, hcover⟩ := h.forward_ok ho (by norm_num) hfwd
  obtain ⟨M', rfl, hM', hcover'⟩ := h.forward_ok ho (by norm_num) hfwd'
  rw [h.reverse_kept ho] at hrev
  obtain rfl := Except.ok.inj hrev
  refine ⟨⟨M, M', rfl, fun m hm => ⟨hM m hm, hM' m hm⟩⟩, fun r hr y hbox hwithin hy => ?_⟩
  exact boundedLinks_iff (h.norms_plain _ hwrites) hz (h.absAux_ne ho)
    (hcover r hr y hbox hwithin) (hcover' r hr y hbox hwithin) hy

/-! ### The count -/

/-- What a summand is worth at a row, a norm counting the rows at least the tolerance off zero. -/
def NormItem.countValue (tolerance : ℚ) (item : NormItem) (r : Nat) (y : Nat → ℚ) : ℚ :=
  match item with
  | .term t => termValue r y t
  | .norm n => if n.filter r ∧ tolerance ≤ |n.value r y| then n.scale else 0

/-- The summands of a clause at a row. -/
def itemsValue (tolerance : ℚ) (items : List NormItem) (r : Nat) (y : Nat → ℚ) : ℚ :=
  (items.map fun item => item.countValue tolerance r y).sum

/-- The indicators of the occurrences say which expressions are off zero. -/
def NormQuery.Marks (q : NormQuery) (r : Nat) (y : Nat → ℚ) : Prop :=
  ∀ o ∈ q.occurrences, y o.1 = if q.tolerance ≤ |o.2.value r y| then 1 else 0

/-- Under such indicators the summands left behind are worth what was written. -/
theorem rowValue_eq_itemsValue {r : Nat} {y : Nat → ℚ} (hmarks : q.Marks r y)
    {items : List NormItem} {terms : List LhsTerm}
    (h : List.Forall₂ (ItemRewritten q.occurrences) items terms) :
    rowValue terms r y = itemsValue q.tolerance items r y := by
  induction h with
  | nil => exact rowValue_nil r y
  | @cons item t items terms hitem _ ih =>
    rw [rowValue_cons, ih, itemsValue, itemsValue, List.map_cons, List.sum_cons]
    congr 1
    cases item with
    | term t' => cases hitem; rfl
    | norm n =>
      obtain ⟨z, hz, rfl⟩ := hitem
      have hy := hmarks _ hz
      simp only at hy
      simp only [termValue, NormTerm.indicatorTerm, hy, NormItem.countValue]
      by_cases hf : n.filter r = true <;> by_cases ht : q.tolerance ≤ |n.value r y| <;>
        simp [hf, ht]

/-- An assignment of one row that a formulated query admits, the auxiliaries being absolute values. -/
structure NormQuery.Admits (q : NormQuery) (outLinks : List (List EvaluatedConstraint)) (r : Nat)
    (y : Nat → ℚ) : Prop where
  row_lt : r < q.numRows
  inBox : InBox q.box.lower q.box.upper y
  binary : ∀ o ∈ q.occurrences, y o.1 = 0 ∨ y o.1 = 1
  within : ∀ o ∈ q.occurrences, o.2.WithinBound r y
  absolute : ∀ o ∈ q.occurrences, y (q.absAux o.1) = |o.2.value r y|
  links : ∀ links ∈ outLinks, LinkRowsHold links r y

/-- Links that count leave no other choice. -/
theorem NormQuery.Admits.marks (hpos : 0 < q.tolerance) {outLinks : List (List EvaluatedConstraint)}
    (hcount : List.Forall₂ q.Counts q.occurrences outLinks) {r : Nat} {y : Nat → ℚ}
    (h : q.Admits outLinks r y) : q.Marks r y := by
  intro o ho
  obtain ⟨links, hmem, hlinks⟩ := exists_of_forall₂_mem_right hcount.flip ho
  have hlinks : q.Counts o links := hlinks
  obtain ⟨hzero, hone⟩ :=
    hlinks.indicator r h.row_lt y h.inBox (h.within o ho) (h.absolute o ho)
  have hhold := h.links links hmem
  rcases h.binary o ho with hy | hy
  · have hkeep : Function.update y o.1 0 = y := by rw [← hy, Function.update_eq_self]
    have h0 := hzero.mp (hkeep.symm ▸ hhold)
    rw [hy, if_neg (by simpa [h0] using hpos)]
  · have hkeep : Function.update y o.1 1 = y := by rw [← hy, Function.update_eq_self]
    rw [hy, if_pos (hone.mp (hkeep.symm ▸ hhold))]

/-! ### The formulated query -/

/-- **A formulated query counts.** A clause in which nothing stands beside an automatic norm is the
written one with every norm replaced by the sum of its indicator; the links of every occurrence count;
and so the objective and every such clause are worth, over any rows, what was written. -/
structure NormQuery.CountsAll (q : NormQuery) (outClauses : List EvaluatedConstraint)
    (outLinks : List (List EvaluatedConstraint)) : Prop where
  clauses : List.Forall₂ (fun c ec => ¬ q.MixesAuto c.items → ∃ terms, ec = c.evaluated terms ∧
    List.Forall₂ (ItemRewritten q.occurrences) c.items terms) q.clauses outClauses
  links : List.Forall₂ q.Counts q.occurrences outLinks
  objective_counted : ∀ (rows : List Nat) (y : Nat → Nat → ℚ),
    (∀ r ∈ rows, q.Admits outLinks r (y r)) →
      (rows.map fun r => rowValue q.rewrittenObjective.2 r (y r)).sum =
        (rows.map fun r => itemsValue q.tolerance q.objective r (y r)).sum
  clauses_counted : List.Forall₂ (fun c ec => ¬ q.MixesAuto c.items →
    ∀ (rows : List Nat) (y : Nat → Nat → ℚ), (∀ r ∈ rows, q.Admits outLinks r (y r)) →
      (rows.map fun r => rowValue ec.lhsTerms r (y r)).sum =
        (rows.map fun r => itemsValue q.tolerance c.items r (y r)).sum) q.clauses outClauses

/-- The objective is rewritten summand by summand. -/
theorem NormQuery.objective_rewritten (q : NormQuery) :
    List.Forall₂ (ItemRewritten q.occurrences) q.objective q.rewrittenObjective.2 := by
  obtain ⟨-, hall⟩ := rewriteNormItems_spec q.objective { declared := q.userNames }
  obtain ⟨more, hmore⟩ := (rewriteNorm_spec q.clauses q.rewrittenObjective.1).1.occurrences
  have hocc : q.occurrences = q.rewrittenObjective.1.occurrences ++ more := hmore
  rw [hocc]
  exact hall.imp fun item t h => h.mono

/-- The rows the formulation leaves, clause by clause and occurrence by occurrence. -/
theorem NormQuery.WellFormed.formulate_spec (h : q.WellFormed) {out : List EvaluatedConstraint}
    (hout : q.formulate = .ok out) : ∃ outClauses outLinks,
      out = outClauses ++ outLinks.flatten ++ q.absRows ∧ q.CountsAll outClauses outLinks := by
  obtain ⟨front, outAbs, rfl, hfront, habs⟩ := exists_of_forall₂_append (mapM_ok_iff.mp hout)
  obtain ⟨outClauses, outLinks', rfl, hclauses, hlinks'⟩ := exists_of_forall₂_append hfront
  obtain ⟨outLinks, rfl, hlinks⟩ := exists_of_forall₂_flatMap hlinks'
  have hkept : outAbs = q.absRows := by
    refine eq_of_forall₂_kept (fun ec hec => fillAutoBound_of_not_misread ?_) habs
    rintro ⟨⟨t, ht, hauto⟩, -⟩
    rw [h.absRows_apart ec hec t ht] at hauto
    cases hauto
  have hcount : List.Forall₂ q.Counts q.occurrences outLinks := by
    have hmem := (List.forall₂_and_left _ _).mpr ⟨fun o (ho : o ∈ q.occurrences) => ho, hlinks⟩
    exact hmem.imp fun o links ho => h.links_count ho.1 ho.2
  have hfilled : List.Forall₂ (fun c ec => ¬ q.MixesAuto c.items → ∃ terms, ec = c.evaluated terms ∧
      List.Forall₂ (ItemRewritten q.occurrences) c.items terms) q.clauses outClauses := by
    have hrew := (rewriteNorm_spec q.clauses q.rewrittenObjective.1).2
    have hmem := (List.forall₂_and_left _ _).mpr
      ⟨fun c (hc : c ∈ q.clauses) => hc, forall₂_comp hrew hclauses⟩
    refine hmem.imp fun c ec hc hmix => ?_
    obtain ⟨hc, _, ⟨terms, rfl, hterms⟩, hfill⟩ := hc
    have hnot : ¬ Misread q.varNames (c.evaluated terms).lhsTerms :=
      h.not_misread (fun item hi => Or.inr ⟨c, hc, hi⟩) hterms hmix
    rw [fillAutoBound_of_not_misread hnot] at hfill
    exact ⟨terms, (Except.ok.inj hfill).symm, hterms⟩
  refine ⟨outClauses, outLinks, by rw [hkept], hfilled, hcount, fun rows y hadmits => ?_, ?_⟩
  · refine congrArg List.sum (List.map_congr_left fun r hr => ?_)
    exact rowValue_eq_itemsValue ((hadmits r hr).marks h.tolerance_pos hcount) q.objective_rewritten
  · refine hfilled.imp fun c ec hc hmix rows y hadmits => ?_
    obtain ⟨terms, rfl, hterms⟩ := hc hmix
    refine congrArg List.sum (List.map_congr_left fun r hr => ?_)
    exact rowValue_eq_itemsValue ((hadmits r hr).marks h.tolerance_pos hcount) hterms

/-- Without misread clauses nothing but an open column under a derived bound is refused. -/
theorem NormQuery.WellFormed.formulate_isOk_iff (h : q.WellFormed)
    (hmix : ∀ c ∈ q.clauses, ¬ q.MixesAuto c.items) :
    (∃ out, q.formulate = .ok out) ↔
      ∀ o ∈ q.occurrences, o.2.bound = none → ∀ r, r < q.numRows → o.2.ClosedAt q.box r := by
  have hboundable : ∀ o ∈ q.occurrences, ∀ sign : ℚ, |sign| = 1 → ∀ r,
      RowBoundable (forwardLink o.2 o.1 0 sign) q.box r ↔ o.2.ClosedAt q.box r := by
    intro o ho sign hsign r
    obtain ⟨hwrites, hz, -, -⟩ := NormQuery.occurrence_spec ho
    exact forwardLink_boundable_iff (h.norms_plain _ hwrites) hz hsign
  constructor
  · rintro ⟨out, hout⟩ o ho hb r hr
    have hmem : forwardLink o.2 o.1 o.2.linkCoefficient 1 ∈ q.constraints :=
      List.mem_append_left _ (List.mem_append_right _
        (List.mem_flatMap.mpr ⟨o, ho, List.mem_cons_self⟩))
    obtain ⟨ec, -, hec⟩ := exists_of_forall₂_mem_right (mapM_ok_iff.mp hout).flip hmem
    have hec : fillAutoBound q.varNames q.box q.numRows
        (forwardLink o.2 o.1 o.2.linkCoefficient 1) = .ok ec := hec
    rw [h.forward_filled ho hb] at hec
    cases hM : decideTightPerRowBigM (forwardLink o.2 o.1 0 1) q.box q.numRows q.varNames with
    | error e => simp [hM, Except.map] at hec
    | ok M =>
      obtain ⟨k, hk, hclosed, -⟩ := decideTightPerRowBigM_ok hM r hr rfl
      exact (hboundable o ho 1 (by norm_num) r).mp ⟨k, hk, hclosed⟩
  · intro hclosed
    refine mapM_isOk fun ec hec => ?_
    rcases List.mem_append.mp hec with hec | hec
    · rcases List.mem_append.mp hec with hec | hec
      · obtain ⟨c, hc, terms, rfl, hterms⟩ := exists_of_forall₂_mem_right
          (rewriteNorm_spec q.clauses q.rewrittenObjective.1).2 hec
        have hnot : ¬ Misread q.varNames (c.evaluated terms).lhsTerms :=
          h.not_misread (fun item hi => Or.inr ⟨c, hc, hi⟩) hterms (hmix c hc)
        exact ⟨_, fillAutoBound_of_not_misread hnot⟩
      · obtain ⟨o, ho, hlink⟩ := List.mem_flatMap.mp hec
        have hforward : ∀ sign : ℚ, |sign| = 1 → ∃ out, fillAutoBound q.varNames q.box q.numRows
            (forwardLink o.2 o.1 o.2.linkCoefficient sign) = .ok out := by
          intro sign hsign
          by_cases hb : o.2.bound = none
          · obtain ⟨M, hM⟩ := @decideTightPerRowBigM_isOk
              (forwardLink o.2 o.1 0 sign) q.box q.numRows q.varNames
              fun r hr _ => (hboundable o ho sign hsign r).mpr (hclosed o ho hb r hr)
            exact ⟨_, by rw [h.forward_filled ho hb, hM]; rfl⟩
          · exact ⟨_, h.forward_kept ho hb sign⟩
        simp only [normLinks, List.mem_cons, List.not_mem_nil, or_false] at hlink
        rcases hlink with rfl | rfl | rfl
        · exact hforward 1 (by norm_num)
        · exact hforward (-1) (by norm_num)
        · exact ⟨_, h.reverse_kept ho⟩
    · refine ⟨ec, fillAutoBound_of_not_misread ?_⟩
      rintro ⟨⟨t, ht, hauto⟩, -⟩
      rw [h.absRows_apart ec hec t ht] at hauto
      cases hauto

/-- What a counting norm may be relied on for: the formulated query counts, and it is formulated
unless a column that a derived bound needs is open. -/
theorem normCount_exact (q : NormQuery) (h : q.WellFormed) :
    (∀ out, q.formulate = .ok out → ∃ outClauses outLinks,
      out = outClauses ++ outLinks.flatten ++ q.absRows ∧ q.CountsAll outClauses outLinks) ∧
    ((∀ c ∈ q.clauses, ¬ q.MixesAuto c.items) → ((∃ out, q.formulate = .ok out) ↔
      ∀ o ∈ q.occurrences, o.2.bound = none → ∀ r, r < q.numRows → o.2.ClosedAt q.box r)) :=
  ⟨fun _ => h.formulate_spec, h.formulate_isOk_iff⟩

end Query

/-! ### A real variable in the dead zone -/

/-- The rows that pin column 2 to the absolute value of column 0, column 3 being its sign. -/
def pinnedAbsOfX : List EvaluatedConstraint :=
  [{ lhsTerms := [scalarTerm 2 1, scalarTerm 0 (-1)]
     rhsValues := fun _ => .fin 0
     comparisonType := .ge
     absAuxIdx := some 2
     absIsPosBound := true },
   { lhsTerms := [scalarTerm 2 1, scalarTerm 0 1]
     rhsValues := fun _ => .fin 0
     comparisonType := .ge
     absAuxIdx := some 2 },
   { lhsTerms := [scalarTerm 2 1, scalarTerm 0 (-1), scalarTerm 3 2]
     rhsValues := fun _ => .fin 2
     comparisonType := .le },
   { lhsTerms := [scalarTerm 2 1, scalarTerm 0 1, scalarTerm 3 (-2)]
     rhsValues := fun _ => .fin 0
     comparisonType := .le }]

/-- `norm(x, 0) <= 1` over one row, `x` real in `[0, 1]`. -/
def countX : NormQuery where
  userNames := ["x"]
  laterNames := ["__abs_aux_0__", "__abs_y_0__"]
  tolerance := 1 / 10000
  objective := []
  clauses :=
    [{ items := [.norm
        { scale := 1
          filter := fun _ => true
          inner := [scalarTerm 0 1]
          constant := fun _ => 0
          bound := none }]
       clause :=
        { lhsTerms := []
          rhsValues := fun _ => .fin 1
          comparisonType := .le
          lhsIsAggregate := true } }]
  absAux := fun _ => 2
  absRows := pinnedAbsOfX
  box := ⟨[0, 0, 0, 0], [1, 1, 1, 1]⟩
  numRows := 1

theorem countX_wellFormed : countX.WellFormed where
  tolerance_pos := by norm_num [countX]
  lower_length := by decide
  upper_length := by decide
  userNames_apart := by decide
  terms_apart := by
    intro t ht
    simp [NormQuery.Writes, countX] at ht
  norms_plain := by
    intro n hn
    obtain rfl : n = _ := by simpa [NormQuery.Writes, countX] using hn
    exact ⟨by simp, by simp [scalarTerm, countX]⟩
  norms_noTiny := by
    intro n hn r _
    obtain rfl : n = _ := by simpa [NormQuery.Writes, countX] using hn
    norm_num [NoTinyCoefficient, scalarTerm, coefficientCut]
  absAux_named := fun o _ => by
    show hasNamePrefix countX.varNames absAuxiliaryPrefix 2 = true
    decide
  absRows_apart := by decide

theorem countX_not_mixed : ∀ c ∈ countX.clauses, ¬ countX.MixesAuto c.items := by
  intro c hc
  obtain rfl := List.mem_singleton.mp hc
  simp [NormQuery.MixesAuto]

theorem countX_closed : ∀ o ∈ countX.occurrences, o.2.bound = none → ∀ r, r < countX.numRows →
    o.2.ClosedAt countX.box r := by
  intro o ho _ r _ t ht v hv _
  obtain rfl := List.mem_singleton.mp ho
  obtain rfl := List.mem_singleton.mp ht
  obtain rfl := Option.some.inj hv
  norm_num [countX, solverInfinity]

theorem normCount_exact_countX : ∃ out outClauses outLinks, countX.formulate = .ok out ∧
    out = outClauses ++ outLinks.flatten ++ countX.absRows ∧
    countX.CountsAll outClauses outLinks := by
  obtain ⟨hcounts, hisOk⟩ := normCount_exact countX countX_wellFormed
  obtain ⟨out, hout⟩ := (hisOk countX_not_mixed).mpr countX_closed
  obtain ⟨outClauses, outLinks, heq, hall⟩ := hcounts out hout
  exact ⟨out, outClauses, outLinks, hout, heq, hall⟩

/-- **A value in the dead zone has no indicator**: `x = 1/20000` lies in its box, is not zero, and is
less than the tolerance. -/
theorem countX_dead_zone : ∃ out outClauses outLinks, countX.formulate = .ok out ∧
    out = outClauses ++ List.flatten outLinks ++ countX.absRows ∧
    countX.box.lower.getD 0 0 ≤ 1 / 20000 ∧ (1 / 20000 : ℚ) ≤ countX.box.upper.getD 0 0 ∧
    ¬ ∃ z w s : ℚ, (z = 0 ∨ z = 1) ∧ (s = 0 ∨ s = 1) ∧
      LinkRowsHold (outLinks.flatten ++ countX.absRows) 0
        (fun v => if v = 0 then 1 / 20000 else if v = 1 then z else if v = 2 then w else s) := by
  obtain ⟨out, hout⟩ := (countX_wellFormed.formulate_isOk_iff countX_not_mixed).mpr countX_closed
  obtain ⟨outClauses, outLinks, heq, hall⟩ := countX_wellFormed.formulate_spec hout
  refine ⟨out, outClauses, outLinks, hout, heq, by norm_num [countX], by norm_num [countX], ?_⟩
  rintro ⟨z, w, s, hz, hs, hrows⟩
  obtain ⟨links, rest, hcounts, -, rfl⟩ := List.forall₂_cons_left_iff.mp hall.links
  obtain ⟨M, M', rfl, -⟩ := hcounts.shape
  have hlink := fun ec (hec : ec ∈ boundedLinks _ 1 2 (1 / 10000) M M') =>
    hrows ec (List.mem_append_left _ (List.mem_append_left _ hec))
  have hpin := fun ec (hec : ec ∈ pinnedAbsOfX) => hrows ec (List.mem_append_right _ hec)
  have hforward := hlink _ List.mem_cons_self rfl
  have hreverse := hlink _ (List.mem_cons_of_mem _ (List.mem_cons_of_mem _ List.mem_cons_self)) rfl
  simp only [pinnedAbsOfX, List.forall_mem_cons, EvaluatedConstraint.groupOf, Option.isSome_some,
    forall_const, rowValue_scalarTerm_cons, rowValue_nil, Comparison.holds_le,
    Bound.fin_le_fin] at hpin
  obtain ⟨-, -, hpos, hneg, -⟩ := hpin
  simp only [forwardLink, reverseLink, rowValue_scalarTerm_cons, rowValue_scaled, rowValue_nil,
    Comparison.holds_ge, Bound.fin_le_fin] at hforward hreverse
  norm_num at hforward hreverse hpos hneg
  rcases hz with rfl | rfl
  · norm_num at hforward
  · rcases hs with rfl | rfl <;> linarith

end Decidb
