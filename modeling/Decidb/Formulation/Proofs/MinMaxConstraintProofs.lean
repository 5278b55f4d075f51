import Decidb.Formulation.MinMaxConstraint
import Decidb.Formulation.Proofs.ExtremumLinkProofs

/-!
# What the hard MIN/MAX rows accept

A tagged constraint reads "some row of every group is at or beyond the bound", on the side its
aggregate name picks; a group whose bound is infinite reads by the direction the bound points. Each
group of the loop extends the input by that condition and no other.
-/

namespace Decidb

open Linear SolverInput

variable {indexer : VarIndexer} {input : SolverInput} {ec : EvaluatedConstraint} {a b : Nat → ℚ}

/-! ## One member -/

/-- No coefficient of the row is dropped without being zero, alone or merged with others of its
column. -/
structure CutClean (indexer : VarIndexer) (terms : List LhsTerm) (r : Nat) : Prop where
  single : NoTinyCoefficient terms r
  merged : ∀ t ∈ (minMaxLink indexer terms r).form, t.2 = 0 ∨ coefficientCut ≤ |t.2|

/-- The linking row holds the negated variable part of the row. -/
theorem minMaxLink_eval (indexer : VarIndexer) (terms : List LhsTerm) (r : Nat) (a : Nat → ℚ) :
    (minMaxLink indexer terms r).form.eval a =
      -rowVariablePart terms r fun v => a (indexer.get v r) := by
  suffices h : ∀ (terms : List LhsTerm) (link : MinMaxLinkRow),
      (terms.foldl (addLinkTerm indexer r) link).form.eval a =
        link.form.eval a - rowVariablePart terms r fun v => a (indexer.get v r) by
    have := h terms {}
    simpa [minMaxLink] using this
  intro terms
  induction terms with
  | nil => intro link; simp [rowVariablePart]
  | cons t terms ih =>
    intro link
    rw [List.foldl_cons, ih, rowVariablePart_cons]
    unfold addLinkTerm termContribution
    cases t.variableIndex with
    | none => simp
    | some v =>
      by_cases h0 : t.rowCoefficients r = 0
      · simp [h0]
      · simp only [h0, if_false, MinMaxLinkRow.addColumn, Form.eval_addColumn]
        ring

/-- The columns of a linking row are decision columns of its row. -/
theorem minMaxLink_columns (terms : List LhsTerm) {r : Nat} (hr : r < indexer.numRows) :
    ∀ t ∈ (minMaxLink indexer terms r).form, t.1 < indexer.globalBlockStart := by
  suffices h : ∀ (terms : List LhsTerm) (link : MinMaxLinkRow),
      (∀ t ∈ link.form, t.1 < indexer.globalBlockStart) →
      ∀ t ∈ (terms.foldl (addLinkTerm indexer r) link).form, t.1 < indexer.globalBlockStart by
    exact h terms {} (by simp)
  intro terms
  induction terms with
  | nil => intro link h; exact h
  | cons u terms ih =>
    intro link h
    rw [List.foldl_cons]
    refine ih _ ?_
    unfold addLinkTerm
    cases u.variableIndex with
    | none => exact h
    | some v =>
      by_cases h0 : u.rowCoefficients r = 0
      · simpa [h0] using h
      · simp only [h0, if_false, MinMaxLinkRow.addColumn]
        intro t ht
        rcases Form.mem_addColumn ht with heq | ⟨w, hw, hwt⟩
        · rw [heq]
          exact indexer.get_lt v hr
        · rw [← hwt]
          exact h w hw

theorem minMaxMember_value {r : Nat} (hcut : CutClean indexer ec.lhsTerms r) (a : Nat → ℚ) :
    (minMaxMember input indexer ec r).value a = ec.lhsValue indexer a r := by
  have heval : (minMaxLink indexer ec.lhsTerms r).appendTo.eval a =
      -rowVariablePart ec.lhsTerms r fun v => a (indexer.get v r) := by
    rw [appendTo_eval _ hcut.merged, minMaxLink_eval]
  show decideRowFixedLhsOffset ec.lhsTerms r - (minMaxLink indexer ec.lhsTerms r).appendTo.eval a =
    ec.lhsValue indexer a r
  rw [heval]
  unfold EvaluatedConstraint.lhsValue rowValue
  ring

/-- A member's range contains its value on every assignment in the boxes. -/
theorem minMaxMember_contains {r : Nat} (hcut : CutClean indexer ec.lhsTerms r)
    (hr : r < input.numRows) (h : input.InBoxes indexer a) :
    (minMaxMember input indexer ec r).range.Contains ((minMaxMember input indexer ec r).value a) := by
  rw [minMaxMember_value hcut]
  refine AuxRange.coverRowSided_contains ⟨fun l hl => ?_, fun u hu => ?_⟩
  · obtain ⟨l', hl', rfl⟩ := Option.map_eq_some_iff.mp hl
    have := (decideRowSignedRange_brackets (inBox_of_inBoxes h hr) hcut.single).1 l' hl'
    exact add_le_add_left this _
  · obtain ⟨u', hu', rfl⟩ := Option.map_eq_some_iff.mp hu
    have := (decideRowSignedRange_brackets (inBox_of_inBoxes h hr) hcut.single).2 u' hu'
    exact add_le_add_left this _

theorem family_contains {members : List ExtremumMember} {m : ExtremumMember} (hm : m ∈ members)
    {y : ℚ} (hy : m.range.Contains y) :
    (members.foldl (fun family m => family.cover m.range) ({} : AuxRange)).Contains y := by
  suffices h : ∀ (members : List ExtremumMember) (family : AuxRange),
      (family.Contains y ∨ ∃ m ∈ members, m.range.Contains y) →
      (members.foldl (fun family m => family.cover m.range) family).Contains y from
    h members {} (Or.inr ⟨m, hm, hy⟩)
  intro members
  induction members with
  | nil => rintro family (h | ⟨m, hm, -⟩)
           · exact h
           · cases hm
  | cons k members ih =>
    rintro family (h | ⟨m, hm, h⟩)
    · exact ih _ (Or.inl (AuxRange.cover_contains_left h))
    · rcases List.mem_cons.mp hm with rfl | hm
      · exact ih _ (Or.inl (AuxRange.cover_contains_right h))
      · exact ih _ (Or.inr ⟨m, hm, h⟩)

/-! ## One group -/

theorem widenToBound_contains {family : AuxRange} {k y : ℚ} {isMax : Bool}
    (h : family.Contains y) : (widenToBound family k isMax).Contains y := by
  unfold widenToBound boundOutOfReach
  obtain ⟨hlo, hhi⟩ := h
  cases isMax with
  | true =>
    by_cases hout : (!family.hiUnbounded && decide (family.hi < k)) = true
    · simp only [hout, if_true]
      simp only [Bool.and_eq_true, Bool.not_eq_true', decide_eq_true_eq] at hout
      exact ⟨hlo, hhi.imp_right fun h => h.trans hout.2.le⟩
    · simp only [hout]
      exact ⟨hlo, hhi⟩
  | false =>
    by_cases hout : (!family.loUnbounded && decide (k < family.lo)) = true
    · simp only [Bool.false_eq_true, if_false, hout, if_true]
      simp only [Bool.and_eq_true, Bool.not_eq_true', decide_eq_true_eq] at hout
      exact ⟨hlo.imp_right fun h => hout.2.le.trans h, hhi⟩
    · simp only [Bool.false_eq_true, if_false, hout]
      exact ⟨hlo, hhi⟩

theorem openDemandedEnd_contains {range : AuxRange} {y : ℚ} {isMax : Bool}
    (h : range.Contains y) : (openDemandedEnd isMax range).Contains y := by
  cases isMax with
  | true => exact ⟨h.1, Or.inl rfl⟩
  | false => exact ⟨Or.inl rfl, h.2⟩

/-- The side of a bound on which some row has to lie. -/
def BoundSide (isMax : Bool) (k e : ℚ) : Prop := if isMax then k ≤ e else e ≤ k

/-- With the extremum column free in a box that holds every member's value, bounding the column is
the same as some member reaching the bound. -/
theorem exists_result_iff {isMax : Bool} {members : List ExtremumMember} {k : ℚ} {a : Nat → ℚ}
    (box : ColumnBox) (hbox : ∀ m ∈ members, box.Admits (m.value a)) :
    (∃ z, box.Admits z ∧ (∃ m ∈ members, ClosingSide isMax z (m.value a)) ∧ BoundSide isMax k z) ↔
      ∃ m ∈ members, BoundSide isMax k (m.value a) := by
  constructor
  · rintro ⟨z, -, ⟨m, hm, hz⟩, hk⟩
    refine ⟨m, hm, ?_⟩
    cases isMax with
    | true => exact le_trans (show k ≤ z from hk) hz
    | false => exact le_trans (show m.value a ≤ z from hz) hk
  · rintro ⟨m, hm, hk⟩
    exact ⟨m.value a, hbox m hm, ⟨m, hm, by cases isMax <;> exact le_refl _⟩, hk⟩

/-- The same with the column pinned to the extremum itself. -/
theorem exists_extremum_iff {isMax : Bool} {members : List ExtremumMember} {k : ℚ} {a : Nat → ℚ}
    (hne : members ≠ []) (box : ColumnBox) (hbox : ∀ m ∈ members, box.Admits (m.value a)) :
    (∃ z, box.Admits z ∧ ExtremumOf isMax members a z ∧ BoundSide isMax k z) ↔
      ∃ m ∈ members, BoundSide isMax k (m.value a) := by
  have hmem : ∀ z, ExtremumOf isMax members a z → ∃ m ∈ members, m.value a = z := by
    intro z hz
    cases isMax with
    | true => exact List.mem_map.mp (List.max?_eq_some_iff.mp hz).1
    | false => exact List.mem_map.mp (List.min?_eq_some_iff.mp hz).1
  constructor
  · rintro ⟨z, -, hz, hk⟩
    obtain ⟨m, hm, rfl⟩ := hmem z hz
    exact ⟨m, hm, hk⟩
  · rintro ⟨m, hm, hk⟩
    have hne' : (members.map fun m => m.value a) ≠ [] := by simpa using hne
    cases isMax with
    | true =>
      cases hz : (members.map fun m => m.value a).max? with
      | none => exact absurd (List.max?_eq_none_iff.mp hz) hne'
      | some z =>
        obtain ⟨m', hm', rfl⟩ := hmem z hz
        refine ⟨_, hbox m' hm', hz, (le_listMax_iff hz k).mpr ⟨m.value a, ?_, hk⟩⟩
        exact List.mem_map.mpr ⟨m, hm, rfl⟩
    | false =>
      cases hz : (members.map fun m => m.value a).min? with
      | none => exact absurd (List.min?_eq_none_iff.mp hz) hne'
      | some z =>
        obtain ⟨m', hm', rfl⟩ := hmem z hz
        refine ⟨_, hbox m' hm', hz, (listMin_le_iff hz k).mpr ⟨m.value a, ?_, hk⟩⟩
        exact List.mem_map.mpr ⟨m, hm, rfl⟩

/-- What the rows of one group are asked: some row at or beyond the bound. -/
def GroupReads (indexer : VarIndexer) (ec : EvaluatedConstraint) (isMax : Bool) (rows : List Nat)
    (a : Nat → ℚ) : Prop :=
  match rows.head?.map ec.rhsValues with
  | some (.fin k) => ∃ r ∈ rows, BoundSide isMax k (ec.lhsValue indexer a r)
  | _ => True

/-- The left-hand side of a row reads decision columns only. -/
theorem lhsValue_congr {r n : Nat} (hr : r < indexer.numRows) (hn : indexer.globalBlockStart ≤ n)
    (hab : AgreeBelow n a b) : ec.lhsValue indexer a r = ec.lhsValue indexer b r := by
  have : (fun v => a (indexer.get v r)) = fun v => b (indexer.get v r) :=
    funext fun v => hab _ ((indexer.get_lt v hr).trans_le hn)
  unfold EvaluatedConstraint.lhsValue
  rw [this]

theorem groupReads_readsBelow {isMax : Bool} {rows : List Nat}
    (hrows : ∀ r ∈ rows, r < indexer.numRows) :
    ReadsBelow indexer.globalBlockStart (GroupReads indexer ec isMax rows) := by
  intro a b hab h
  unfold GroupReads at h ⊢
  split
  · rename_i k hk
    rw [hk] at h
    obtain ⟨r, hr, hs⟩ := h
    exact ⟨r, hr, lhsValue_congr (hrows r hr) le_rfl hab ▸ hs⟩
  · trivial

/-- The members of some rows, with the demanded end opened when the native arm needs it. -/
def openedMembers (opened isMax : Bool) (members : List ExtremumMember) : List ExtremumMember :=
  if opened then members.map fun m => { m with range := openDemandedEnd isMax m.range }
  else members

theorem mem_openedMembers {opened isMax : Bool} {members : List ExtremumMember}
    {m : ExtremumMember} (hm : m ∈ openedMembers opened isMax members) :
    ∃ m₀ ∈ members, m.link = m₀.link ∧ ∀ y, m₀.range.Contains y → m.range.Contains y := by
  cases opened with
  | true =>
    obtain ⟨m₀, hm₀, rfl⟩ := List.mem_map.mp hm
    exact ⟨m₀, hm₀, rfl, fun _ hy => openDemandedEnd_contains hy⟩
  | false => exact ⟨m, hm, rfl, fun _ hy => hy⟩

theorem openedMembers_values (opened isMax : Bool) (members : List ExtremumMember) (a : Nat → ℚ) :
    ((openedMembers opened isMax members).map fun m => m.value a) =
      members.map fun m => m.value a := by
  cases opened with
  | true =>
    simp only [openedMembers, if_true, List.map_map]
    rfl
  | false => rfl

/-- The members of the rows, as `buildMinMaxGroups` builds them. -/
def rowMembers (input : SolverInput) (indexer : VarIndexer) (ec : EvaluatedConstraint)
    (rows : List Nat) : List ExtremumMember :=
  rows.map (minMaxMember input indexer ec)

/-- The reach of the members together. -/
def familyOf (members : List ExtremumMember) : AuxRange :=
  members.foldl (fun family m => family.cover m.range) {}

section Group

variable {init : SolverInput} {rows : List Nat} {isMax opened : Bool}

variable (opened isMax init) in
theorem rowMembers_values (hcut : ∀ r ∈ rows, CutClean indexer ec.lhsTerms r) (a : Nat → ℚ) :
    ((openedMembers opened isMax (rowMembers init indexer ec rows)).map fun m => m.value a) =
      rows.map (ec.lhsValue indexer a) := by
  rw [openedMembers_values, rowMembers, List.map_map]
  exact List.map_congr_left fun r hr => minMaxMember_value (hcut r hr) a

variable (opened isMax init) in
theorem exists_rowMember_iff (hcut : ∀ r ∈ rows, CutClean indexer ec.lhsTerms r) (Q : ℚ → Prop)
    (a : Nat → ℚ) :
    (∃ m ∈ openedMembers opened isMax (rowMembers init indexer ec rows), Q (m.value a)) ↔
      ∃ r ∈ rows, Q (ec.lhsValue indexer a r) := by
  have h1 : ∀ ms : List ExtremumMember, (∃ m ∈ ms, Q (m.value a)) ↔
      ∃ y ∈ ms.map fun m => m.value a, Q y := fun ms => by simp
  rw [h1, rowMembers_values init isMax opened hcut]
  simp

theorem rowMembers_below (hrows : ∀ r ∈ rows, r < indexer.numRows) :
    MembersBelow indexer.globalBlockStart
      (openedMembers opened isMax (rowMembers init indexer ec rows)) := by
  intro m hm t ht
  obtain ⟨m₀, hm₀, hlink, -⟩ := mem_openedMembers hm
  obtain ⟨r, hr, rfl⟩ := List.mem_map.mp hm₀
  rw [hlink] at ht
  exact minMaxLink_columns ec.lhsTerms (hrows r hr) t (List.mem_filter.mp ht).1

/-- Every member's value lies in its own range and in the family's. -/
theorem rowMembers_contains (hrows : ∀ r ∈ rows, r < init.numRows)
    (hcut : ∀ r ∈ rows, CutClean indexer ec.lhsTerms r) (ha : init.InBoxes indexer a) :
    ∀ m ∈ openedMembers opened isMax (rowMembers init indexer ec rows),
      m.range.Contains (m.value a) ∧
        (familyOf (rowMembers init indexer ec rows)).Contains (m.value a) := by
  intro m hm
  obtain ⟨m₀, hm₀, hlink, hc⟩ := mem_openedMembers hm
  have hv : m.value a = m₀.value a := by
    unfold ExtremumMember.value
    rw [hlink]
  have hm₀c : m₀.range.Contains (m₀.value a) := by
    obtain ⟨r, hr, rfl⟩ := List.mem_map.mp hm₀
    exact minMaxMember_contains (hcut r hr) (hrows r hr) ha
  rw [hv]
  exact ⟨hc _ hm₀c, family_contains hm₀ hm₀c⟩

/-- **One group of the loop.** The members were built from `init`; the input has grown since. -/
theorem linearizeMinMaxGroup_spec {out : SolverInput} {varNames : List String}
    {policy : NativeConstructPolicy}
    (hn : init.numRows = indexer.numRows) (hrows : ∀ r ∈ rows, r < init.numRows)
    (hcut : ∀ r ∈ rows, CutClean indexer ec.lhsTerms r) (hw : input.WellScoped indexer)
    (hbox : ∀ a, input.Holds indexer a → init.InBoxes indexer a)
    (hok : linearizeMinMaxGroup indexer ec isMax varNames policy input
      ⟨rowMembers init indexer ec rows, familyOf (rowMembers init indexer ec rows), rows.head?⟩ =
        .ok out) :
    out.WellScoped indexer ∧
      System.Extends (input.system indexer) (out.system indexer)
        (GroupReads indexer ec isMax rows) := by
  have hsame : (∀ a, GroupReads indexer ec isMax rows a) → input = out → out.WellScoped indexer ∧
      System.Extends (input.system indexer) (out.system indexer)
        (GroupReads indexer ec isMax rows) := by
    rintro hP rfl
    refine ⟨hw, (System.Extends.refl _ hw.readsBelow).congr fun a _ => ?_⟩
    exact ⟨fun _ => hP a, fun _ => trivial⟩
  cases hhead : rows.head? with
  | none =>
    refine hsame (fun a => by simp [GroupReads, hhead]) ?_
    simpa only [linearizeMinMaxGroup, hhead, Except.ok.injEq] using hok
  | some r0 =>
    cases hk : ec.rhsValues r0 with
    | negInf =>
      refine hsame (fun a => by simp [GroupReads, hhead, hk]) ?_
      simpa only [linearizeMinMaxGroup, hhead, hk, Except.ok.injEq] using hok
    | posInf =>
      refine hsame (fun a => by simp [GroupReads, hhead, hk]) ?_
      simpa only [linearizeMinMaxGroup, hhead, hk, Except.ok.injEq] using hok
    | fin k =>
      simp only [linearizeMinMaxGroup, hhead, hk] at hok
      generalize hopened : (boundOutOfReach (familyOf (rowMembers init indexer ec rows)) k isMax &&
        policy.use (widenToBound (familyOf (rowMembers init indexer ec rows)) k isMax).unbounded) =
          opened at hok
      set family := widenToBound (familyOf (rowMembers init indexer ec rows)) k isMax with hfam
      set members := openedMembers opened isMax (rowMembers init indexer ec rows) with hmembers
      rw [show (if opened = true then (rowMembers init indexer ec rows).map fun m =>
          { m with range := openDemandedEnd isMax m.range }
        else rowMembers init indexer ec rows) = members from rfl] at hok
      set zRange := if opened = true then openDemandedEnd isMax family else family with hzRange
      set z := input.width indexer with hz
      have hmne : members ≠ [] := by
        intro h0
        have := rowMembers_values init isMax opened hcut fun _ => 0
        rw [← hmembers, h0] at this
        have hnil : rows = [] := by simpa using this.symm
        rw [hnil] at hhead
        cases hhead
      have hbelow : MembersBelow z members :=
        (rowMembers_below fun r hr => hn ▸ hrows r hr).mono (Nat.le_add_right _ _)
      have hcontains : ∀ a, init.InBoxes indexer a → ∀ m ∈ members,
          m.range.Contains (m.value a) ∧ family.Contains (m.value a) := fun a ha m hm =>
        (rowMembers_contains hrows hcut ha m hm).imp_right widenToBound_contains
      have hzContains : ∀ a, init.InBoxes indexer a → ∀ m ∈ members,
          zRange.Contains (m.value a) := by
        intro a ha m hm
        rw [hzRange]
        by_cases ho : opened = true
        · rw [if_pos ho]
          exact openDemandedEnd_contains (hcontains a ha m hm).2
        · rw [if_neg ho]
          exact (hcontains a ha m hm).2
      set s1 := (input.addGlobalContinuousAux indexer zRange).1 with hs1
      set box : ColumnBox := ⟨if zRange.loUnbounded then -openBound else zRange.lo,
        if zRange.hiUnbounded then openBound else zRange.hi, false⟩ with hboxdef
      have hw1 : s1.WellScoped indexer := hw.appendColumn _
      have hwidth1 : s1.width indexer = z + 1 := addGlobalContinuousAux_width _
      have hholds1 : ∀ b, s1.Holds indexer b ↔ input.Holds indexer b ∧ box.Admits (b z) :=
        fun b => holds_appendColumn box
      simp only [addGlobalContinuousAux_snd] at hok
      split at hok
      · cases hok
      rename_i s2 hs2
      simp only [Except.ok.injEq] at hok
      obtain ⟨hw2, hext⟩ := emitExtremumLink_spec _ hw1 (by show z < _; omega)
        (hbelow.mono (by omega)) hmne
        (fun a ha m hm => (hcontains a (hbox a ((hholds1 a).mp ha).1) m hm).1)
        (by
          -- the lowered arm: the family's span is the Big-M
          intro _ hund a ha
          rintro ⟨m, hm, hcl⟩ m' hm'
          have hin := hbox a ((hholds1 a).mp ha).1
          have hund' : family.unbounded = false := hund
          have := span_dominates hund' (hcontains a hin m hm).2 (hcontains a hin m' hm').2 hcl
          simpa [hund'] using this) hs2
      have hz2 : z < s2.width indexer := by
        have h1 : s1.width indexer ≤ s2.width indexer := hext.width_le
        omega
      have hrow : ∀ c, Row.Holds ⟨[(z, (1 : ℚ))], if isMax = true then .ge else .le, k⟩ c ↔
          BoundSide isMax k (c z) := by
        intro c
        unfold Row.Holds BoundSide
        cases isMax <;> simp [Sense.Holds]
      subst hok
      refine ⟨hw2.pushRow (by simpa using hz2), ?_⟩
      have hrowBelow : ReadsBelow (s1.width indexer)
          (Row.Holds ⟨[(z, (1 : ℚ))], if isMax = true then .ge else .le, k⟩) :=
        Row.readsBelow (by simp; omega)
      have hall := hext.trans (hw2.extends_pushRow (r := ⟨[(z, 1)], _, k⟩) (by simpa using hz2))
        hrowBelow
      have hcol := System.Extends.exists_column (S := input.system indexer)
        (A := box.Admits)
        (L := fun a y => (if policy.use family.unbounded = true then ExtremumOf isMax members a y
          else ∃ m ∈ members, ClosingSide isMax y (m.value a)) ∧ BoundSide isMax k y)
        hw.readsBelow hwidth1 hholds1 ?_ (hall.congr fun c _ => ?_)
      · refine hcol.congr fun a ha => ?_
        have hadm : ∀ m ∈ members, box.Admits (m.value a) := fun m hm =>
          admits_of_contains (hzContains a (hbox a ha) m hm)
        have hreads : GroupReads indexer ec isMax rows a ↔
            ∃ r ∈ rows, BoundSide isMax k (ec.lhsValue indexer a r) := by
          simp [GroupReads, hhead, hk]
        rw [hreads, ← exists_rowMember_iff init isMax opened hcut
          (BoundSide isMax k) a, ← hmembers]
        by_cases hu : policy.use family.unbounded = true
        · simpa only [if_pos hu] using exists_extremum_iff hmne box hadm
        · simpa only [if_neg hu] using exists_result_iff box hadm
      · intro y c d hcd
        rintro ⟨h, hb⟩
        refine ⟨?_, hb⟩
        have hmv : ∀ m ∈ members, m.value c = m.value d := fun m hm =>
          ExtremumMember.value_congr (hbelow m hm) hcd
        have hmap : (members.map fun m => m.value c) = members.map fun m => m.value d :=
          List.map_congr_left hmv
        by_cases hu : policy.use family.unbounded = true
        · simp only [if_pos hu, ExtremumOf] at h ⊢
          rwa [← hmap]
        · simp only [if_neg hu] at h ⊢
          obtain ⟨m, hm, hs⟩ := h
          exact ⟨m, hm, hmv m hm ▸ hs⟩
      · show LinkAsks _ members policy c ∧ _ ↔ _
        rw [hrow c]
        simp [LinkAsks, SolverInput.system, hz]

end Group

/-! ## Settling the infinite bounds -/

/-- The verdict of a group is its last row's. -/
theorem groupKinds_eq (ec : EvaluatedConstraint) (n : Nat) (isMax : Bool) {g : Nat}
    (hg : g < ec.groupCount) :
    groupKinds ec n isMax g = ((groupRows ec n g).getLast?).map fun r =>
      classifyMinMaxBound (decideRowEffectiveBound ec r) isMax := by
  unfold groupKinds groupRows
  induction n with
  | zero => simp
  | succ n ih =>
    rw [List.range_succ, List.foldl_append, List.filter_append, List.foldl_cons, List.foldl_nil]
    cases hgr : ec.groupOf n with
    | none => simp [hgr, ih]
    | some g' =>
      by_cases heq : g' = g
      · subst heq
        simp [hgr, Nat.not_le.mpr hg]
      · have hne : g ≠ g' := fun h => heq h.symm
        by_cases hle : ec.groupCount ≤ g'
        · simp [hgr, heq, hle, ih]
        · simp [hgr, heq, hle, ih, hne]

/-- Moving a constant across does not change what an infinite bound means. -/
theorem classify_effective (ec : EvaluatedConstraint) (r : Nat) (isMax : Bool) :
    classifyMinMaxBound (decideRowEffectiveBound ec r) isMax =
      classifyMinMaxBound (ec.rhsValues r) isMax := by
  unfold decideRowEffectiveBound Bound.sub
  cases ec.rhsValues r <;> rfl

theorem groupRows_maskGroups (ec : EvaluatedConstraint) (keep : Nat → Bool) (n g : Nat) :
    groupRows (maskGroups ec keep) n g = if keep g then groupRows ec n g else [] := by
  unfold groupRows
  have hmask : ∀ r, (maskGroups ec keep).groupOf r = (ec.groupOf r).filter keep := fun _ => rfl
  by_cases hk : keep g = true
  · rw [if_pos hk]
    refine List.filter_congr fun r _ => ?_
    rw [hmask]
    cases h : ec.groupOf r with
    | none => simp
    | some g' =>
      by_cases hg : g' = g
      · simp [hg, hk]
      · simp only [Option.filter]
        split <;> simp [hg]
  · rw [if_neg hk]
    refine List.filter_eq_nil_iff.mpr fun r _ => ?_
    rw [hmask]
    cases h : ec.groupOf r with
    | none => simp
    | some g' =>
      by_cases hg : g' = g
      · simp [hg, hk]
      · simp only [Option.filter]
        split <;> simp [hg]

/-- What the encoded groups of one constraint ask. -/
def EncodedReads (indexer : VarIndexer) (numRows : Nat) (isMax : Bool)
    (encoded : Option EvaluatedConstraint) (a : Nat → ℚ) : Prop :=
  ∀ ec, encoded = some ec → ∀ g, g < ec.groupCount →
    GroupReads indexer ec isMax (groupRows ec numRows g) a

theorem groupReads_congr {ec' : EvaluatedConstraint} {isMax : Bool} {rows : List Nat}
    (hrhs : ec'.rhsValues = ec.rhsValues) (hlhs : ec'.lhsTerms = ec.lhsTerms) :
    GroupReads indexer ec' isMax rows a ↔ GroupReads indexer ec isMax rows a := by
  unfold GroupReads EvaluatedConstraint.lhsValue
  rw [hrhs, hlhs]

/-- What a tagged constraint asks of the rows of one group, when they share their bound. -/
def HardReads (isMax : Bool) (cmp : Comparison) (bound : Bound) (values : List ℚ) : Prop :=
  match classifyMinMaxBound bound isMax, bound with
  | .linearize, .fin k => ∃ v ∈ values, BoundSide isMax k v
  | .noSolution, k => ∀ v ∈ values, cmp.Holds v k
  | _, _ => True

/-- Every row names a group that exists. -/
def GroupsInRange (ec : EvaluatedConstraint) (numRows : Nat) : Prop :=
  ∀ r g, r < numRows → ec.groupOf r = some g → g < ec.groupCount

/-- The constraint with its single implicit group made explicit, as masking needs it. -/
def materialized (ec : EvaluatedConstraint) : EvaluatedConstraint :=
  { ec with numGroups := if ec.rowGroupIds.isNone then 1 else ec.numGroups }

theorem groupCount_mask (ec : EvaluatedConstraint) (keep : Nat → Bool) :
    (maskGroups (materialized ec) keep).groupCount = ec.groupCount := by
  unfold materialized maskGroups EvaluatedConstraint.groupCount
  cases ec.rowGroupIds <;> simp

theorem groupRows_mask (ec : EvaluatedConstraint) (keep : Nat → Bool) (n g : Nat) :
    groupRows (maskGroups (materialized ec) keep) n g = if keep g then groupRows ec n g else [] :=
  groupRows_maskGroups (materialized ec) keep n g

theorem anyKind_iff (numRows : Nat) (isMax : Bool) (k : MinMaxBoundKind) :
    ((List.range ec.groupCount).any fun g => groupKinds ec numRows isMax g = some k) = true ↔
      ∃ g, g < ec.groupCount ∧ groupKinds ec numRows isMax g = some k := by
  simp

/-- The groups of one verdict, as a masked constraint. -/
def groupsOfKind (ec : EvaluatedConstraint) (numRows : Nat) (isMax : Bool) (k : MinMaxBoundKind) :
    EvaluatedConstraint :=
  maskGroups (materialized ec) fun g => groupKinds ec numRows isMax g = some k

/-- Some group has this verdict. -/
def HasKind (ec : EvaluatedConstraint) (numRows : Nat) (isMax : Bool) (k : MinMaxBoundKind) : Prop :=
  ∃ g, g < ec.groupCount ∧ groupKinds ec numRows isMax g = some k

theorem classify_cases (ec : EvaluatedConstraint) (numRows : Nat) (isMax : Bool) :
    ((¬ HasKind ec numRows isMax .vacuous ∧ ¬ HasKind ec numRows isMax .noSolution) ∧
        classifyMinMaxGroups ec numRows isMax = (some ec, [])) ∨
      ((∃ encoded, (classifyMinMaxGroups ec numRows isMax).1 = encoded ∧
          ((HasKind ec numRows isMax .linearize ∧
              encoded = some (groupsOfKind ec numRows isMax .linearize)) ∨
            (¬ HasKind ec numRows isMax .linearize ∧ encoded = none))) ∧
        ((HasKind ec numRows isMax .noSolution ∧ (classifyMinMaxGroups ec numRows isMax).2 =
            [{ groupsOfKind ec numRows isMax .noSolution with
                minmaxAggType := none
                lhsIsAggregate := false }]) ∨
          (¬ HasKind ec numRows isMax .noSolution ∧
            (classifyMinMaxGroups ec numRows isMax).2 = []))) := by
  have hany : ∀ k, ((List.range ec.groupCount).any fun g =>
      groupKinds ec numRows isMax g = some k) = true ↔ HasKind ec numRows isMax k := fun k => by
    simp [HasKind]
  simp only [classifyMinMaxGroups]
  by_cases hspecial : (((List.range ec.groupCount).any fun g =>
      groupKinds ec numRows isMax g = some .vacuous) || (List.range ec.groupCount).any fun g =>
      groupKinds ec numRows isMax g = some .noSolution) = true
  · right
    rw [if_pos hspecial]
    refine ⟨⟨_, rfl, ?_⟩, ?_⟩
    · by_cases hlin : HasKind ec numRows isMax .linearize
      · exact Or.inl ⟨hlin, if_pos ((hany _).mpr hlin)⟩
      · exact Or.inr ⟨hlin, if_neg fun h => hlin ((hany _).mp h)⟩
    · by_cases hno : HasKind ec numRows isMax .noSolution
      · exact Or.inl ⟨hno, if_pos ((hany _).mpr hno)⟩
      · exact Or.inr ⟨hno, if_neg fun h => hno ((hany _).mp h)⟩
  · left
    rw [if_neg hspecial]
    simp only [Bool.or_eq_true, not_or] at hspecial
    exact ⟨⟨fun h => hspecial.1 ((hany _).mpr h), fun h => hspecial.2 ((hany _).mpr h)⟩, rfl⟩

/-- The groups that are encoded are those the verdict leaves. -/
theorem encodedReads_iff (numRows : Nat) (isMax : Bool) :
    EncodedReads indexer numRows isMax (classifyMinMaxGroups ec numRows isMax).1 a ↔
      ∀ g, g < ec.groupCount → groupKinds ec numRows isMax g = some .linearize →
        GroupReads indexer ec isMax (groupRows ec numRows g) a := by
  rcases classify_cases ec numRows isMax with ⟨⟨hvac, hno⟩, hc⟩ | ⟨⟨encoded, hc, h⟩, -⟩
  · rw [hc]
    constructor
    · intro h g hg _
      exact h ec rfl g hg
    · rintro h _ hec g hg
      obtain rfl := Option.some.inj hec
      cases hk : groupKinds ec numRows isMax g with
      | none =>
        rw [groupKinds_eq ec numRows isMax hg, Option.map_eq_none_iff,
          List.getLast?_eq_none_iff] at hk
        simp [GroupReads, hk]
      | some k =>
        cases k with
        | linearize => exact h g hg hk
        | vacuous => exact absurd ⟨g, hg, hk⟩ hvac
        | noSolution => exact absurd ⟨g, hg, hk⟩ hno
  · rw [hc]
    rcases h with ⟨-, rfl⟩ | ⟨hlin, rfl⟩
    · have hrows : ∀ g, groupRows (groupsOfKind ec numRows isMax .linearize) numRows g =
          if groupKinds ec numRows isMax g = some .linearize then groupRows ec numRows g else [] :=
        fun g => by
          rw [groupsOfKind, groupRows_mask]
          simp only [decide_eq_true_eq]
      constructor
      · intro h g hg hk
        have := h _ rfl g ((groupCount_mask ec _).symm ▸ hg)
        rw [hrows, if_pos hk] at this
        exact this
      · intro h ec' hec' g hg
        obtain rfl := Option.some.inj hec'
        rw [hrows]
        by_cases hk : groupKinds ec numRows isMax g = some .linearize
        · rw [if_pos hk]
          exact h g ((groupCount_mask ec _) ▸ hg) hk
        · rw [if_neg hk]
          simp [GroupReads]
    · refine ⟨fun _ g hg hk => absurd ⟨g, hg, hk⟩ hlin, ?_⟩
      intro _ ec' hec'
      cases hec'

/-- The groups without a solution remain as plain per-row constraints. -/
theorem noSolution_iff (numRows : Nat) (isMax : Bool) (hrange : GroupsInRange ec numRows) :
    (∀ c ∈ (classifyMinMaxGroups ec numRows isMax).2, c.PerRowHolds indexer numRows a) ↔
      ∀ g, g < ec.groupCount → groupKinds ec numRows isMax g = some .noSolution →
        ∀ r ∈ groupRows ec numRows g,
          ec.comparisonType.Holds (ec.lhsValue indexer a r) (ec.rhsValues r) := by
  rcases classify_cases ec numRows isMax with ⟨⟨-, hno⟩, hc⟩ | ⟨-, ⟨-, hc⟩ | ⟨hno, hc⟩⟩
  · rw [hc]
    exact ⟨fun _ g hg hk => absurd ⟨g, hg, hk⟩ hno, by simp⟩
  · rw [hc]
    have hgroup : ∀ r, (groupsOfKind ec numRows isMax .noSolution).groupOf r =
        (ec.groupOf r).filter fun g => groupKinds ec numRows isMax g = some .noSolution :=
      fun _ => rfl
    simp only [List.mem_singleton, forall_eq]
    constructor
    · intro h g _ hk r hr
      obtain ⟨hrn, hrg⟩ := mem_groupRows.mp hr
      refine h r hrn ?_
      show ((groupsOfKind ec numRows isMax .noSolution).groupOf r).isSome
      rw [hgroup, hrg]
      simp [hk]
    · intro h r hrn hsome
      have hsome' : ((groupsOfKind ec numRows isMax .noSolution).groupOf r).isSome := hsome
      rw [hgroup] at hsome'
      cases hrg : ec.groupOf r with
      | none => simp [hrg] at hsome'
      | some g =>
        have hk : groupKinds ec numRows isMax g = some .noSolution := by
          by_contra hk
          simp [hrg, hk] at hsome'
        exact h g (hrange r g hrn hrg) hk r (mem_groupRows.mpr ⟨hrn, hrg⟩)
  · rw [hc]
    exact ⟨fun _ g hg hk => absurd ⟨g, hg, hk⟩ hno, by simp⟩

/-- **What a tagged constraint asks, group by group**, once the rows of a group share their
bound. -/
def TaggedReads (indexer : VarIndexer) (numRows : Nat) (isMax : Bool) (ec : EvaluatedConstraint)
    (a : Nat → ℚ) : Prop :=
  ∀ g, ∀ r₀ ∈ groupRows ec numRows g, HardReads isMax ec.comparisonType (ec.rhsValues r₀)
    ((groupRows ec numRows g).map (ec.lhsValue indexer a))

theorem taggedReads_iff {numRows : Nat} {isMax : Bool} (hrange : GroupsInRange ec numRows)
    (hrhs : RhsUniform ec numRows) :
    (EncodedReads indexer numRows isMax (classifyMinMaxGroups ec numRows isMax).1 a ∧
        ∀ c ∈ (classifyMinMaxGroups ec numRows isMax).2, c.PerRowHolds indexer numRows a) ↔
      TaggedReads indexer numRows isMax ec a := by
  rw [encodedReads_iff, noSolution_iff numRows isMax hrange]
  have hkind : ∀ g, ∀ r₀ ∈ groupRows ec numRows g, g < ec.groupCount ∧
      groupKinds ec numRows isMax g = some (classifyMinMaxBound (ec.rhsValues r₀) isMax) := by
    intro g r₀ hr₀
    obtain ⟨hrn, hrg⟩ := mem_groupRows.mp hr₀
    have hg := hrange r₀ g hrn hrg
    refine ⟨hg, ?_⟩
    rw [groupKinds_eq ec numRows isMax hg]
    obtain ⟨l, hl⟩ := Option.isSome_iff_exists.mp
      (List.getLast?_isSome.mpr (List.ne_nil_of_mem hr₀))
    obtain ⟨hln, hlg⟩ := mem_groupRows.mp (List.mem_of_getLast? hl)
    rw [hl, Option.map_some, classify_effective, hrhs l r₀ g hln hrn hlg hrg]
  have hhead : ∀ g, ∀ r₀ ∈ groupRows ec numRows g,
      (groupRows ec numRows g).head?.map ec.rhsValues = some (ec.rhsValues r₀) := by
    intro g r₀ hr₀
    obtain ⟨hrn, hrg⟩ := mem_groupRows.mp hr₀
    obtain ⟨l, hl⟩ := Option.isSome_iff_exists.mp
      (List.isSome_head?.mpr (List.ne_nil_of_mem hr₀))
    obtain ⟨hln, hlg⟩ := mem_groupRows.mp (List.mem_of_head? hl)
    rw [hl, Option.map_some, hrhs l r₀ g hln hrn hlg hrg]
  constructor
  · rintro ⟨henc, hno⟩ g r₀ hr₀
    obtain ⟨hg, hk⟩ := hkind g r₀ hr₀
    have hh := hhead g r₀ hr₀
    unfold HardReads
    cases hb : ec.rhsValues r₀ with
    | fin k =>
      have := henc g hg (by rw [hk, hb]; rfl)
      unfold GroupReads at this
      rw [hh, hb] at this
      obtain ⟨r, hr, hs⟩ := this
      exact ⟨_, List.mem_map_of_mem hr, hs⟩
    | posInf =>
      cases isMax with
      | true =>
        have := hno g hg (by rw [hk, hb]; rfl)
        simp only [classifyMinMaxBound, if_true, List.mem_map]
        rintro v ⟨r, hr, rfl⟩
        obtain ⟨hrn, hrg⟩ := mem_groupRows.mp hr
        obtain ⟨hr₀n, hr₀g⟩ := mem_groupRows.mp hr₀
        rw [← hb, ← hrhs r r₀ g hrn hr₀n hrg hr₀g]
        exact this r hr
      | false => trivial
    | negInf =>
      cases isMax with
      | true => trivial
      | false =>
        have := hno g hg (by rw [hk, hb]; rfl)
        simp only [classifyMinMaxBound, Bool.false_eq_true, if_false, List.mem_map]
        rintro v ⟨r, hr, rfl⟩
        obtain ⟨hrn, hrg⟩ := mem_groupRows.mp hr
        obtain ⟨hr₀n, hr₀g⟩ := mem_groupRows.mp hr₀
        rw [← hb, ← hrhs r r₀ g hrn hr₀n hrg hr₀g]
        exact this r hr
  · intro h
    refine ⟨fun g hg hk => ?_, fun g hg hk r hr => ?_⟩
    · cases hrows : (groupRows ec numRows g).head? with
      | none => simp [GroupReads, hrows]
      | some r₀ =>
        have hr₀ := List.mem_of_head? hrows
        have hr := h g r₀ hr₀
        have hk' := (hkind g r₀ hr₀).2
        rw [hk] at hk'
        have hkb := Option.some.inj hk'
        unfold HardReads at hr
        unfold GroupReads
        rw [hhead g r₀ hr₀]
        rw [← hkb] at hr
        cases hb : ec.rhsValues r₀ with
        | fin k =>
          rw [hb] at hr
          obtain ⟨v, hv, hs⟩ := hr
          obtain ⟨r, hr, rfl⟩ := List.mem_map.mp hv
          exact ⟨r, hr, hs⟩
        | posInf => trivial
        | negInf => trivial
    · have hr' := h g r hr
      have hk' := (hkind g r hr).2
      rw [hk] at hk'
      unfold HardReads at hr'
      rw [← Option.some.inj hk'] at hr'
      exact hr' _ (List.mem_map_of_mem hr)

/-! ## The loop over the constraints -/

/-- What one constraint of the loop asks of the columns before it. -/
def MinMaxAsks (indexer : VarIndexer) (numRows : Nat) (ec : EvaluatedConstraint)
    (a : Nat → ℚ) : Prop :=
  ∀ agg, ec.minmaxAggType = some agg →
    EncodedReads indexer numRows (agg = .max) (classifyMinMaxGroups ec numRows (agg = .max)).1 a

/-- What one constraint of the loop leaves as ordinary constraints. -/
def remaining (numRows : Nat) (ec : EvaluatedConstraint) : List EvaluatedConstraint :=
  match ec.minmaxAggType with
  | none => [ec]
  | some agg => (classifyMinMaxGroups ec numRows (agg = .max)).2

theorem encoded_lhsTerms {ec' : EvaluatedConstraint} {numRows : Nat} {isMax : Bool}
    (h : (classifyMinMaxGroups ec numRows isMax).1 = some ec') : ec'.lhsTerms = ec.lhsTerms := by
  rcases classify_cases ec numRows isMax with ⟨-, hc⟩ | ⟨⟨encoded, hc, h'⟩, -⟩
  · rw [hc] at h
    exact congrArg EvaluatedConstraint.lhsTerms (Option.some.inj h).symm
  · rw [hc] at h
    rcases h' with ⟨-, he⟩ | ⟨-, he⟩
    · rw [he] at h
      obtain rfl := Option.some.inj h
      rfl
    · rw [he] at h
      cases h

theorem minMaxAsks_readsBelow (hn : input.numRows = indexer.numRows) :
    ReadsBelow indexer.globalBlockStart (MinMaxAsks indexer input.numRows ec) := by
  intro a b hab h agg hagg ec' hec' g hg
  refine groupReads_readsBelow (fun r hr => ?_) a b hab (h agg hagg ec' hec' g hg)
  exact hn ▸ (mem_groupRows.mp hr).1

/-- The groups of one constraint, one after the other. -/
theorem linearizeGroups_spec {out : SolverInput} {varNames : List String}
    {policy : NativeConstructPolicy} {isMax : Bool} (hw : input.WellScoped indexer)
    (hcut : ∀ r, r < input.numRows → CutClean indexer ec.lhsTerms r)
    (hok : (buildMinMaxGroups input indexer ec).foldlM
      (linearizeMinMaxGroup indexer ec isMax varNames policy) input = .ok out) :
    out.WellScoped indexer ∧ System.Extends (input.system indexer) (out.system indexer) fun a =>
      ∀ g, g < ec.groupCount → GroupReads indexer ec isMax (groupRows ec input.numRows g) a := by
  have hrows : ∀ g, ∀ r ∈ groupRows ec input.numRows g, r < input.numRows := fun g r hr =>
    (mem_groupRows.mp hr).1
  rw [buildMinMaxGroups, List.foldlM_map] at hok
  obtain ⟨hInv, hext⟩ := System.Extends.foldlM (fun s => s.system indexer)
    (fun s g => linearizeMinMaxGroup indexer ec isMax varNames policy s
      ⟨rowMembers input indexer ec (groupRows ec input.numRows g),
        familyOf (rowMembers input indexer ec (groupRows ec input.numRows g)),
        (groupRows ec input.numRows g).head?⟩)
    indexer.globalBlockStart
    (fun s => s.WellScoped indexer ∧ ∀ a, s.Holds indexer a → input.InBoxes indexer a)
    (fun g => GroupReads indexer ec isMax (groupRows ec input.numRows g))
    (fun s hs => ⟨Nat.le_add_right _ _, hs.1.readsBelow⟩)
    (List.range ec.groupCount)
    (fun g _ => groupReads_readsBelow fun r hr => hw.numRows_eq ▸ hrows g r hr)
    (fun s s' g _ hs hs' => by
      obtain ⟨hw', hext⟩ := linearizeMinMaxGroup_spec hw.numRows_eq (hrows g)
        (fun r hr => hcut r (hrows g r hr)) hs.1 hs.2 hs'
      exact ⟨⟨hw', fun a ha => hs.2 a (hext.holds ha).1⟩, hext⟩)
    input out ⟨hw, fun a ha => ha.inBoxes⟩ hok
  exact ⟨hInv.1, hext.congr fun a _ => by simp⟩

/-- One constraint of the loop. -/
theorem linearizeMinMaxConstraint_spec {s s' : SolverInput × List EvaluatedConstraint}
    {varNames : List String} {policy : NativeConstructPolicy} (hw : s.1.WellScoped indexer)
    (hcut : ec.minmaxAggType ≠ none → ∀ r, r < s.1.numRows → CutClean indexer ec.lhsTerms r)
    (hok : linearizeMinMaxConstraint indexer varNames policy s ec = .ok s') :
    s'.1.WellScoped indexer ∧ s'.2 = s.2 ++ remaining indexer.numRows ec ∧
      System.Extends (s.1.system indexer) (s'.1.system indexer)
        (MinMaxAsks indexer indexer.numRows ec) := by
  have hrefl := System.Extends.refl (s.1.system indexer) hw.readsBelow
  rw [linearizeMinMaxConstraint] at hok
  cases hagg : ec.minmaxAggType with
  | none =>
    simp only [hagg, Except.ok.injEq] at hok
    subst hok
    exact ⟨hw, by simp [remaining, hagg], hrefl.congr fun a _ => by simp [MinMaxAsks, hagg]⟩
  | some agg =>
    simp only [hagg] at hok
    have hasks : ∀ a, MinMaxAsks indexer indexer.numRows ec a ↔
        EncodedReads indexer s.1.numRows (agg = .max)
          (classifyMinMaxGroups ec s.1.numRows (agg = .max)).1 a := fun a => by
      rw [hw.numRows_eq]
      simp [MinMaxAsks, hagg]
    have hrem : remaining indexer.numRows ec =
        (classifyMinMaxGroups ec s.1.numRows (agg = .max)).2 := by
      rw [hw.numRows_eq]
      simp [remaining, hagg]
    rw [hrem]
    cases hc : classifyMinMaxGroups ec s.1.numRows (agg = .max) with
    | mk encoded new =>
      rw [hc] at hok hasks
      cases encoded with
      | none =>
        simp only [Except.ok.injEq] at hok
        subst hok
        refine ⟨hw, rfl, hrefl.congr fun a _ => ?_⟩
        rw [hasks]
        simp [EncodedReads]
      | some ec' =>
        have hlhs : ec'.lhsTerms = ec.lhsTerms := encoded_lhsTerms (congrArg Prod.fst hc)
        simp only at hok
        split at hok
        · cases hok
        rename_i out hout
        simp only [Except.ok.injEq] at hok
        subst hok
        obtain ⟨hw', hext⟩ := linearizeGroups_spec hw
          (fun r hr => hlhs ▸ hcut (by simp [hagg]) r hr) hout
        refine ⟨hw', rfl, hext.congr fun a _ => ?_⟩
        rw [hasks]
        exact ⟨fun h c hcc g hg => by obtain rfl := Option.some.inj hcc; exact h g hg,
          fun h g hg => h ec' rfl g hg⟩

/-- **`LinearizeMinMaxConstraints`.** The pass extends the input, asking of each tagged constraint
what its encoded groups read, and leaves the rest as ordinary constraints. -/
theorem linearizeMinMaxConstraints_spec {out : SolverInput} {varNames : List String}
    {policy : NativeConstructPolicy} (hw : input.WellScoped indexer)
    (hcut : ∀ ec ∈ input.constraints, ec.minmaxAggType ≠ none →
      ∀ r, r < indexer.numRows → CutClean indexer ec.lhsTerms r)
    (hok : linearizeMinMaxConstraints input indexer varNames policy = .ok out) :
    out.WellScoped indexer ∧
      out.constraints = input.constraints.flatMap (remaining indexer.numRows) ∧
      System.Extends (input.system indexer) (out.system indexer) fun a =>
        ∀ ec ∈ input.constraints, MinMaxAsks indexer indexer.numRows ec a := by
  unfold linearizeMinMaxConstraints at hok
  split at hok
  · cases hok
  rename_i s constraints hs
  simp only [Except.ok.injEq] at hok
  have hstep : ∀ (s s' : SolverInput × List EvaluatedConstraint) ec, ec ∈ input.constraints →
      s.1.WellScoped indexer → linearizeMinMaxConstraint indexer varNames policy s ec = .ok s' →
      s'.1.WellScoped indexer ∧ s'.2 = s.2 ++ remaining indexer.numRows ec ∧
        System.Extends (s.1.system indexer) (s'.1.system indexer)
          (MinMaxAsks indexer indexer.numRows ec) := fun s s' ec hec hs =>
    linearizeMinMaxConstraint_spec hs fun ht r hr => hcut ec hec ht r (hs.numRows_eq ▸ hr)
  obtain ⟨hw', hext⟩ := System.Extends.foldlM
    (fun s : SolverInput × List EvaluatedConstraint => s.1.system indexer)
    (linearizeMinMaxConstraint indexer varNames policy) indexer.globalBlockStart
    (fun s => s.1.WellScoped indexer) (MinMaxAsks indexer indexer.numRows)
    (fun s hs => ⟨Nat.le_add_right _ _, hs.readsBelow⟩) input.constraints
    (fun ec _ => hw.numRows_eq ▸ minMaxAsks_readsBelow hw.numRows_eq)
    (fun s s' ec hec hs hs' => ⟨(hstep s s' ec hec hs hs').1, (hstep s s' ec hec hs hs').2.2⟩)
    (input, []) (s, constraints) hw hs
  have hrem : ∀ (l : List EvaluatedConstraint) (s s' : SolverInput × List EvaluatedConstraint),
      (∀ ec ∈ l, ec ∈ input.constraints) → s.1.WellScoped indexer →
      l.foldlM (linearizeMinMaxConstraint indexer varNames policy) s = .ok s' →
      s'.2 = s.2 ++ l.flatMap (remaining indexer.numRows) := by
    intro l
    induction l with
    | nil =>
      intro s s' _ _ h
      obtain rfl : s = s' := Except.ok.inj h
      simp
    | cons ec l ih =>
      intro s s' hl hs h
      rw [List.foldlM_cons] at h
      cases ht : linearizeMinMaxConstraint indexer varNames policy s ec with
      | error e => rw [ht] at h; cases h
      | ok t =>
        rw [ht] at h
        obtain ⟨htw, ht2, -⟩ := hstep s t ec (hl ec (by simp)) hs ht
        rw [ih t s' (fun c hc => hl c (by simp [hc])) htw h, ht2]
        simp
  have hc := hrem input.constraints (input, []) (s, constraints) (fun _ h => h) hw hs
  subst hok
  refine ⟨⟨hw'.numRows_eq, hw'.rows, hw'.generals, hw'.indicators⟩, by simpa using hc, ?_⟩
  refine ⟨hext.width_le, fun a => ?_⟩
  rw [← hext.completes_iff a]
  unfold System.Completes
  refine exists_congr fun b => and_congr_right fun _ => ?_
  exact ⟨fun h => ⟨h.inBoxes, h.globals, h.rows, h.generals, h.indicators⟩,
    fun h => ⟨h.inBoxes, h.globals, h.rows, h.generals, h.indicators⟩⟩

end Decidb
