import Decidb.Formulation.Proofs.MinMaxObjectiveProofs

/-!
# What a nested objective is worth

Under PER the inner aggregate has one auxiliary for every group, or is a sum written into the members of
the outer one. A group without a row that has a coefficient is pinned at zero.
-/

namespace Decidb

open Linear SolverInput

variable {indexer : VarIndexer} {input s t out : SolverInput} {a b : Nat → ℚ}

/-! ## Pinned columns -/

/-- A column confined to zero. -/
theorem zeroBox_admits_iff (x : ℚ) : (⟨0, 0, false⟩ : ColumnBox).Admits x ↔ x = 0 := by
  constructor
  · intro h
    have h0 : (0 : ℚ) ≤ x := h.lower_le.resolve_left (by norm_num [solverInfinity])
    have h1 : x ≤ 0 := h.le_upper.resolve_left (by norm_num [solverInfinity])
    exact le_antisymm h1 h0
  · rintro rfl
    exact ⟨Or.inr le_rfl, Or.inr le_rfl, by simp⟩

/-- A continuous column that may be zero. -/
def ZeroColumn (indexer : VarIndexer) (s : SolverInput) (z : Nat) : Prop :=
  ∃ i box, z = indexer.globalBlockStart + i ∧ s.globalColumns[i]? = some box ∧
    box.isInteger = false ∧ box.Admits 0

/-- **Pinning a column at zero asks exactly that.** -/
theorem holds_pinGlobalAux {z : Nat} (hz : ZeroColumn indexer s z) (b : Nat → ℚ) :
    (s.pinGlobalAux indexer z 0).Holds indexer b ↔ s.Holds indexer b ∧ b z = 0 := by
  obtain ⟨i, box, rfl, hbox, hint, hzero⟩ := hz
  have hpos : indexer.globalBlockStart + i - indexer.globalBlockStart = i := by omega
  have hself : { box with lower := 0, upper := 0 } = (⟨0, 0, false⟩ : ColumnBox) := by
    rw [← hint]
  have hcols : ∀ j, (s.pinGlobalAux indexer (indexer.globalBlockStart + i) 0).globalColumns[j]? =
      if i = j then some ⟨0, 0, false⟩ else s.globalColumns[j]? := by
    intro j
    show (s.globalColumns.modify _ _)[j]? = _
    rw [hpos, List.getElem?_modify]
    by_cases hij : i = j
    · subst hij
      rw [if_pos rfl, hbox, Option.map_eq_map, Option.map_some, if_pos rfl]
      exact congrArg some hself
    · simp [hij]
  constructor
  · intro h
    have hb0 := (zeroBox_admits_iff _).mp (h.globals i _ (by rw [hcols, if_pos rfl]))
    refine ⟨⟨h.inBoxes, fun j bj hj => ?_, h.rows, h.generals, h.indicators⟩, hb0⟩
    by_cases hij : i = j
    · subst hij
      obtain rfl : box = bj := Option.some.inj (hbox.symm.trans hj)
      rw [hb0]
      exact hzero
    · exact h.globals j bj (by rw [hcols, if_neg hij]; exact hj)
  · rintro ⟨h, hb0⟩
    refine ⟨h.inBoxes, fun j bj hj => ?_, h.rows, h.generals, h.indicators⟩
    rw [hcols] at hj
    by_cases hij : i = j
    · subst hij
      rw [if_pos rfl] at hj
      obtain rfl := Option.some.inj hj
      exact (zeroBox_admits_iff _).mpr hb0
    · rw [if_neg hij] at hj
      exact h.globals j bj hj

/-- A pinned column may still be zero, and so may the others. -/
theorem ZeroColumn.pin {z z' : Nat} (h : ZeroColumn indexer s z') :
    ZeroColumn indexer (s.pinGlobalAux indexer z 0) z' := by
  obtain ⟨i, box, rfl, hbox, hint, hzero⟩ := h
  refine ⟨i, if z - indexer.globalBlockStart = i then ⟨0, 0, false⟩ else box, rfl, ?_, ?_, ?_⟩
  · show (s.globalColumns.modify _ _)[i]? = _
    rw [List.getElem?_modify, hbox, Option.map_eq_map, Option.map_some]
    congr 1
    split
    · rw [← hint]
    · rfl
  · split
    · rfl
    · exact hint
  · split
    · exact (zeroBox_admits_iff 0).mpr rfl
    · exact hzero

/-- The columns of `s` keep their place and box in `t`. -/
def KeepsColumns (s t : SolverInput) : Prop := ∃ more, t.globalColumns = s.globalColumns ++ more

theorem KeepsColumns.refl (s : SolverInput) : KeepsColumns s s := ⟨[], (List.append_nil _).symm⟩

theorem KeepsColumns.trans {u : SolverInput} (h : KeepsColumns s t) (h' : KeepsColumns t u) :
    KeepsColumns s u := by
  obtain ⟨m, hm⟩ := h
  obtain ⟨m', hm'⟩ := h'
  exact ⟨m ++ m', by rw [hm', hm, List.append_assoc]⟩

theorem ZeroColumn.keeps {z : Nat} (h : ZeroColumn indexer s z) (hk : KeepsColumns s t) :
    ZeroColumn indexer t z := by
  obtain ⟨i, box, hz, hbox, hrest⟩ := h
  obtain ⟨more, hmore⟩ := hk
  refine ⟨i, box, hz, ?_, hrest⟩
  rw [hmore, List.getElem?_append_left (List.getElem?_eq_some_iff.mp hbox).1]
  exact hbox

theorem keepsColumns_emitArguments (members : List ExtremumMember) : ∀ s : SolverInput,
    KeepsColumns s (emitArguments indexer s members).1 := by
  induction members with
  | nil => exact KeepsColumns.refl
  | cons m members ih =>
    intro s
    have hone : KeepsColumns s (extremumArgumentColumn s indexer m).1 := by
      unfold extremumArgumentColumn
      split
      · exact .refl s
      · exact ⟨_, rfl⟩
    exact hone.trans (ih _)

theorem keepsColumns_emitSelectors (spec : ExtremumLinkSpec) (members : List ExtremumMember) :
    ∀ s : SolverInput, KeepsColumns s (emitSelectors indexer spec s members).1 := by
  induction members with
  | nil => exact KeepsColumns.refl
  | cons m members ih =>
    intro s
    have hone : KeepsColumns s ((s.addGlobalBinaryAux indexer).1.pushRow
        (closingRow spec m (s.addGlobalBinaryAux indexer).2)) := ⟨_, rfl⟩
    exact hone.trans (ih _)

/-- A link only appends columns. -/
theorem keepsColumns_emitExtremumLink {spec : ExtremumLinkSpec} {members : List ExtremumMember}
    {varNames : List String} {policy : NativeConstructPolicy}
    (hok : emitExtremumLink s indexer spec members varNames policy = .ok t) : KeepsColumns s t := by
  have henv : ∀ (members : List ExtremumMember) (s : SolverInput),
      (members.foldl (fun input member => input.pushRow (envelopeRow spec member)) s).globalColumns =
        s.globalColumns := by
    intro members
    induction members with
    | nil => exact fun _ => rfl
    | cons m members ih => exact fun s => ih _
  unfold emitExtremumLink at hok
  split at hok
  · obtain rfl := Except.ok.inj hok
    exact .refl s
  dsimp only at hok
  set env := if spec.needEnvelope = true then
      members.foldl (fun input member => input.pushRow (envelopeRow spec member)) s
    else s with henvdef
  have hkeep : KeepsColumns s env := by
    rw [henvdef]
    split
    · exact ⟨[], by rw [henv, List.append_nil]⟩
    · exact .refl s
  split at hok
  · obtain rfl := Except.ok.inj hok
    exact hkeep
  split at hok
  · obtain rfl := Except.ok.inj hok
    exact hkeep.trans (keepsColumns_emitArguments members env)
  split at hok
  · unfold throwUnboundedBigMNaming at hok
    split at hok <;> cases hok
  · obtain rfl := Except.ok.inj hok
    exact hkeep.trans (keepsColumns_emitSelectors spec members env)

/-! ## The auxiliaries of the groups -/

/-- What the allocation of one auxiliary for every group gives. -/
structure GroupsAllocated (indexer : VarIndexer) (family : AuxRange) (s out : SolverInput)
    (gs : List Nat) (zs : List (Nat × Nat)) : Prop where
  grown : Grown indexer s out
  groups : zs.map (·.1) = gs
  fresh : ∀ gz ∈ zs, s.width indexer ≤ gz.2 ∧ gz.2 < out.width indexer
  keeps : KeepsColumns s out
  zeroColumns : family.Contains 0 → ∀ gz ∈ zs, ZeroColumn indexer out gz.2
  holds_iff : ∀ b, out.Holds indexer b ↔ s.Holds indexer b ∧ ∀ gz ∈ zs,
    (⟨if family.loUnbounded then -openBound else family.lo,
      if family.hiUnbounded then openBound else family.hi, false⟩ : ColumnBox).Admits (b gz.2)
  /-- The columns are fresh and distinct, so they can be given any values. -/
  assign : ∀ (a : Nat → ℚ) (v : Nat → ℚ), ∃ b, AgreeBelow (s.width indexer) b a ∧
    ∀ gz ∈ zs, b gz.2 = v gz.1

theorem allocateGroups_spec (family : AuxRange) (gs : List Nat) : ∀ {s : SolverInput},
    s.WellScoped indexer → GroupsAllocated indexer family s (allocateGroups indexer family s gs).1 gs
      (allocateGroups indexer family s gs).2 := by
  induction gs with
  | nil =>
    intro s hs
    exact ⟨.refl hs, rfl, fun gz h => absurd h List.not_mem_nil, .refl s,
      fun _ gz h => absurd h List.not_mem_nil, fun b => by simp [allocateGroups],
      fun a v => ⟨a, AgreeBelow.refl _ _, fun gz h => absurd h List.not_mem_nil⟩⟩
  | cons g gs ih =>
    intro s hs
    unfold allocateGroups
    dsimp only
    set z := s.width indexer with hz
    set box : ColumnBox := ⟨if family.loUnbounded then -openBound else family.lo,
      if family.hiUnbounded then openBound else family.hi, false⟩ with hbox
    have hgrown : Grown indexer s (s.addGlobalContinuousAux indexer family).1 :=
      (emits_addGlobalContinuousAux hs family).toGrown
    have hholds : ∀ b, (s.addGlobalContinuousAux indexer family).1.Holds indexer b ↔
        s.Holds indexer b ∧ box.Admits (b z) := fun b => holds_appendColumn box
    have hwidth : (s.addGlobalContinuousAux indexer family).1.width indexer = z + 1 :=
      addGlobalContinuousAux_width family
    have hkeep : KeepsColumns s (s.addGlobalContinuousAux indexer family).1 := ⟨[box], rfl⟩
    have hzero : family.Contains 0 →
        ZeroColumn indexer (s.addGlobalContinuousAux indexer family).1 z := fun h0 => by
      refine ⟨s.globalColumns.length, box, rfl, ?_, rfl, admits_of_contains h0⟩
      show (s.globalColumns ++ [box])[_]? = _
      rw [List.getElem?_append_right le_rfl, Nat.sub_self]
      rfl
    have h := ih hgrown.wellScoped
    rw [show (s.addGlobalContinuousAux indexer family).2 = z from rfl]
    set added := (s.addGlobalContinuousAux indexer family).1 with hadded
    have hle := h.grown.width_le
    refine ⟨hgrown.trans h.grown, congrArg (g :: ·) h.groups, fun gz hgz => ?_, hkeep.trans h.keeps,
      fun h0 gz hgz => ?_, fun b => ?_, fun a v => ?_⟩
    · rcases List.mem_cons.mp hgz with rfl | hgz
      · exact ⟨le_rfl, by omega⟩
      · have := h.fresh gz hgz
        exact ⟨by omega, this.2⟩
    · rcases List.mem_cons.mp hgz with rfl | hgz
      · exact (hzero h0).keeps h.keeps
      · exact h.zeroColumns h0 gz hgz
    · rw [h.holds_iff, hholds, and_assoc, List.forall_mem_cons]
    · obtain ⟨b, hb, hv⟩ := h.assign (Function.update a z (v g)) v
      have hbz : b z = v g := by
        rw [hb z (by omega), Function.update_self]
      refine ⟨b, fun c hc => ?_, fun gz hgz => ?_⟩
      · rw [hb c (by omega), Function.update_of_ne (by omega)]
      · rcases List.mem_cons.mp hgz with rfl | hgz
        · exact hbz
        · exact hv gz hgz

/-! ## The rows of a group -/

/-- The rows of a group that have a coefficient. -/
def activeGroupRows (groups : ObjectiveGroups) (numRows : Nat) (terms : List LhsTerm) (g : Nat) :
    List Nat := (groups.rows numRows g).filter (isActiveRow terms)

/-- The extremum of a group over its rows that have a coefficient. -/
def groupExtremum (indexer : VarIndexer) (numRows : Nat) (spec : MinMaxObjectiveSpec)
    (groups : ObjectiveGroups) (terms : List LhsTerm) (a : Nat → ℚ) (g : Nat) : ℚ :=
  spec.perInnerAgg.reduce
    ((activeGroupRows groups numRows terms g).map (objectiveRowValue indexer terms a))

/-- The rows of a nested objective keep their coefficients, and a closed reach lies within what a
backend reads as closed. -/
structure InnerClean (indexer : VarIndexer) (input : SolverInput) (groups : ObjectiveGroups)
    (terms : List LhsTerm) : Prop where
  tiny : ∀ r, r < input.numRows → NoTinyCoefficient terms r
  merged : ∀ g, g < groups.numGroups → ∀ r ∈ activeGroupRows groups input.numRows terms g,
    ObjectiveCutClean indexer terms 1 [r]
  lower : (rowFamily input terms).loUnbounded = false → -solverInfinity < (rowFamily input terms).lo
  upper : (rowFamily input terms).hiUnbounded = false → (rowFamily input terms).hi < solverInfinity

/-- What the rows of a group ask of its auxiliary. -/
def GroupAsks (indexer : VarIndexer) (init : SolverInput) (spec : MinMaxObjectiveSpec)
    (groups : ObjectiveGroups) (terms : List LhsTerm) (policy : NativeConstructPolicy)
    (gz : Nat × Nat) (b : Nat → ℚ) : Prop :=
  if activeGroupRows groups init.numRows terms gz.1 = [] then b gz.2 = 0
  else LinkAsks (objectiveLink gz.2 (spec.perInnerAgg != .min) spec.perInnerIsEasy
    (rowFamily init terms)) ((activeGroupRows groups init.numRows terms gz.1).map
      (objectiveMember init indexer terms)) policy b

section Groups

variable {spec : MinMaxObjectiveSpec} {groups : ObjectiveGroups} {terms : List LhsTerm}
  {policy : NativeConstructPolicy} {sense : DecideSense} {gz : Nat × Nat}

theorem lt_of_mem_activeGroupRows {numRows g r : Nat}
    (h : r ∈ activeGroupRows groups numRows terms g) : r < numRows :=
  ObjectiveGroups.lt_of_mem_rows (List.mem_filter.mp h).1

theorem groupMembers_value (hclean : InnerClean indexer input groups terms)
    (hg : gz.1 < groups.numGroups) (a : Nat → ℚ) :
    ((activeGroupRows groups input.numRows terms gz.1).map
      (objectiveMember input indexer terms)).map (fun m => m.value a) =
      (activeGroupRows groups input.numRows terms gz.1).map (objectiveRowValue indexer terms a) := by
  rw [List.map_map]
  exact List.map_congr_left fun r hr => objectiveMember_value (hclean.merged _ hg r hr)

/-- What a group asks leaves its auxiliary on the side the objective pushes it to. -/
theorem dominates_of_groupAsks (hmm : spec.perInnerAgg.isMinMax = true)
    (heasy : spec.perInnerIsEasy = spec.perInnerAgg.isEasy sense)
    (hclean : InnerClean indexer input groups terms) (hg : gz.1 < groups.numGroups)
    (h : GroupAsks indexer input spec groups terms policy gz b) :
    sense.Dominates (groupExtremum indexer input.numRows spec groups terms b gz.1) (b gz.2) := by
  unfold GroupAsks at h
  unfold groupExtremum
  split at h
  · rename_i hempty
    rw [hempty, h]
    cases hagg : spec.perInnerAgg with
    | none | sum =>
      rw [hagg] at hmm
      cases hmm
    | min | max => exact DecideSense.Dominates.refl _ _
  · rename_i hne
    rw [heasy] at h
    have hdom := dominates_of_linkAsks hmm (by simpa using hne) h
    rw [groupMembers_value hclean hg] at hdom
    exact hdom

/-- An auxiliary at the value of its group is what the group asks. -/
theorem groupAsks_of_eq (hmm : spec.perInnerAgg.isMinMax = true)
    (hclean : InnerClean indexer input groups terms) (hg : gz.1 < groups.numGroups)
    (h : b gz.2 = groupExtremum indexer input.numRows spec groups terms b gz.1) :
    GroupAsks indexer input spec groups terms policy gz b := by
  unfold GroupAsks
  split
  · rename_i hempty
    rw [h]
    unfold groupExtremum
    rw [hempty]
    cases spec.perInnerAgg <;> rfl
  · rename_i hne
    refine linkAsks_of_eq hmm (by simpa using hne) _ ?_
    rw [h, groupMembers_value hclean hg]
    rfl

theorem groupExtremum_congr (hn : input.numRows = indexer.numRows) {n : Nat}
    (hle : indexer.globalBlockStart ≤ n) (hab : AgreeBelow n a b) (g : Nat) :
    groupExtremum indexer input.numRows spec groups terms a g =
      groupExtremum indexer input.numRows spec groups terms b g := by
  unfold groupExtremum
  congr 1
  exact List.map_congr_left fun r hr =>
    objectiveRowValue_congr (hn ▸ lt_of_mem_activeGroupRows hr) hle hab

/-- The extremum of a group lies in the reach of all rows. -/
theorem rowFamily_contains_group (hmm : spec.perInnerAgg.isMinMax = true)
    (hboxed : TermsBoxed input terms) (hclean : InnerClean indexer input groups terms)
    (ha : input.InBoxes indexer a) (g : Nat) :
    (rowFamily input terms).Contains (groupExtremum indexer input.numRows spec groups terms a g) := by
  unfold groupExtremum
  by_cases hempty : activeGroupRows groups input.numRows terms g = []
  · rw [hempty]
    have hzero : spec.perInnerAgg.reduce [] = 0 := by cases spec.perInnerAgg <;> rfl
    rw [List.map_nil, hzero]
    exact rowFamily_contains_zero input terms
  · have hvalues : (activeGroupRows groups input.numRows terms g).map
        (objectiveRowValue indexer terms a) ≠ [] := by simpa using hempty
    obtain ⟨r, hr, hrv⟩ := List.mem_map.mp (ObjectiveAggregate.reduce_mem hmm hvalues)
    rw [← hrv]
    have hlt := lt_of_mem_activeGroupRows hr
    exact rowFamily_contains hboxed ha hlt (hclean.tiny r hlt)

theorem groupAsks_readsBelow (hn : input.numRows = indexer.numRows) {n : Nat}
    (hle : input.width indexer ≤ n) (hz : gz.2 < n) :
    ReadsBelow n (GroupAsks indexer input spec groups terms policy gz) := by
  intro a b hab h
  unfold GroupAsks at h ⊢
  split at h
  · rename_i hempty
    rw [if_pos hempty, ← hab _ hz]
    exact h
  · rename_i hne
    rw [if_neg hne]
    exact linkAsks_readsBelow (n := n) hz
      ((objectiveMember_below hn fun r hr => lt_of_mem_activeGroupRows hr).mono hle) a b hab h

/-- **The auxiliary of one group.** -/
theorem emitObjectiveGroup_extends {varNames : List String} (hw : input.WellScoped indexer)
    (hs : s.WellScoped indexer) (hboxes : ∀ a, s.Holds indexer a → input.InBoxes indexer a)
    (hle : input.width indexer ≤ s.width indexer) (hz : gz.2 < s.width indexer)
    (hzero : ZeroColumn indexer s gz.2) (hboxed : TermsBoxed input terms)
    (hclean : InnerClean indexer input groups terms) (hg : gz.1 < groups.numGroups)
    (hok : emitObjectiveGroup input indexer spec groups terms varNames policy s gz = .ok t) :
    t.WellScoped indexer ∧ System.Extends (s.system indexer) (t.system indexer)
      (GroupAsks indexer input spec groups terms policy gz) := by
  unfold emitObjectiveGroup at hok
  dsimp only at hok
  change (if (activeGroupRows groups input.numRows terms gz.1).isEmpty = true then _ else _) = _ at hok
  unfold GroupAsks
  split at hok
  · rename_i hempty
    obtain rfl := Except.ok.inj hok
    have hpin := emits_pinGlobalAux hs gz.2 0
    have hwidth : (s.pinGlobalAux indexer gz.2 0).width indexer = s.width indexer := by
      show _ + (List.modify _ _ _).length = _
      rw [List.length_modify]
      rfl
    rw [List.isEmpty_iff.mp hempty]
    refine ⟨hpin.wellScoped, System.Extends.of_holds_iff hwidth ?_ fun b => ?_⟩
    · have hreads := hpin.wellScoped.readsBelow
      rwa [show SolverInput.width _ indexer = s.width indexer from hwidth] at hreads
    · rw [if_pos rfl]
      exact holds_pinGlobalAux hzero b
  · rename_i hne
    have hne : activeGroupRows groups input.numRows terms gz.1 ≠ [] := by simpa using hne
    obtain ⟨ht, hext⟩ := objectiveLink_extends hs hz
      ((objectiveMember_below hw.numRows_eq fun r hr => lt_of_mem_activeGroupRows hr).mono hle)
      (by simpa [activeGroupRows] using hne) (fun a ha m hm => by
        obtain ⟨r, hr, rfl⟩ := List.mem_map.mp hm
        have hlt := lt_of_mem_activeGroupRows hr
        rw [objectiveMember_value (hclean.merged _ hg r hr)]
        exact ⟨rowRangeFor_contains hboxed (hboxes a ha) hlt (hclean.tiny r hlt),
          rowFamily_contains hboxed (hboxes a ha) hlt (hclean.tiny r hlt)⟩) hok
    refine ⟨ht, hext.congr fun a _ => ?_⟩
    rw [if_neg hne]

end Groups

/-! ## An inner MIN/MAX -/

section Inner

variable {spec : MinMaxObjectiveSpec} {groups : ObjectiveGroups} {terms : List LhsTerm}
  {policy : NativeConstructPolicy} {sense : DecideSense} {varNames : List String}

/-- The auxiliaries of the groups after they are linked: each lies on the side the objective pushes it
to, and all can be put at the values of their groups. -/
structure GroupsPinned (indexer : VarIndexer) (sense : DecideSense) (input linked : SolverInput)
    (zs : List (Nat × Nat)) (value : (Nat → ℚ) → Nat → ℚ) (family : AuxRange) : Prop where
  wellScoped : linked.WellScoped indexer
  width_le : input.width indexer ≤ linked.width indexer
  fresh : ∀ gz ∈ zs, input.width indexer ≤ gz.2 ∧ gz.2 < linked.width indexer
  dominates : ∀ b, linked.Holds indexer b → input.Holds indexer b ∧
    ∀ gz ∈ zs, sense.Dominates (value b gz.1) (b gz.2)
  contains : ∀ b, linked.Holds indexer b → ∀ gz ∈ zs, family.Contains (b gz.2)
  completes : ∀ a, input.Holds indexer a → ∃ b, AgreeBelow (input.width indexer) b a ∧
    linked.Holds indexer b ∧ ∀ gz ∈ zs, b gz.2 = value a gz.1

/-- A column boxed by a reach whose closed ends a backend reads as closed lies in the reach. -/
theorem contains_of_admits {family : AuxRange} {x : ℚ}
    (hlower : family.loUnbounded = false → -solverInfinity < family.lo)
    (hupper : family.hiUnbounded = false → family.hi < solverInfinity)
    (h : (⟨if family.loUnbounded then -openBound else family.lo,
      if family.hiUnbounded then openBound else family.hi, false⟩ : ColumnBox).Admits x) :
    family.Contains x := by
  constructor
  · cases hlo : family.loUnbounded with
    | true => exact Or.inl rfl
    | false =>
      have hle := h.lower_le
      simp only [hlo, Bool.false_eq_true, if_false] at hle
      exact Or.inr (hle.resolve_left (not_le.mpr (hlower hlo)))
  · cases hhi : family.hiUnbounded with
    | true => exact Or.inl rfl
    | false =>
      have hle := h.le_upper
      simp only [hhi, Bool.false_eq_true, if_false] at hle
      exact Or.inr (hle.resolve_left (not_le.mpr (hupper hhi)))

/-- **The auxiliaries of all groups.** -/
theorem groupsPinned {linked : SolverInput} (hw : input.WellScoped indexer)
    (hmm : spec.perInnerAgg.isMinMax = true)
    (heasy : spec.perInnerIsEasy = spec.perInnerAgg.isEasy sense)
    (hboxed : TermsBoxed input terms) (hclean : InnerClean indexer input groups terms)
    (hok : (allocateGroups indexer (rowFamily input terms) input (List.range groups.numGroups)).2.foldlM
      (emitObjectiveGroup input indexer spec groups terms varNames policy)
      (allocateGroups indexer (rowFamily input terms) input (List.range groups.numGroups)).1 =
        .ok linked) :
    GroupsPinned indexer sense input linked
      (allocateGroups indexer (rowFamily input terms) input (List.range groups.numGroups)).2
      (groupExtremum indexer input.numRows spec groups terms) (rowFamily input terms) := by
  have hn := hw.numRows_eq
  have halloc := allocateGroups_spec (rowFamily input terms) (List.range groups.numGroups) hw
  set zs := (allocateGroups indexer (rowFamily input terms) input (List.range groups.numGroups)).2
  set alloc := (allocateGroups indexer (rowFamily input terms) input (List.range groups.numGroups)).1
  have hgroup : ∀ gz ∈ zs, gz.1 < groups.numGroups := fun gz hgz => by
    have hmem : gz.1 ∈ zs.map (·.1) := List.mem_map_of_mem hgz
    rw [halloc.groups] at hmem
    exact List.mem_range.mp hmem
  obtain ⟨⟨hwell, hle, -, -⟩, hext⟩ := System.Extends.foldlM (fun s => s.system indexer)
    (emitObjectiveGroup input indexer spec groups terms varNames policy) (alloc.width indexer)
    (fun s => s.WellScoped indexer ∧ alloc.width indexer ≤ s.width indexer ∧
      (∀ a, s.Holds indexer a → input.InBoxes indexer a) ∧ ∀ gz ∈ zs, ZeroColumn indexer s gz.2)
    (GroupAsks indexer input spec groups terms policy)
    (fun s hs => ⟨hs.2.1, hs.1.readsBelow⟩) zs
    (fun gz hgz => groupAsks_readsBelow hn halloc.grown.width_le (halloc.fresh gz hgz).2)
    (fun s s' gz hgz hs hs' => by
      obtain ⟨hswell, hsle, hsbox, hszero⟩ := hs
      obtain ⟨hwell, hext⟩ := emitObjectiveGroup_extends hw hswell hsbox
        (halloc.grown.width_le.trans hsle) ((halloc.fresh gz hgz).2.trans_le hsle) (hszero gz hgz) hboxed
        hclean (hgroup gz hgz) hs'
      refine ⟨⟨hwell, hsle.trans hext.width_le, fun a ha => hsbox a (hext.holds ha).1, ?_⟩, hext⟩
      unfold emitObjectiveGroup at hs'
      dsimp only at hs'
      split at hs'
      · obtain rfl := Except.ok.inj hs'
        exact fun gz' hgz' => (hszero gz' hgz').pin
      · exact fun gz' hgz' => (hszero gz' hgz').keeps (keepsColumns_emitExtremumLink hs'))
    alloc linked
    ⟨halloc.grown.wellScoped, le_rfl, fun a ha => ((halloc.holds_iff a).mp ha).1.inBoxes,
      halloc.zeroColumns (rowFamily_contains_zero input terms)⟩ hok
  refine ⟨hwell, halloc.grown.width_le.trans hle,
    fun gz hgz => ⟨(halloc.fresh gz hgz).1, (halloc.fresh gz hgz).2.trans_le hle⟩, fun b hb => ?_,
    fun b hb gz hgz => ?_, fun a ha => ?_⟩
  · obtain ⟨hba, hasks⟩ := hext.holds hb
    exact ⟨((halloc.holds_iff b).mp hba).1, fun gz hgz =>
      dominates_of_groupAsks hmm heasy hclean (hgroup gz hgz) (hasks gz hgz)⟩
  · exact contains_of_admits hclean.lower hclean.upper
      (((halloc.holds_iff b).mp (hext.holds hb).1).2 gz hgz)
  · obtain ⟨c, hca, hcz⟩ := halloc.assign a (groupExtremum indexer input.numRows spec groups terms a)
    have hvalue : ∀ g, groupExtremum indexer input.numRows spec groups terms c g =
        groupExtremum indexer input.numRows spec groups terms a g := fun g =>
      groupExtremum_congr hn (Nat.le_add_right _ _) hca g
    have hcAlloc : alloc.Holds indexer c := by
      refine (halloc.holds_iff c).mpr ⟨hw.readsBelow a c hca.symm ha, fun gz hgz => ?_⟩
      rw [hcz gz hgz]
      exact admits_of_contains (rowFamily_contains_group hmm hboxed hclean ha.inBoxes gz.1)
    obtain ⟨b, hbc, hb⟩ := (hext.completes_iff c).mpr ⟨hcAlloc, fun gz hgz =>
      groupAsks_of_eq hmm hclean (hgroup gz hgz) ((hcz gz hgz).trans (hvalue gz.1).symm)⟩
    have hbc : AgreeBelow (alloc.width indexer) b c := hbc
    exact ⟨b, (hbc.mono halloc.grown.width_le).trans hca, hb, fun gz hgz =>
      (hbc _ (halloc.fresh gz hgz).2).trans (hcz gz hgz)⟩

/-- The value of a nested objective with an inner MIN/MAX. -/
def innerMinMaxValue (indexer : VarIndexer) (numRows : Nat) (spec : MinMaxObjectiveSpec)
    (groups : ObjectiveGroups) (terms : List LhsTerm) (a : Nat → ℚ) : ℚ :=
  spec.perOuterAgg.reduce
    ((List.range groups.numGroups).map (groupExtremum indexer numRows spec groups terms a))

/-- What a pass over the objective comes to: the global columns it puts in the objective's place, and that
optimized over the columns it added they are worth what the objective is. -/
structure ReplacedBy (indexer : VarIndexer) (sense : DecideSense) (input out : SolverInput)
    (globals : Form Nat ℚ) (value : (Nat → ℚ) → ℚ) : Prop where
  globals_lt : ∀ e ∈ globals, e.1 < out.width indexer
  refines : Program.Refines sense.Dominates ⟨input.system indexer, value⟩
    ⟨out.system indexer, globals.eval⟩ fun _ => True

/-- A member that renames a column is worth the column. -/
theorem renamingMember_value (z : Nat) (range : AuxRange) (b : Nat → ℚ) :
    ExtremumMember.value ⟨({} : MinMaxLinkRow).addColumn z (-1), range⟩ b = b z := by
  have hform : (({} : MinMaxLinkRow).addColumn z (-1)).appendTo = [(z, -1)] :=
    List.filter_cons_of_pos (by norm_num [coefficientCut])
  have hconstant : (({} : MinMaxLinkRow).addColumn z (-1)).constant = 0 := rfl
  unfold ExtremumMember.value
  dsimp only
  rw [hform, hconstant, Form.eval_cons, Form.eval_nil]
  ring

/-- **An inner MIN/MAX**: the outer aggregate of the auxiliaries is best at the outer aggregate of the
groups. -/
theorem linearizeInnerMinMax_best {obj : LinearObjective} {res : SolverInput × LinearObjective}
    (hw : input.WellScoped indexer) (hmm : spec.perInnerAgg.isMinMax = true)
    (heasy : spec.perInnerIsEasy = spec.perInnerAgg.isEasy sense) (hgroups : 0 < groups.numGroups)
    (houter : spec.perOuterAgg ≠ .none)
    (houterEasy : spec.perOuterAgg.isMinMax = true →
      spec.perOuterIsEasy = spec.perOuterAgg.isEasy sense)
    (hboxed : TermsBoxed input obj.savedTerms)
    (hclean : InnerClean indexer input groups obj.savedTerms)
    (hok : linearizeInnerMinMax input indexer spec groups obj varNames policy = .ok res) :
    ∃ globals, res.2 = { obj.cleared with globalObjCoeffs := obj.globalObjCoeffs ++ globals } ∧
      ReplacedBy indexer sense input res.1 globals
        (innerMinMaxValue indexer input.numRows spec groups obj.savedTerms) := by
  unfold linearizeInnerMinMax at hok
  dsimp only at hok
  have halloc := allocateGroups_spec (rowFamily input obj.savedTerms) (List.range groups.numGroups) hw
  have hpins := fun linked => @groupsPinned _ _ _ _ _ policy _ varNames linked hw hmm heasy hboxed hclean
  set zs := (allocateGroups indexer (rowFamily input obj.savedTerms) input
    (List.range groups.numGroups)).2 with hzs
  set alloc := (allocateGroups indexer (rowFamily input obj.savedTerms) input
    (List.range groups.numGroups)).1 with hallocDef
  cases hloop : zs.foldlM
      (emitObjectiveGroup input indexer spec groups obj.savedTerms varNames policy) alloc with
  | error e =>
    rw [hloop] at hok
    cases hok
  | ok linked =>
    rw [hloop] at hok
    dsimp only at hok
    have hpin := hpins linked hloop
    have hvalues : ∀ a, innerMinMaxValue indexer input.numRows spec groups obj.savedTerms a =
        spec.perOuterAgg.reduce
          (zs.map fun gz => groupExtremum indexer input.numRows spec groups obj.savedTerms a gz.1) := by
      intro a
      unfold innerMinMaxValue
      rw [← halloc.groups, List.map_map]
      rfl
    -- whatever the auxiliaries are, their aggregate is on the right side of the groups' own
    have hside : ∀ b, linked.Holds indexer b →
        sense.Dominates (innerMinMaxValue indexer input.numRows spec groups obj.savedTerms b)
          (spec.perOuterAgg.reduce (zs.map fun gz => b gz.2)) := by
      intro b hb
      rw [hvalues]
      exact spec.perOuterAgg.reduce_dominates sense zs fun gz hgz => (hpin.dominates b hb).2 gz hgz
    have hattained : ∀ a, input.Holds indexer a → ∃ b, AgreeBelow (input.width indexer) b a ∧
        linked.Holds indexer b ∧ spec.perOuterAgg.reduce (zs.map fun gz => b gz.2) =
          innerMinMaxValue indexer input.numRows spec groups obj.savedTerms a := by
      intro a ha
      obtain ⟨b, hba, hb, hbz⟩ := hpin.completes a ha
      refine ⟨b, hba, hb, ?_⟩
      rw [hvalues]
      exact congrArg _ (List.map_congr_left hbz)
    -- an auxiliary over those of the groups
    have houterLink : ∀ w, spec.perOuterAgg.isMinMax = true →
        emitExtremumLink (linked.addGlobalContinuousAux indexer (rowFamily input obj.savedTerms)).1
          indexer (objectiveLink (linked.width indexer) (spec.perOuterAgg != .min) spec.perOuterIsEasy
            (rowFamily input obj.savedTerms)) (zs.map fun gz =>
              { link := ({} : MinMaxLinkRow).addColumn gz.2 (-1)
                range := rowFamily input obj.savedTerms : ExtremumMember }) varNames policy = .ok w →
        ReplacedBy indexer sense input w [(linked.width indexer, 1)]
          (innerMinMaxValue indexer input.numRows spec groups obj.savedTerms) := by
      intro w hout hlink
      have hmember : ∀ (b : Nat → ℚ) (gz : Nat × Nat), ExtremumMember.value
          ⟨({} : MinMaxLinkRow).addColumn gz.2 (-1), rowFamily input obj.savedTerms⟩ b = b gz.2 :=
        fun b gz => renamingMember_value gz.2 _ b
      rw [houterEasy hout] at hlink
      have hne : zs ≠ [] := by
        intro hnil
        have hlen := congrArg List.length halloc.groups
        rw [hnil, List.length_range] at hlen
        exact hgroups.ne hlen
      have hw' := resultPinned_of_link hpin.wellScoped hout (by
          intro m hm e he
          obtain ⟨gz, hgz, rfl⟩ := List.mem_map.mp hm
          rw [List.mem_singleton.mp (List.mem_filter.mp he).1]
          exact (hpin.fresh gz hgz).2)
        (by simpa using hne) (fun b hb m hm => by
          obtain ⟨gz, hgz, rfl⟩ := List.mem_map.mp hm
          rw [hmember]
          exact ⟨hpin.contains b hb gz hgz, hpin.contains b hb gz hgz⟩) hlink
      have hreduce : ∀ b : Nat → ℚ, ((zs.map fun gz =>
          { link := ({} : MinMaxLinkRow).addColumn gz.2 (-1)
            range := rowFamily input obj.savedTerms : ExtremumMember }).map fun m => m.value b) =
            zs.map fun gz => b gz.2 := fun b => by
        rw [List.map_map]
        exact List.map_congr_left fun gz _ => hmember b gz
      have heval : ∀ b : Nat → ℚ, Form.eval [(linked.width indexer, (1 : ℚ))] b =
          b (linked.width indexer) := fun b => by simp
      refine ⟨fun e he => ?_, hpin.width_le.trans hw'.width_le, fun b hb => ?_, fun a ha _ => ?_⟩
      · rw [List.mem_singleton.mp he]
        exact hw'.column_lt
      · obtain ⟨hbl, hdom⟩ := hw'.dominates b hb
        refine ⟨(hpin.dominates b hbl).1, trivial, ?_⟩
        rw [hreduce] at hdom
        dsimp only
        rw [heval]
        exact (hside b hbl).trans hdom
      · obtain ⟨b, hba, hb, hbv⟩ := hattained a ha
        obtain ⟨c, hcb, hc, hcv⟩ := hw'.completes b hb
        refine ⟨c, (hcb.mono hpin.width_le).trans hba, hc, ?_⟩
        dsimp only
        rw [heval, hcv, hreduce, hbv]
    cases hagg : spec.perOuterAgg with
    | none => exact absurd hagg houter
    | sum =>
      rw [hagg] at hok
      obtain rfl := Except.ok.inj hok
      have heval : ∀ b : Nat → ℚ, Form.eval (zs.map fun gz => (gz.2, (1 : ℚ))) b =
          spec.perOuterAgg.reduce (zs.map fun gz => b gz.2) := fun b => by
        rw [Form.eval_map zs (fun gz => gz.2) fun _ => 1, hagg]
        simp [ObjectiveAggregate.reduce]
      refine ⟨_, rfl, fun e he => ?_, hpin.width_le, fun b hb => ?_, fun a ha _ => ?_⟩
      · obtain ⟨gz, hgz, rfl⟩ := List.mem_map.mp he
        exact (hpin.fresh gz hgz).2
      · refine ⟨(hpin.dominates b hb).1, trivial, ?_⟩
        dsimp only
        rw [heval]
        exact hside b hb
      · obtain ⟨b, hba, hb, hbv⟩ := hattained a ha
        exact ⟨b, hba, hb, (heval b).trans hbv⟩
    | min | max =>
      rw [hagg] at hok houterLink
      dsimp only at hok
      split at hok
      · cases hok
      · rename_i w hlink
        obtain rfl := Except.ok.inj hok
        exact ⟨_, rfl, houterLink w rfl hlink⟩

end Inner

/-! ## An inner sum -/

/-- The groups an outer MIN/MAX ranges over: the easy direction leaves out those that are zero whatever
the decisions are. -/
def outerGroups (input : SolverInput) (indexer : VarIndexer) (spec : MinMaxObjectiveSpec)
    (groups : ObjectiveGroups) (terms : List LhsTerm) : List Nat :=
  (List.range groups.numGroups).filter fun g =>
    let link := groupSumLink input indexer groups spec.perInnerWasAvg terms g
    !(spec.perOuterIsEasy && link.hasNoColumns && decide (|link.constant| < coefficientCut))

/-- The value of an outer MIN/MAX over the sums of the groups. -/
def innerSumValue (input : SolverInput) (indexer : VarIndexer) (spec : MinMaxObjectiveSpec)
    (groups : ObjectiveGroups) (terms : List LhsTerm) (a : Nat → ℚ) : ℚ :=
  spec.perOuterAgg.reduce ((outerGroups input indexer spec groups terms).map
    (objectiveGroupSum indexer groups input.numRows spec.perInnerWasAvg terms a))

/-- The rows of a group keep their coefficients under its scale. -/
structure GroupSumClean (indexer : VarIndexer) (input : SolverInput) (spec : MinMaxObjectiveSpec)
    (groups : ObjectiveGroups) (terms : List LhsTerm) : Prop where
  tiny : ∀ r, r < input.numRows → NoTinyCoefficient terms r
  merged : ∀ g, g < groups.numGroups → ObjectiveCutClean indexer terms
    (groups.scale input.numRows spec.perInnerWasAvg g) (groups.rows input.numRows g)

section InnerSum

variable {spec : MinMaxObjectiveSpec} {groups : ObjectiveGroups} {terms : List LhsTerm}
  {policy : NativeConstructPolicy} {sense : DecideSense} {varNames : List String}

theorem groupSumMembers_eq : groupSumMembers input indexer spec groups terms =
    (outerGroups input indexer spec groups terms).map fun g =>
      { link := groupSumLink input indexer groups spec.perInnerWasAvg terms g
        range := groupSumFamily input groups spec.perInnerWasAvg terms : ExtremumMember } := by
  unfold groupSumMembers outerGroups
  dsimp only
  rw [List.filter_map, List.map_map]
  rfl

theorem lt_of_mem_outerGroups {g : Nat} (h : g ∈ outerGroups input indexer spec groups terms) :
    g < groups.numGroups := List.mem_range.mp (List.mem_filter.mp h).1

/-- The members are worth what their groups add up to. -/
theorem groupSumMembers_value (hclean : GroupSumClean indexer input spec groups terms) (a : Nat → ℚ) :
    (groupSumMembers input indexer spec groups terms).map (fun m => m.value a) =
      (outerGroups input indexer spec groups terms).map
        (objectiveGroupSum indexer groups input.numRows spec.perInnerWasAvg terms a) := by
  rw [groupSumMembers_eq, List.map_map]
  exact List.map_congr_left fun g hg =>
    objectiveRows_worth (hclean.merged g (lt_of_mem_outerGroups hg)) _

theorem objectiveGroupSum_congr (hn : input.numRows = indexer.numRows) {n : Nat}
    (hle : indexer.globalBlockStart ≤ n) (hab : AgreeBelow n a b) (wasAvg : Bool) (g : Nat) :
    objectiveGroupSum indexer groups input.numRows wasAvg terms a g =
      objectiveGroupSum indexer groups input.numRows wasAvg terms b g := by
  unfold objectiveGroupSum
  congr 1
  refine List.map_congr_left fun r hr => ?_
  rw [objectiveRowValue_congr (hn ▸ ObjectiveGroups.lt_of_mem_rows hr) hle hab]

/-- A fresh column pinned at zero. -/
theorem resultPinned_zero (hs : s.WellScoped indexer) {family : AuxRange} (h0 : family.Contains 0) :
    ResultPinned indexer sense s
      ((s.addGlobalContinuousAux indexer family).1.pinGlobalAux indexer (s.width indexer) 0)
      (s.width indexer) fun _ => 0 := by
  set box : ColumnBox := ⟨if family.loUnbounded then -openBound else family.lo,
    if family.hiUnbounded then openBound else family.hi, false⟩ with hbox
  have hadd := emits_addGlobalContinuousAux hs family
  have hwell := (emits_pinGlobalAux hadd.wellScoped (s.width indexer) 0).wellScoped
  have hcolumn : ZeroColumn indexer (s.addGlobalContinuousAux indexer family).1 (s.width indexer) := by
    refine ⟨s.globalColumns.length, box, rfl, ?_, rfl, admits_of_contains h0⟩
    show (s.globalColumns ++ [box])[_]? = _
    rw [List.getElem?_append_right le_rfl, Nat.sub_self]
    rfl
  have hadded : ∀ b, (s.addGlobalContinuousAux indexer family).1.Holds indexer b ↔
      s.Holds indexer b ∧ box.Admits (b (s.width indexer)) := fun b => holds_appendColumn box
  have hwidth : ((s.addGlobalContinuousAux indexer family).1.pinGlobalAux indexer (s.width indexer)
      0).width indexer = s.width indexer + 1 := by
    show _ + (List.modify _ _ _).length = _
    rw [List.length_modify]
    exact addGlobalContinuousAux_width family
  refine ⟨hwell, by omega, by omega, fun b hb => ?_, fun a ha => ?_⟩
  · obtain ⟨hb', hz⟩ := (holds_pinGlobalAux hcolumn b).mp hb
    rw [hz]
    exact ⟨((hadded b).mp hb').1, DecideSense.Dominates.refl _ _⟩
  · obtain ⟨c, hca, hcz⟩ := AgreeBelow.exists_extend (s.width indexer) a fun _ => 0
    have hc0 : c (s.width indexer) = 0 := hcz 0
    refine ⟨c, hca, (holds_pinGlobalAux hcolumn c).mpr ⟨(hadded c).mpr ⟨?_, ?_⟩, hc0⟩, hc0⟩
    · exact hs.readsBelow a c hca.symm ha
    · rw [hc0]
      exact admits_of_contains h0

/-- **An inner SUM or AVG under an outer MIN/MAX** is one auxiliary over the sums of the groups. -/
theorem linearizeInnerSum_pinned {obj : LinearObjective} {res : SolverInput × LinearObjective}
    (hw : input.WellScoped indexer) (hmm : spec.perOuterAgg.isMinMax = true)
    (heasy : spec.perOuterIsEasy = spec.perOuterAgg.isEasy sense)
    (hboxed : TermsBoxed input obj.savedTerms)
    (hclean : GroupSumClean indexer input spec groups obj.savedTerms)
    (hok : linearizeInnerSum input indexer spec groups obj varNames policy = .ok res) :
    ResultPinned indexer sense input res.1 (input.width indexer)
        (innerSumValue input indexer spec groups obj.savedTerms) ∧
      res.2 = { obj.cleared with
        globalObjCoeffs := obj.globalObjCoeffs ++ [(input.width indexer, 1)] } := by
  have hvalue : innerSumValue input indexer spec groups obj.savedTerms = fun a =>
      spec.perOuterAgg.reduce ((groupSumMembers input indexer spec groups obj.savedTerms).map
        fun m => m.value a) := by
    funext a
    rw [groupSumMembers_value hclean]
    rfl
  have hmain : ∀ out, (if (groupSumMembers input indexer spec groups obj.savedTerms).isEmpty then
        Except.ok ((input.addGlobalContinuousAux indexer (groupSumFamily input groups
          spec.perInnerWasAvg obj.savedTerms)).1.pinGlobalAux indexer (input.width indexer) 0)
      else emitExtremumLink (input.addGlobalContinuousAux indexer (groupSumFamily input groups
          spec.perInnerWasAvg obj.savedTerms)).1 indexer
        (objectiveLink (input.width indexer) (spec.perOuterAgg != .min) spec.perOuterIsEasy
          (groupSumFamily input groups spec.perInnerWasAvg obj.savedTerms))
        (groupSumMembers input indexer spec groups obj.savedTerms) varNames policy) = .ok out →
      ResultPinned indexer sense input out (input.width indexer)
        (innerSumValue input indexer spec groups obj.savedTerms) := by
    intro out hout
    rw [hvalue]
    split at hout
    · rename_i hempty
      obtain rfl := Except.ok.inj hout
      have hzero : spec.perOuterAgg.reduce [] = 0 := by cases spec.perOuterAgg <;> rfl
      simp only [List.isEmpty_iff.mp hempty, List.map_nil, hzero]
      exact resultPinned_zero hw (groupSumFamily_contains_zero _ _ _ _)
    · rename_i hne
      rw [heasy] at hout
      refine resultPinned_of_link hw hmm (fun m hm e he => ?_) (by simpa using hne)
        (fun a ha m hm => ?_) hout
      · have hlisted := groupSumMembers_listed hw.numRows_eq spec groups _ m hm
        exact (hlisted.lt e (List.mem_filter.mp he).1).trans_le (Nat.le_add_right _ _)
      · rw [groupSumMembers_eq] at hm
        obtain ⟨g, hg, rfl⟩ := List.mem_map.mp hm
        have hlt := lt_of_mem_outerGroups hg
        have hworth : ExtremumMember.value ⟨groupSumLink input indexer groups spec.perInnerWasAvg
            obj.savedTerms g, groupSumFamily input groups spec.perInnerWasAvg obj.savedTerms⟩ a = _ :=
          objectiveRows_worth (hclean.merged g hlt) _
        have hcontains := groupSumFamily_contains hboxed ha.inBoxes spec.perInnerWasAvg hlt
          fun r hr => hclean.tiny r (ObjectiveGroups.lt_of_mem_rows hr)
        rw [hworth]
        exact ⟨hcontains, hcontains⟩
  unfold linearizeInnerSum at hok
  dsimp only at hok
  cases hagg : spec.perOuterAgg with
  | none | sum =>
    rw [hagg] at hmm
    cases hmm
  | min | max =>
    rw [hagg] at hok hmain
    dsimp only at hok
    split at hok
    · rename_i hempty
      obtain rfl := Except.ok.inj hok
      exact ⟨hmain _ (if_pos hempty), rfl⟩
    · rename_i hne
      split at hok
      · cases hok
      · rename_i out hlink
        obtain rfl := Except.ok.inj hok
        exact ⟨hmain out (by rw [if_neg hne]; exact hlink), rfl⟩

end InnerSum

/-! ## The whole pass -/

/-- What the flags of an objective promise: the easy direction is the one its sense closes, an inner
aggregate comes with an outer one, and a flat one is a MIN or a MAX. -/
structure MinMaxObjectiveSpec.Fits (spec : MinMaxObjectiveSpec) (sense : DecideSense) : Prop where
  flatIsEasy : spec.flatIsEasy = spec.flatAgg.isEasy sense
  innerIsEasy : spec.perInnerIsEasy = spec.perInnerAgg.isEasy sense
  outerIsEasy : spec.perOuterIsEasy = spec.perOuterAgg.isEasy sense
  outer_ne_none : spec.perInnerAgg ≠ .none → spec.perOuterAgg ≠ .none
  flat_isMinMax : spec.flatAgg ≠ .none → spec.flatAgg.isMinMax = true

section Pass

variable {spec : MinMaxObjectiveSpec} {groups : ObjectiveGroups} {terms : List LhsTerm}
  {policy : NativeConstructPolicy} {sense : DecideSense} {varNames : List String}

theorem AggregateName.isEasyFor_eq (name : AggregateName) (sense : DecideSense) :
    name.isEasyFor sense = name.objectiveAggregate.isEasy sense := by
  cases name <;> rfl

theorem AggregateName.objectiveAggregate_ne_none (name : AggregateName) :
    name.objectiveAggregate ≠ .none := by
  cases name <;> simp [AggregateName.objectiveAggregate]

theorem AggregateName.objectiveAggregate_isMinMax (name : AggregateName) :
    name.objectiveAggregate.isMinMax = name.isMinMax := by
  cases name <;> rfl

theorem fits_empty (sense : DecideSense) : MinMaxObjectiveSpec.Fits {} sense :=
  ⟨rfl, rfl, rfl, fun h => absurd rfl h, fun h => absurd rfl h⟩

theorem fits_flatSpec {name : AggregateName} (hmm : name.isMinMax = true) (sense : DecideSense) :
    (flatSpec name sense).Fits sense :=
  ⟨name.isEasyFor_eq sense, rfl, rfl, fun h => absurd rfl h,
    fun _ => name.objectiveAggregate_isMinMax.trans hmm⟩

/-- **The rewrite sets flags that fit the sense.** -/
theorem rewriteMinMaxObjectiveTree_fits {hasPer : Bool} {obj : ObjectiveExpr}
    {rewrite : MinMaxObjectiveRewrite}
    (h : rewriteMinMaxObjectiveTree sense hasPer obj = .ok rewrite) : rewrite.spec.Fits sense := by
  unfold rewriteMinMaxObjectiveTree at h
  cases obj with
  | other =>
    obtain rfl := Except.ok.inj h
    exact fits_empty sense
  | nested scale outer outerFilter inner =>
    dsimp only at h
    split at h
    · obtain rfl := Except.ok.inj h
      exact ⟨rfl, inner.name.isEasyFor_eq sense, outer.isEasyFor_eq sense,
        fun _ => outer.objectiveAggregate_ne_none, fun h => absurd rfl h⟩
    split at h
    · rename_i hflat
      obtain rfl := Except.ok.inj h
      simp only [Bool.and_eq_true] at hflat
      exact fits_flatSpec hflat.1.2 sense
    · obtain rfl := Except.ok.inj h
      exact fits_empty sense
  | reducer scale agg =>
    dsimp only at h
    split at h
    · cases h
    split at h
    · rename_i hflat
      obtain rfl := Except.ok.inj h
      simp only [Bool.and_eq_true, Aggregate.isDecideMinMax] at hflat
      exact fits_flatSpec hflat.2.1 sense
    · obtain rfl := Except.ok.inj h
      exact fits_empty sense

/-- The objective is replaced by an auxiliary. -/
def MinMaxObjectiveSpec.HasAuxiliary (spec : MinMaxObjectiveSpec) (groups : ObjectiveGroups) : Prop :=
  if spec.perInnerAgg ≠ .none ∧ 0 < groups.numGroups then
    spec.perInnerAgg.isMinMax = true ∨ spec.perOuterAgg.isMinMax = true
  else spec.flatAgg ≠ .none

/-- The value of a MIN/MAX objective over the rows it keeps. -/
def minMaxObjectiveValue (input : SolverInput) (indexer : VarIndexer) (spec : MinMaxObjectiveSpec)
    (groups : ObjectiveGroups) (terms : List LhsTerm) (a : Nat → ℚ) : ℚ :=
  if spec.perInnerAgg ≠ .none ∧ 0 < groups.numGroups then
    if spec.perInnerAgg.isMinMax then innerMinMaxValue indexer input.numRows spec groups terms a
    else innerSumValue input indexer spec groups terms a
  else flatValue indexer input.numRows spec terms a

/-- The rows of the objective keep their coefficients. -/
def ObjectiveKeepsCoefficients (input : SolverInput) (indexer : VarIndexer) (spec : MinMaxObjectiveSpec)
    (groups : ObjectiveGroups) (terms : List LhsTerm) : Prop :=
  if spec.perInnerAgg ≠ .none ∧ 0 < groups.numGroups then
    if spec.perInnerAgg.isMinMax then InnerClean indexer input groups terms
    else GroupSumClean indexer input spec groups terms
  else FlatClean indexer input spec terms

/-- A pinned column stands for what it is pinned to. -/
theorem ResultPinned.replacedBy {z : Nat} {value : (Nat → ℚ) → ℚ}
    (h : ResultPinned indexer sense input out z value) :
    ReplacedBy indexer sense input out [(z, 1)] value := by
  have heval : ∀ b : Nat → ℚ, Form.eval [(z, (1 : ℚ))] b = b z := fun b => by simp
  refine ⟨fun e he => ?_, h.width_le, fun b hb => ?_, fun a ha _ => ?_⟩
  · rw [List.mem_singleton.mp he]
    exact h.column_lt
  · obtain ⟨hb', hdom⟩ := h.dominates b hb
    refine ⟨hb', trivial, ?_⟩
    dsimp only
    rw [heval]
    exact hdom
  · obtain ⟨b, hba, hb, hv⟩ := h.completes a ha
    exact ⟨b, hba, hb, (heval b).trans hv⟩

theorem innerMinMaxValue_congr (hw : input.WellScoped indexer)
    (hab : AgreeBelow indexer.globalBlockStart b a) :
    innerMinMaxValue indexer input.numRows spec groups terms b =
      innerMinMaxValue indexer input.numRows spec groups terms a := by
  unfold innerMinMaxValue
  congr 1
  exact List.map_congr_left fun g _ => groupExtremum_congr hw.numRows_eq le_rfl hab g

theorem flatValue_congr (hw : input.WellScoped indexer) (hab : AgreeBelow indexer.globalBlockStart b a) :
    flatValue indexer input.numRows spec terms b = flatValue indexer input.numRows spec terms a := by
  unfold flatValue
  congr 1
  refine List.map_congr_left fun r hr => objectiveRowValue_congr ?_ le_rfl hab
  rw [← hw.numRows_eq]
  exact List.mem_range.mp (List.mem_filter.mp hr).1

theorem innerSumValue_congr (hw : input.WellScoped indexer)
    (hab : AgreeBelow indexer.globalBlockStart b a) :
    innerSumValue input indexer spec groups terms b = innerSumValue input indexer spec groups terms a := by
  unfold innerSumValue
  congr 1
  exact List.map_congr_left fun g _ => objectiveGroupSum_congr hw.numRows_eq le_rfl hab _ g

/-- The value of the objective reads the decisions. -/
theorem minMaxObjectiveValue_congr (hw : input.WellScoped indexer)
    (hab : AgreeBelow indexer.globalBlockStart b a) :
    minMaxObjectiveValue input indexer spec groups terms b =
      minMaxObjectiveValue input indexer spec groups terms a := by
  unfold minMaxObjectiveValue
  split
  · split
    · exact innerMinMaxValue_congr hw hab
    · exact innerSumValue_congr hw hab
  · exact flatValue_congr hw hab

/-- The pass replaces the objective by global columns that are worth its value. -/
theorem linearizeMinMaxObjective_globals {obj : LinearObjective} {res : SolverInput × LinearObjective}
    (hw : input.WellScoped indexer) (hfits : spec.Fits sense) (haux : spec.HasAuxiliary groups)
    (hvars : obj.objectiveVariableIndices ≠ []) (hboxed : TermsBoxed input obj.savedTerms)
    (hclean : ObjectiveKeepsCoefficients input indexer spec groups obj.savedTerms)
    (hok : linearizeMinMaxObjective input indexer spec groups obj varNames policy = .ok res) :
    ∃ globals, res.2 = { obj.cleared with globalObjCoeffs := obj.globalObjCoeffs ++ globals } ∧
      ReplacedBy indexer sense input res.1 globals
        (minMaxObjectiveValue input indexer spec groups obj.savedTerms) := by
  unfold linearizeMinMaxObjective at hok
  rw [if_neg (by simpa using hvars)] at hok
  unfold MinMaxObjectiveSpec.HasAuxiliary at haux
  unfold ObjectiveKeepsCoefficients at hclean
  unfold minMaxObjectiveValue
  by_cases hper : spec.perInnerAgg ≠ .none ∧ 0 < groups.numGroups
  · simp only [if_pos hper] at hok haux hclean ⊢
    by_cases hmm : spec.perInnerAgg.isMinMax = true
    · simp only [if_pos hmm] at hok hclean ⊢
      exact linearizeInnerMinMax_best hw hmm hfits.innerIsEasy hper.2 (hfits.outer_ne_none hper.1)
        (fun _ => hfits.outerIsEasy) hboxed hclean hok
    · simp only [if_neg hmm] at hok hclean ⊢
      obtain ⟨hpinned, hres⟩ := linearizeInnerSum_pinned hw (haux.resolve_left hmm) hfits.outerIsEasy
        hboxed hclean hok
      exact ⟨_, hres, hpinned.replacedBy⟩
  · simp only [if_neg hper] at hok haux hclean ⊢
    rw [if_pos haux] at hok
    obtain ⟨hpinned, hres⟩ := linearizeFlatObjective_pinned hw (hfits.flat_isMinMax haux)
      hfits.flatIsEasy hboxed hclean hok
    exact ⟨_, hres, hpinned.replacedBy⟩

theorem buildLinearObjective_cleared (obj : LinearObjective) (globals : Form Nat ℚ) (a : Nat → ℚ) :
    (buildLinearObjective indexer { obj.cleared with globalObjCoeffs := globals }).eval a =
      globals.eval a := by
  unfold buildLinearObjective
  simp [LinearObjective.cleared]

/-- **A MIN/MAX objective, from its rewrite to what the model builder reads.** For every assignment the
input accepts, the built objective over the completions of the assignment is best at the aggregate of the
rows that keep a coefficient. -/
theorem minMaxObjective_best {hasPer : Bool} {written : ObjectiveExpr}
    {rewrite : MinMaxObjectiveRewrite} {obj : LinearObjective} {res : SolverInput × LinearObjective}
    (hw : input.WellScoped indexer)
    (hrewrite : rewriteMinMaxObjectiveTree sense hasPer written = .ok rewrite)
    (hspec : spec = { rewrite.spec with whenMask := spec.whenMask })
    (haux : spec.HasAuxiliary groups) (hvars : obj.objectiveVariableIndices ≠ [])
    (hglobals : obj.globalObjCoeffs = []) (hboxed : TermsBoxed input obj.savedTerms)
    (hclean : ObjectiveKeepsCoefficients input indexer spec groups obj.savedTerms)
    (hok : linearizeMinMaxObjective input indexer spec groups obj varNames policy = .ok res)
    (ha : input.Holds indexer a) :
    sense.IsBest (ObjectiveValues indexer input res.1 res.2 a)
      (minMaxObjectiveValue input indexer spec groups obj.savedTerms a) := by
  have hfits : spec.Fits sense := by
    have h := rewriteMinMaxObjectiveTree_fits hrewrite
    rw [hspec]
    exact ⟨h.flatIsEasy, h.innerIsEasy, h.outerIsEasy, h.outer_ne_none, h.flat_isMinMax⟩
  obtain ⟨globals, hres, hreplaced⟩ :=
    linearizeMinMaxObjective_globals hw hfits haux hvars hboxed hclean hok
  obtain ⟨⟨b, hba, hb, hv⟩, hdominates⟩ := hreplaced.refines.best
    ⟨hw.readsBelow, fun b c hbc => (minMaxObjectiveValue_congr hw
      (hbc.symm.mono (Nat.le_add_right _ _))).symm⟩ ha trivial
  have heval : ∀ c : Nat → ℚ, (buildLinearObjective indexer res.2).eval c = globals.eval c := fun c => by
    rw [hres, buildLinearObjective_cleared, hglobals, List.nil_append]
  refine DecideSense.isBest_of_dominates ⟨b, hba, hb, ?_⟩ ?_
  · rw [heval]
    exact hv.symm
  · rintro z ⟨c, hca, hc, rfl⟩
    rw [heval]
    exact hdominates c hca hc

end Pass

/-- Three rows of an integer between 0 and 10, for `MINIMIZE SUM(MIN(w * x)) PER g`. -/
def threeWeights : SolverInput where
  numRows := 3
  variableTypes := [.integer]
  lowerBounds := [0]
  upperBounds := [10]
  rigidLowerBounds := [0]
  rigidUpperBounds := [10]
  constraints := []

/-- The weight of a row. -/
def rowWeight (r : Nat) : ℚ := if r = 0 then 2 else if r = 1 then -1 else 0

/-- The first two rows are one group. The last row, the other group, has no weight. -/
def twoGroups : ObjectiveGroups where
  rowGroupIds := fun r => some (if r = 2 then 1 else 0)
  numGroups := 2

def minimumPerGroup : ObjectiveExpr :=
  .nested none .sum none
    { name := .min, child := [{ variableIndex := some 0, rowCoefficients := rowWeight }] }

def weightObjective : LinearObjective where
  objectiveVariableIndices := [some 0]
  objectiveCoefficients := [rowWeight]

def minimumPerGroupSpec : MinMaxObjectiveSpec where
  perInnerAgg := .min
  perOuterAgg := .sum

theorem rowWeight_zero_or_large (r : Nat) : rowWeight r = 0 ∨ coefficientCut ≤ |rowWeight r| := by
  unfold rowWeight
  split
  · exact Or.inr (by decide +kernel)
  · split
    · exact Or.inr (by decide +kernel)
    · exact Or.inl rfl

theorem threeWeights_clean :
    InnerClean (.rowScoped 3 0) threeWeights twoGroups weightObjective.savedTerms := by
  refine ⟨fun r _ t ht => ?_, fun g hg r hr => ⟨fun r _ t ht => ?_, ?_⟩, ?_, ?_⟩
  · rw [List.mem_singleton.mp ht]
    exact rowWeight_zero_or_large r
  · rw [List.mem_singleton.mp ht]
    simp only [mul_one]
    exact rowWeight_zero_or_large r
  · have hmerged : ∀ r < 3, ∀ e ∈ ([r].foldl
        (addObjectiveRowTerms (.rowScoped 3 0) weightObjective.savedTerms 1) {}).form,
        e.2 = 0 ∨ coefficientCut ≤ |e.2| := by decide +kernel
    exact hmerged r (lt_of_mem_activeGroupRows hr)
  · decide +kernel
  · decide +kernel

/-- All three rows at zero meet their boxes. -/
theorem threeWeights_holds : threeWeights.Holds (.rowScoped 3 0) fun _ => 0 := by
  refine ⟨fun v box hbox row _ => ?_, fun i box hbox => ?_, fun r hr => ?_, fun gc hgc => ?_,
    fun ic hic => ?_⟩
  · cases v with
    | zero =>
      obtain rfl := Option.some.inj hbox
      exact ⟨Or.inr le_rfl, Or.inr (by norm_num), fun _ => rfl⟩
    | succ v => cases hbox
  · cases hbox
  · cases hr
  · cases hgc
  · cases hic

/-- The pass at work on both groups. -/
theorem minMaxObjective_best_minimumPerGroup : ∃ res,
    linearizeMinMaxObjective threeWeights (.rowScoped 3 0) minimumPerGroupSpec twoGroups
        weightObjective [] {} = .ok res ∧
      DecideSense.minimize.IsBest
        (ObjectiveValues (.rowScoped 3 0) threeWeights res.1 res.2 fun _ => 0)
        (minMaxObjectiveValue threeWeights (.rowScoped 3 0) minimumPerGroupSpec twoGroups
          weightObjective.savedTerms fun _ => 0) := by
  have hok : (linearizeMinMaxObjective threeWeights (.rowScoped 3 0) minimumPerGroupSpec twoGroups
      weightObjective [] {}).isOk = true := by decide +kernel
  cases hout : linearizeMinMaxObjective threeWeights (.rowScoped 3 0) minimumPerGroupSpec twoGroups
      weightObjective [] {} with
  | error e =>
    rw [hout] at hok
    cases hok
  | ok res =>
    have hbest := @minMaxObjective_best (.rowScoped 3 0) threeWeights (fun _ => 0) minimumPerGroupSpec
      twoGroups {} .minimize [] true minimumPerGroup
    refine ⟨res, rfl, hbest ⟨rfl, fun r hr => ?_, fun gc hgc => ?_, fun ic hic => ?_⟩ rfl rfl ?_ ?_ rfl
      (fun t ht v hv => ?_) ?_ hout threeWeights_holds⟩
    · cases hr
    · cases hgc
    · cases hic
    · exact Or.inl rfl
    · exact List.cons_ne_nil _ _
    · rw [List.mem_singleton.mp ht] at hv
      obtain rfl := Option.some.inj hv
      exact ⟨Nat.one_pos, Nat.one_pos⟩
    · exact threeWeights_clean

end Decidb
