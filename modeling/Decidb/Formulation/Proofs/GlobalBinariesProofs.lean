import Decidb.Formulation.Proofs.NestedObjectiveProofs
import Decidb.Formulation.Proofs.NotEqualExactProofs

/-!
# The binaries of the global block

An integer column a pass appends is a binary with the unit interval for a box. The passes after it leave
the column where it is: only continuous columns are pinned.
-/

namespace Decidb

open Linear SolverInput

variable {indexer : VarIndexer} {s t u : SolverInput}

/-- The integer columns of the global block are binaries. -/
def BinaryGlobals (input : SolverInput) : Prop :=
  ∀ box ∈ input.globalColumns, box.isInteger = true → box = ⟨0, 1, true⟩

/-- `t` is `s` with columns and rows appended, its binaries where they were and its conditional rows as
they were. -/
structure KeepsBinaries (s t : SolverInput) : Prop where
  kept : ∀ (i : Nat) (box : ColumnBox), s.globalColumns[i]? = some box → box.isInteger = true →
    t.globalColumns[i]? = some box
  fresh : ∀ box ∈ t.globalColumns, box.isInteger = true → box ∈ s.globalColumns ∨ box = ⟨0, 1, true⟩
  length_le : s.globalColumns.length ≤ t.globalColumns.length
  indicators : t.indicatorConstraints = s.indicatorConstraints

namespace KeepsBinaries

theorem refl (s : SolverInput) : KeepsBinaries s s :=
  ⟨fun _ _ h _ => h, fun _ h _ => Or.inl h, le_rfl, rfl⟩

theorem trans (h : KeepsBinaries s t) (h' : KeepsBinaries t u) : KeepsBinaries s u := by
  refine ⟨fun i box hs hint => h'.kept i box (h.kept i box hs hint) hint, fun box hu hint => ?_,
    h.length_le.trans h'.length_le, h'.indicators.trans h.indicators⟩
  rcases h'.fresh box hu hint with ht | hbinary
  · exact h.fresh box ht hint
  · exact Or.inr hbinary

/-- Appending a column that is continuous or a binary. -/
theorem append {box : ColumnBox} (hbox : box.isInteger = true → box = ⟨0, 1, true⟩) :
    KeepsBinaries s { s with globalColumns := s.globalColumns ++ [box] } := by
  refine ⟨fun i b hb _ => ?_, fun b hb hint => ?_, by simp, rfl⟩
  · show (s.globalColumns ++ [box])[i]? = some b
    rw [List.getElem?_append_left (List.getElem?_eq_some_iff.mp hb).1]
    exact hb
  · rcases List.mem_append.mp hb with hb | hb
    · exact Or.inl hb
    · rw [List.mem_singleton.mp hb] at hint ⊢
      exact Or.inr (hbox hint)

theorem addContinuous (s : SolverInput) (indexer : VarIndexer) (range : AuxRange) :
    KeepsBinaries s (s.addGlobalContinuousAux indexer range).1 := append fun h => by cases h

theorem addBinary (s : SolverInput) (indexer : VarIndexer) :
    KeepsBinaries s (s.addGlobalBinaryAux indexer).1 := append fun _ => rfl

/-- Rows and constructs touch no column. -/
theorem pushRow (s : SolverInput) (r : RawConstraint) : KeepsBinaries s (s.pushRow r) :=
  ⟨fun _ _ h _ => h, fun _ h _ => Or.inl h, le_rfl, rfl⟩

theorem pushGeneral (s : SolverInput) (gc : GeneralConstraintSpec) :
    KeepsBinaries s (s.pushGeneral gc) :=
  ⟨fun _ _ h _ => h, fun _ h _ => Or.inl h, le_rfl, rfl⟩

/-- Pinning a continuous column leaves the binaries alone. -/
theorem pin {z : Nat} (value : ℚ)
    (hz : ∀ box, s.globalColumns[z - indexer.globalBlockStart]? = some box → box.isInteger = false) :
    KeepsBinaries s (s.pinGlobalAux indexer z value) := by
  refine ⟨fun i box hb hint => ?_, fun box hb hint => ?_, ?_, rfl⟩
  · show (s.globalColumns.modify _ _)[i]? = _
    rw [List.getElem?_modify, hb, Option.map_eq_map, Option.map_some]
    by_cases hi : z - indexer.globalBlockStart = i
    · have hcontinuous := hz box (by rw [hi]; exact hb)
      rw [hint] at hcontinuous
      cases hcontinuous
    · rw [if_neg hi]
  · obtain ⟨i, hi⟩ := List.getElem?_of_mem hb
    have hi' : (s.globalColumns.modify (z - indexer.globalBlockStart) fun box =>
        { box with lower := value, upper := value })[i]? = some box := hi
    rw [List.getElem?_modify] at hi'
    obtain ⟨b, hb', heq⟩ := Option.map_eq_some_iff.mp hi'
    by_cases hiz : z - indexer.globalBlockStart = i
    · rw [if_pos hiz] at heq
      have hcontinuous := hz b (by rw [hiz]; exact hb')
      rw [← heq] at hint
      dsimp only at hint
      rw [hcontinuous] at hint
      cases hint
    · rw [if_neg hiz] at heq
      rw [← show b = box from heq]
      exact Or.inl (List.mem_of_getElem? hb')
  · show _ ≤ (s.globalColumns.modify _ _).length
    rw [List.length_modify]

/-- A loop whose every step keeps the binaries. -/
theorem foldl {α : Type} {f : SolverInput → α → SolverInput} (l : List α)
    (hf : ∀ x ∈ l, ∀ s, KeepsBinaries s (f s x)) : ∀ s, KeepsBinaries s (l.foldl f s) := by
  induction l with
  | nil => exact refl
  | cons x l ih =>
    exact fun s => (hf x List.mem_cons_self s).trans
      (ih (fun y hy => hf y (List.mem_cons_of_mem _ hy)) _)

theorem foldlM {α : Type} {f : SolverInput → α → Except String SolverInput} {l : List α}
    (hf : ∀ x ∈ l, ∀ s t, f s x = .ok t → KeepsBinaries s t) (h : l.foldlM f s = .ok t) :
    KeepsBinaries s t :=
  Relational.foldlM_keeps (P := fun u => KeepsBinaries s u)
    (fun x hx u v hu hv => hu.trans (hf x hx u v hv)) (refl s) h

theorem binaryGlobals (h : KeepsBinaries s t) (hs : BinaryGlobals s) : BinaryGlobals t := by
  intro box hbox hint
  rcases h.fresh box hbox hint with hbox | hbinary
  · exact hs box hbox hint
  · exact hbinary

/-- The conditional rows stay well formed. -/
theorem conditionalRows (h : KeepsBinaries s t) (hs : ConditionalRows indexer s) :
    ConditionalRows indexer t := by
  refine ⟨?_, ?_, ?_, ?_⟩
  · rw [h.indicators]
    exact hs.sense_ne
  · rw [h.indicators]
    exact hs.binaryValue
  · rw [h.indicators]
    intro ic hic e he
    have hlt := hs.columns ic hic e he
    have hle := h.length_le
    unfold SolverInput.width at *
    omega
  · rw [h.indicators]
    intro ic hic
    obtain ⟨g, hcol, hbox⟩ := hs.binary ic hic
    exact ⟨g, hcol, h.kept g _ hbox rfl⟩

end KeepsBinaries

/-! ## Extremum links -/

theorem keepsBinaries_emitArguments (members : List ExtremumMember) : ∀ s : SolverInput,
    KeepsBinaries s (emitArguments indexer s members).1 := by
  induction members with
  | nil => exact KeepsBinaries.refl
  | cons m members ih =>
    intro s
    have hone : KeepsBinaries s (extremumArgumentColumn s indexer m).1 := by
      unfold extremumArgumentColumn
      split
      · exact .refl s
      · exact (KeepsBinaries.addContinuous s indexer m.range).trans (.pushRow _ _)
    exact hone.trans (ih _)

theorem keepsBinaries_emitSelectors (spec : ExtremumLinkSpec) (members : List ExtremumMember) :
    ∀ s : SolverInput, KeepsBinaries s (emitSelectors indexer spec s members).1 := by
  induction members with
  | nil => exact KeepsBinaries.refl
  | cons m members ih =>
    exact fun s => ((KeepsBinaries.addBinary s indexer).trans (.pushRow _ _)).trans (ih _)

theorem keepsBinaries_extremumLink {spec : ExtremumLinkSpec} {members : List ExtremumMember}
    {varNames : List String} {policy : NativeConstructPolicy}
    (hok : emitExtremumLink s indexer spec members varNames policy = .ok t) : KeepsBinaries s t := by
  unfold emitExtremumLink at hok
  split at hok
  · obtain rfl := Except.ok.inj hok
    exact .refl s
  dsimp only at hok
  set env := if spec.needEnvelope = true then
      members.foldl (fun input member => input.pushRow (envelopeRow spec member)) s
    else s with henv
  have hkeep : KeepsBinaries s env := by
    rw [henv]
    split
    · exact .foldl members (fun m _ s => .pushRow s _) s
    · exact .refl s
  split at hok
  · obtain rfl := Except.ok.inj hok
    exact hkeep
  split at hok
  · obtain rfl := Except.ok.inj hok
    exact hkeep.trans ((keepsBinaries_emitArguments members env).trans (.pushGeneral _ _))
  split at hok
  · unfold throwUnboundedBigMNaming at hok
    split at hok <;> cases hok
  · obtain rfl := Except.ok.inj hok
    exact hkeep.trans ((keepsBinaries_emitSelectors spec members env).trans (.pushRow _ _))

/-! ## The passes -/

section Passes

variable {varNames : List String} {policy : NativeConstructPolicy}

theorem keepsBinaries_minMaxGroup {ec : EvaluatedConstraint} {isMax : Bool} {group : MinMaxGroup}
    (hok : linearizeMinMaxGroup indexer ec isMax varNames policy s group = .ok t) :
    KeepsBinaries s t := by
  unfold linearizeMinMaxGroup at hok
  split at hok
  · obtain rfl := Except.ok.inj hok
    exact .refl s
  split at hok
  · dsimp only at hok
    split at hok
    · cases hok
    · rename_i linked hlink
      obtain rfl := Except.ok.inj hok
      exact ((KeepsBinaries.addContinuous s indexer _).trans (keepsBinaries_extremumLink hlink)).trans
        (.pushRow _ _)
  · obtain rfl := Except.ok.inj hok
    exact .refl s

/-- **Hard MIN/MAX constraints.** -/
theorem keepsBinaries_minMaxConstraints
    (hok : linearizeMinMaxConstraints s indexer varNames policy = .ok t) : KeepsBinaries s t := by
  unfold linearizeMinMaxConstraints at hok
  split at hok
  · cases hok
  rename_i out constraints hloop
  obtain rfl := Except.ok.inj hok
  have hout : KeepsBinaries s out := Relational.foldlM_keeps
    (P := fun state : SolverInput × List EvaluatedConstraint => KeepsBinaries s state.1)
    (fun ec _ x y hx hxy => by
      refine hx.trans ?_
      unfold linearizeMinMaxConstraint at hxy
      split at hxy
      · obtain rfl := Except.ok.inj hxy
        exact .refl _
      dsimp only at hxy
      split at hxy
      · obtain rfl := Except.ok.inj hxy
        exact .refl _
      · split at hxy
        · cases hxy
        · rename_i hgroups
          obtain rfl := Except.ok.inj hxy
          exact .foldlM (fun group _ s t => keepsBinaries_minMaxGroup) hgroups)
    (KeepsBinaries.refl s) hloop
  exact ⟨hout.kept, hout.fresh, hout.length_le, hout.indicators⟩

/-- A `<>` appends binaries. -/
theorem binaryGlobals_notEqual (hs : BinaryGlobals s) (hok : linearizeNotEqual s indexer = .ok t) :
    BinaryGlobals t := by
  have hone : ∀ (collapse : NECollapse) (form : Form Nat ℚ) (k : ℚ) (u : SolverInput),
      BinaryGlobals u → BinaryGlobals (emitNotEqual indexer u collapse form k) := by
    intro collapse form k u hu
    have hadded := (KeepsBinaries.addBinary u indexer).binaryGlobals hu
    cases collapse <;> exact hadded
  have hrow : ∀ (ec : EvaluatedConstraint) (u : SolverInput), BinaryGlobals u →
      BinaryGlobals (expandRowNotEqual indexer u ec) := by
    intro ec u hu
    unfold expandRowNotEqual
    dsimp only
    split
    · exact hu
    · refine List.foldlRecOn _ _ (motive := BinaryGlobals) hu fun v hv r _ => ?_
      unfold emitNotEqualRow
      split
      · exact hone _ _ _ v hv
      · exact hv
  unfold linearizeNotEqual at hok
  dsimp only at hok
  split at hok
  · cases hok
  refine Relational.foldlM_keeps (P := BinaryGlobals) (fun ec _ u v hu huv => ?_) ?_ hok
  · unfold expandAggregateNotEqual at huv
    refine Relational.foldlM_keeps (P := BinaryGlobals) (fun rows _ x y hx hxy => ?_) hu huv
    unfold expandGroupNotEqual at hxy
    split at hxy
    · cases hxy
    obtain rfl := Except.ok.inj hxy
    refine List.foldlRecOn _ _ (motive := BinaryGlobals) hx fun w hw bound _ => ?_
    unfold emitGroupExclusion
    split
    · exact hw
    · split
      · dsimp only
        split
        · split
          · exact hw
          · exact hone _ _ _ w hw
        · split
          · exact hw
          · exact hone _ _ _ w hw
      · exact hw
  · exact List.foldlRecOn _ _ (motive := BinaryGlobals) hs fun u hu ec _ => hrow ec u hu

theorem keepsBinaries_composedAuxiliaries {terms : List ComposedMinMaxTermData}
    {out : SolverInput × List ComposedMinMaxTermData}
    (hok : emitComposedMinMaxAuxiliaries s indexer terms varNames policy = .ok out) :
    KeepsBinaries s out.1 := by
  have halloc : ∀ (terms : List ComposedMinMaxTermData) (u : SolverInput),
      KeepsBinaries u (allocateComposed indexer u terms).1 := by
    intro terms
    induction terms with
    | nil => exact KeepsBinaries.refl
    | cons ta terms ih =>
      intro u
      unfold allocateComposed
      split
      · exact (KeepsBinaries.addContinuous u indexer _).trans (ih _)
      · exact ih u
  unfold emitComposedMinMaxAuxiliaries at hok
  dsimp only at hok
  split at hok
  · cases hok
  rename_i linked hloop
  obtain rfl := Except.ok.inj hok
  refine (halloc terms s).trans (.foldlM (fun ta _ u v huv => ?_) hloop)
  unfold emitComposedTerm at huv
  split at huv
  · exact keepsBinaries_extremumLink huv
  · obtain rfl := Except.ok.inj huv
    exact .refl u

/-- **Composed constraints.** -/
theorem keepsBinaries_composedConstraint {terms : List ComposedMinMaxTermData} {rhs : ℚ}
    {cmp : Comparison}
    (hok : linearizeComposedMinMaxConstraint s indexer terms rhs cmp varNames policy = .ok t) :
    KeepsBinaries s t := by
  unfold linearizeComposedMinMaxConstraint at hok
  split at hok
  · cases hok
  rename_i linked terms' haux
  dsimp only at hok
  split at hok
  · cases hok
  · obtain rfl := Except.ok.inj hok
    exact (keepsBinaries_composedAuxiliaries haux).trans (.pushRow _ _)

/-- **Composed objectives.** -/
theorem keepsBinaries_composedObjective {obj : LinearObjective} {terms : List ComposedMinMaxTermData}
    {out : SolverInput × LinearObjective}
    (hok : linearizeComposedMinMaxObjective s indexer obj terms varNames policy = .ok out) :
    KeepsBinaries s out.1 := by
  unfold linearizeComposedMinMaxObjective at hok
  split at hok
  · cases hok
  · rename_i linked terms' haux
    obtain rfl := Except.ok.inj hok
    exact keepsBinaries_composedAuxiliaries haux

theorem keepsBinaries_pinZero {z : Nat} (hz : ZeroColumn indexer s z) :
    KeepsBinaries s (s.pinGlobalAux indexer z 0) := by
  obtain ⟨i, box, rfl, hbox, hint, -⟩ := hz
  refine KeepsBinaries.pin 0 fun b hb => ?_
  rw [Nat.add_sub_cancel_left, hbox] at hb
  rw [← Option.some.inj hb]
  exact hint

theorem keepsBinaries_allocateGroups (family : AuxRange) (gs : List Nat) : ∀ s : SolverInput,
    KeepsBinaries s (allocateGroups indexer family s gs).1 := by
  induction gs with
  | nil => exact KeepsBinaries.refl
  | cons g gs ih => exact fun s => (KeepsBinaries.addContinuous s indexer family).trans (ih _)

variable {spec : MinMaxObjectiveSpec} {groups : ObjectiveGroups} {obj : LinearObjective}
  {out : SolverInput × LinearObjective}

theorem keepsBinaries_innerMinMax (hs : s.WellScoped indexer)
    (hok : linearizeInnerMinMax s indexer spec groups obj varNames policy = .ok out) :
    KeepsBinaries s out.1 := by
  unfold linearizeInnerMinMax at hok
  dsimp only at hok
  have halloc := allocateGroups_spec (rowFamily s obj.savedTerms) (List.range groups.numGroups) hs
  split at hok
  · cases hok
  rename_i linked hloop
  obtain ⟨hkeep, -⟩ := Relational.foldlM_keeps
    (P := fun u => KeepsBinaries s u ∧ ∀ gz ∈ (allocateGroups indexer (rowFamily s obj.savedTerms) s
      (List.range groups.numGroups)).2, ZeroColumn indexer u gz.2)
    (fun gz hgz u v hu huv => by
      obtain ⟨hkeep, hzero⟩ := hu
      unfold emitObjectiveGroup at huv
      dsimp only at huv
      split at huv
      · obtain rfl := Except.ok.inj huv
        exact ⟨hkeep.trans (keepsBinaries_pinZero (hzero gz hgz)), fun gz' h => (hzero gz' h).pin⟩
      · exact ⟨hkeep.trans (keepsBinaries_extremumLink huv),
          fun gz' h => (hzero gz' h).keeps (keepsColumns_emitExtremumLink huv)⟩)
    ⟨keepsBinaries_allocateGroups _ _ s,
      halloc.zeroColumns (rowFamily_contains_zero s obj.savedTerms)⟩ hloop
  split at hok
  · obtain rfl := Except.ok.inj hok
    exact hkeep
  · obtain rfl := Except.ok.inj hok
    exact hkeep
  all_goals
    split at hok
    · cases hok
    · rename_i hlink
      obtain rfl := Except.ok.inj hok
      exact (hkeep.trans (.addContinuous linked indexer _)).trans (keepsBinaries_extremumLink hlink)

theorem keepsBinaries_innerSum
    (hok : linearizeInnerSum s indexer spec groups obj varNames policy = .ok out) :
    KeepsBinaries s out.1 := by
  have hadd := KeepsBinaries.addContinuous s indexer (groupSumFamily s groups spec.perInnerWasAvg
    obj.savedTerms)
  unfold linearizeInnerSum at hok
  dsimp only at hok
  split at hok
  · obtain rfl := Except.ok.inj hok
    exact .refl s
  · obtain rfl := Except.ok.inj hok
    exact .refl s
  all_goals
    split at hok
    · obtain rfl := Except.ok.inj hok
      refine hadd.trans (.pin 0 fun box hbox => ?_)
      have hlast : (s.globalColumns ++ [_])[indexer.globalBlockStart + s.globalColumns.length -
        indexer.globalBlockStart]? = some box := hbox
      rw [Nat.add_sub_cancel_left, List.getElem?_concat_length] at hlast
      rw [← Option.some.inj hlast]
    · split at hok
      · cases hok
      · rename_i hlink
        obtain rfl := Except.ok.inj hok
        exact hadd.trans (keepsBinaries_extremumLink hlink)

/-- **MIN/MAX objectives.** -/
theorem keepsBinaries_minMaxObjective (hs : s.WellScoped indexer)
    (hok : linearizeMinMaxObjective s indexer spec groups obj varNames policy = .ok out) :
    KeepsBinaries s out.1 := by
  unfold linearizeMinMaxObjective at hok
  split at hok
  · obtain rfl := Except.ok.inj hok
    exact .refl s
  split at hok
  · split at hok
    · exact keepsBinaries_innerMinMax hs hok
    · exact keepsBinaries_innerSum hok
  split at hok
  · unfold linearizeFlatObjective at hok
    dsimp only at hok
    split at hok
    · cases hok
    split at hok
    · cases hok
    · rename_i hlink
      obtain rfl := Except.ok.inj hok
      exact (KeepsBinaries.addContinuous s indexer _).trans (keepsBinaries_extremumLink hlink)
  · obtain rfl := Except.ok.inj hok
    exact .refl s

end Passes

end Decidb
