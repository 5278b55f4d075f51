import Decidb.Formulation.ColumnLayout

/-!
# Every decision column has one owner

A column before the globals is an instance of the variable `OwnerOf` names, and the column of a row is
one of the variable's instances.
-/

namespace Decidb

namespace ColumnLayout

variable {layout : ColumnLayout}

theorem mem_varsWhere {p : VariableScope → Bool} {v : Nat} :
    v ∈ layout.varsWhere p ↔ ∃ s, layout.variableScopes[v]? = some s ∧ p s = true := by
  unfold varsWhere numVars
  rw [List.mem_filter, List.mem_range]
  constructor
  · rintro ⟨hv, hp⟩
    rw [List.getElem?_eq_getElem hv] at hp ⊢
    exact ⟨_, rfl, by simpa using hp⟩
  · rintro ⟨s, hs, hp⟩
    obtain ⟨hv, -⟩ := List.getElem?_eq_some_iff.mp hs
    exact ⟨hv, by simp [hs, hp]⟩

theorem nodup_varsWhere (p : VariableScope → Bool) : (layout.varsWhere p).Nodup :=
  List.nodup_range.filter _

/-! ## The entity block -/

theorem mem_entityBases {vs : List Nat} : ∀ {base : Nat} {e : Nat × Nat},
    e ∈ layout.entityBases base vs → e.1 ∈ vs ∧ base ≤ e.2 ∧
      e.2 + layout.entitiesOf e.1 ≤ base + (vs.map layout.entitiesOf).sum := by
  induction vs with
  | nil =>
    intro base e he
    cases he
  | cons v vs ih =>
    intro base e he
    rw [List.map_cons, List.sum_cons]
    rcases List.mem_cons.mp he with rfl | he
    · exact ⟨List.mem_cons_self, le_rfl, by simp⟩
    · obtain ⟨hv, hbase, hsum⟩ := ih he
      exact ⟨List.mem_cons_of_mem _ hv, by omega, by omega⟩

/-- A variable is met once. -/
theorem lookup_entityBases {vs : List Nat} (hnodup : vs.Nodup) : ∀ {base v b : Nat},
    (v, b) ∈ layout.entityBases base vs → (layout.entityBases base vs).lookup v = some b := by
  induction vs with
  | nil =>
    intro base v b h
    cases h
  | cons u vs ih =>
    intro base v b h
    obtain ⟨hu, hnodup⟩ := List.nodup_cons.mp hnodup
    unfold entityBases at h ⊢
    rcases List.mem_cons.mp h with heq | h
    · obtain ⟨rfl, rfl⟩ := Prod.mk.inj heq
      simp
    · have hne : v ≠ u := by
        rintro rfl
        exact hu (mem_entityBases h).1
      have hbeq : (v == u) = false := by simpa using hne
      rw [List.lookup_cons, hbeq]
      exact ih hnodup h

theorem exists_entityBases {vs : List Nat} : ∀ {base v : Nat}, v ∈ vs →
    ∃ b, (v, b) ∈ layout.entityBases base vs := by
  induction vs with
  | nil =>
    intro base v h
    cases h
  | cons u vs ih =>
    intro base v h
    rcases List.mem_cons.mp h with rfl | h
    · exact ⟨base, List.mem_cons_self⟩
    · obtain ⟨b, hb⟩ := @ih (base + layout.entitiesOf u) v h
      exact ⟨b, List.mem_cons_of_mem _ hb⟩

/-- Columns that begin later change nothing. -/
theorem lastOwner_of_lt {col : Nat} {owner : Option Nat} {l : List (Nat × Nat)}
    (h : ∀ e ∈ l, col < e.2) : lastOwner col owner l = owner := by
  cases l with
  | nil => rfl
  | cons e l =>
    obtain ⟨v, base⟩ := e
    rw [lastOwner, if_pos (h (v, base) List.mem_cons_self)]

/-- The last variable that begins no later than a column of the block owns it. -/
theorem lastOwner_spec {col : Nat} {vs : List Nat} : ∀ {base : Nat} (owner : Option Nat),
    base ≤ col → col < base + (vs.map layout.entitiesOf).sum →
    ∃ v b, (v, b) ∈ layout.entityBases base vs ∧ b ≤ col ∧ col < b + layout.entitiesOf v ∧
      lastOwner col owner (layout.entityBases base vs) = some v := by
  induction vs with
  | nil =>
    intro base owner hle hlt
    simp at hlt
    omega
  | cons v vs ih =>
    intro base owner hle hlt
    rw [List.map_cons, List.sum_cons] at hlt
    unfold entityBases lastOwner
    rw [if_neg (by omega)]
    by_cases hv : col < base + layout.entitiesOf v
    · refine ⟨v, base, List.mem_cons_self, hle, hv, lastOwner_of_lt fun e he => ?_⟩
      have := (mem_entityBases he).2.1
      omega
    · obtain ⟨u, b, hmem, hb, hcol, howner⟩ :=
        @ih (base + layout.entitiesOf v) (some v) (by omega) (by omega)
      exact ⟨u, b, List.mem_cons_of_mem _ hmem, hb, hcol, howner⟩

theorem entityVarBase_eq {v b : Nat}
    (h : (v, b) ∈ layout.entityBases layout.entityBlockStart layout.entityBlockVar) :
    layout.entityVarBase v = b := by
  have hnodup : layout.entityBlockVar.Nodup := nodup_varsWhere _
  unfold entityVarBase
  rw [lookup_entityBases hnodup h]
  rfl

/-- The columns of an entity-scoped variable lie in the entity block. -/
theorem entityVarBase_le {v : Nat} {mapping : EntityMapping}
    (h : layout.variableScopes[v]? = some (.entity mapping)) :
    layout.entityBlockStart ≤ layout.entityVarBase v ∧
      layout.entityVarBase v + mapping.numEntities ≤ layout.scalarBlockStart := by
  have hv : v ∈ layout.entityBlockVar := mem_varsWhere.mpr ⟨_, h, rfl⟩
  obtain ⟨b, hb⟩ := @exists_entityBases layout _ layout.entityBlockStart v hv
  obtain ⟨-, hle, hsum⟩ := mem_entityBases hb
  have hsize : layout.entitiesOf v = mapping.numEntities := by
    simp [entitiesOf, h, VariableScope.numEntities]
  rw [entityVarBase_eq hb]
  refine ⟨hle, ?_⟩
  rw [← hsize]
  exact hsum

/-! ## Owners -/

/-- **Every decision column is an instance of its owner.** -/
theorem ownerOf_spec {col : Nat} (hcol : col < layout.globalBlockStart) :
    ∃ v inst, layout.ownerOf col = some v ∧ inst < layout.numInstances v ∧
      layout.instanceColumn v inst = col := by
  unfold ownerOf
  rw [if_neg (by omega)]
  by_cases hrow : col < layout.entityBlockStart
  · -- a slot of a row
    rw [if_pos hrow]
    have hpos : 0 < layout.numRowVars := by
      by_contra hzero
      have hzero : layout.numRowVars = 0 := by omega
      simp [entityBlockStart, hzero] at hrow
    rw [if_neg (by omega)]
    have hslot : col % layout.numRowVars < layout.rowOffsetVar.length := Nat.mod_lt _ hpos
    rw [List.getElem?_eq_getElem hslot]
    obtain ⟨s, hs, hp⟩ := mem_varsWhere.mp (List.getElem_mem hslot)
    obtain rfl : s = .row := by cases s <;> simp_all [VariableScope.isRow]
    refine ⟨_, col / layout.numRowVars, rfl, ?_, ?_⟩
    · rw [numInstances, hs]
      exact Nat.div_lt_of_lt_mul (by rw [Nat.mul_comm]; exact hrow)
    · rw [instanceColumn, hs]
      show col / layout.numRowVars * layout.numRowVars + layout.rowOffsetVar.idxOf _ = col
      have hnodup : layout.rowOffsetVar.Nodup := nodup_varsWhere _
      rw [hnodup.idxOf_getElem]
      exact Nat.div_add_mod' col layout.numRowVars
  · rw [if_neg hrow]
    by_cases hentity : col < layout.scalarBlockStart
    · -- an entity
      rw [if_pos hentity]
      obtain ⟨v, b, hmem, hb, hlt, howner⟩ :=
        @lastOwner_spec layout col layout.entityBlockVar layout.entityBlockStart none
          (not_lt.mp hrow) hentity
      obtain ⟨s, hs, hp⟩ := mem_varsWhere.mp (mem_entityBases hmem).1
      obtain ⟨mapping, rfl⟩ : ∃ mapping, s = .entity mapping := by
        cases s <;> simp_all [VariableScope.isEntity]
      refine ⟨v, col - b, howner, ?_, ?_⟩
      · have hsize : layout.entitiesOf v = mapping.numEntities := by
          simp [entitiesOf, hs, VariableScope.numEntities]
        rw [numInstances, hs]
        show col - b < mapping.numEntities
        omega
      · rw [instanceColumn, hs]
        show layout.entityVarBase v + (col - b) = col
        rw [entityVarBase_eq hmem]
        omega
    · -- a query-wide variable
      rw [if_neg hentity]
      have hslot : col - layout.scalarBlockStart < layout.scalarSlotVar.length := by
        unfold globalBlockStart at hcol
        omega
      rw [List.getElem?_eq_getElem hslot]
      obtain ⟨s, hs, hp⟩ := mem_varsWhere.mp (List.getElem_mem hslot)
      obtain rfl : s = .scalar := by cases s <;> simp_all [VariableScope.isScalar]
      refine ⟨_, 0, rfl, ?_, ?_⟩
      · rw [numInstances, hs]
        exact Nat.one_pos
      · rw [instanceColumn, hs]
        show layout.scalarBlockStart + layout.scalarSlotVar.idxOf _ = col
        have hnodup : layout.scalarSlotVar.Nodup := nodup_varsWhere _
        rw [hnodup.idxOf_getElem]
        omega

/-- The instances of a variable lie before the globals. -/
theorem instanceColumn_lt {v inst : Nat} (h : inst < layout.numInstances v) :
    layout.instanceColumn v inst < layout.globalBlockStart := by
  unfold numInstances at h
  unfold instanceColumn
  have hblocks : layout.entityBlockStart ≤ layout.scalarBlockStart := Nat.le_add_right _ _
  have hscalars : layout.scalarBlockStart ≤ layout.globalBlockStart := Nat.le_add_right _ _
  cases hs : layout.variableScopes[v]? with
  | none =>
    rw [hs] at h
    exact absurd h (Nat.not_lt_zero _)
  | some s =>
    rw [hs] at h
    cases s with
    | row =>
      have hslot : layout.rowOffsetVar.idxOf v < layout.numRowVars :=
        List.idxOf_lt_length_of_mem (mem_varsWhere.mpr ⟨_, hs, rfl⟩)
      have hrows : (inst + 1) * layout.numRowVars ≤ layout.numRows * layout.numRowVars :=
        Nat.mul_le_mul_right _ h
      have hblock : inst * layout.numRowVars + layout.rowOffsetVar.idxOf v <
          layout.entityBlockStart := by
        unfold entityBlockStart
        rw [Nat.succ_mul] at hrows
        omega
      exact lt_of_lt_of_le hblock (hblocks.trans hscalars)
    | entity mapping =>
      have hbase := (entityVarBase_le hs).2
      show layout.entityVarBase v + inst < layout.globalBlockStart
      have h : inst < mapping.numEntities := h
      omega
    | scalar =>
      have hslot : layout.scalarSlotVar.idxOf v < layout.scalarSlotVar.length :=
        List.idxOf_lt_length_of_mem (mem_varsWhere.mpr ⟨_, hs, rfl⟩)
      exact Nat.add_lt_add_left hslot _

/-- The columns of two entity-scoped variables do not overlap. -/
theorem entityBases_disjoint {vs : List Nat} {col : Nat} : ∀ {base v u b c : Nat},
    (v, b) ∈ layout.entityBases base vs → (u, c) ∈ layout.entityBases base vs →
    b ≤ col → col < b + layout.entitiesOf v → c ≤ col → col < c + layout.entitiesOf u → v = u := by
  induction vs with
  | nil =>
    intro base v u b c hv
    cases hv
  | cons w vs ih =>
    intro base v u b c hv hu hb hcolb hc hcolc
    rcases List.mem_cons.mp hv with hv | hv <;> rcases List.mem_cons.mp hu with hu | hu
    · rw [(Prod.mk.inj hv).1, (Prod.mk.inj hu).1]
    · obtain ⟨rfl, rfl⟩ := Prod.mk.inj hv
      have hle := (mem_entityBases hu).2.1
      simp only at hle
      omega
    · obtain ⟨rfl, rfl⟩ := Prod.mk.inj hu
      have hle := (mem_entityBases hv).2.1
      simp only at hle
      omega
    · exact ih hv hu hb hcolb hc hcolc

/-- **The owner of an instance is its variable.** -/
theorem ownerOf_instanceColumn {v inst : Nat} (h : inst < layout.numInstances v) :
    layout.ownerOf (layout.instanceColumn v inst) = some v := by
  have hlt := instanceColumn_lt h
  unfold ownerOf
  rw [if_neg (by omega)]
  have hblocks : layout.entityBlockStart ≤ layout.scalarBlockStart := Nat.le_add_right _ _
  unfold numInstances at h
  unfold instanceColumn at hlt ⊢
  cases hs : layout.variableScopes[v]? with
  | none =>
    rw [hs] at h
    exact absurd h (Nat.not_lt_zero _)
  | some s =>
    rw [hs] at h hlt
    cases s with
    | row =>
      have hmem : v ∈ layout.rowOffsetVar := mem_varsWhere.mpr ⟨_, hs, rfl⟩
      have hslot : layout.rowOffsetVar.idxOf v < layout.numRowVars :=
        List.idxOf_lt_length_of_mem hmem
      have hrows : (inst + 1) * layout.numRowVars ≤ layout.numRows * layout.numRowVars :=
        Nat.mul_le_mul_right _ h
      show (if inst * layout.numRowVars + layout.rowOffsetVar.idxOf v < layout.entityBlockStart
        then _ else _) = some v
      have hblock : inst * layout.numRowVars + layout.rowOffsetVar.idxOf v <
          layout.entityBlockStart := by
        unfold entityBlockStart
        rw [Nat.succ_mul] at hrows
        omega
      have hmod : (inst * layout.numRowVars + layout.rowOffsetVar.idxOf v) % layout.numRowVars =
          layout.rowOffsetVar.idxOf v := by
        rw [Nat.mul_comm, Nat.mul_add_mod, Nat.mod_eq_of_lt hslot]
      rw [if_pos hblock, if_neg (by omega), hmod,
        List.getElem?_eq_getElem (List.idxOf_lt_length_of_mem hmem), List.getElem_idxOf]
    | entity mapping =>
      have h : inst < mapping.numEntities := h
      obtain ⟨hstart, hend⟩ := entityVarBase_le hs
      show (if layout.entityVarBase v + inst < layout.entityBlockStart then _ else
        if layout.entityVarBase v + inst < layout.scalarBlockStart then _ else _) = some v
      rw [if_neg (by omega), if_pos (by omega)]
      have hmem : v ∈ layout.entityBlockVar := mem_varsWhere.mpr ⟨_, hs, rfl⟩
      obtain ⟨b, hb⟩ := @exists_entityBases layout _ layout.entityBlockStart v hmem
      have hsize : layout.entitiesOf v = mapping.numEntities := by
        simp [entitiesOf, hs, VariableScope.numEntities]
      have hbase := entityVarBase_eq hb
      obtain ⟨u, c, hu, hc, hcol, howner⟩ :=
        @lastOwner_spec layout (layout.entityVarBase v + inst) layout.entityBlockVar
          layout.entityBlockStart none (by omega) (by unfold scalarBlockStart at hend; omega)
      rw [howner, entityBases_disjoint hb hu (by omega) (by omega) hc hcol]
    | scalar =>
      have hmem : v ∈ layout.scalarSlotVar := mem_varsWhere.mpr ⟨_, hs, rfl⟩
      show (if layout.scalarBlockStart + layout.scalarSlotVar.idxOf v < layout.entityBlockStart
        then _ else if layout.scalarBlockStart + layout.scalarSlotVar.idxOf v <
          layout.scalarBlockStart then _ else _) = some v
      rw [if_neg (by omega), if_neg (by omega), Nat.add_sub_cancel_left,
        List.getElem?_eq_getElem (List.idxOf_lt_length_of_mem hmem), List.getElem_idxOf]

/-- The instance of a variable a row reads. -/
def rowInstance (layout : ColumnLayout) (v row : Nat) : Nat :=
  match layout.variableScopes[v]? with
  | some .row => row
  | some (.entity mapping) => mapping.rowToEntity row
  | _ => 0

/-- **The column of a row is the column of the instance it reads.** -/
theorem get_eq_instanceColumn {v row : Nat} (hv : v < layout.numVars) (hrow : row < layout.numRows) :
    layout.rowInstance v row < layout.numInstances v ∧
      layout.get v row = layout.instanceColumn v (layout.rowInstance v row) := by
  unfold rowInstance numInstances get instanceColumn
  have hs := List.getElem?_eq_getElem (l := layout.variableScopes) hv
  cases hscope : layout.variableScopes[v] with
  | row =>
    rw [hscope] at hs
    rw [hs]
    exact ⟨hrow, rfl⟩
  | entity mapping =>
    rw [hscope] at hs
    rw [hs]
    exact ⟨layout.entity_lt mapping (List.mem_of_getElem? hs) row hrow, rfl⟩
  | scalar =>
    rw [hscope] at hs
    rw [hs]
    exact ⟨Nat.one_pos, rfl⟩

/-! ## The indexer -/

/-- The place of a variable's columns. -/
def decideVarScope (layout : ColumnLayout) (v : Nat) : DecideVarScope :=
  match layout.variableScopes[v]? with
  | some .row => .row (layout.rowOffsetVar.idxOf v)
  | some (.entity mapping) => .entity (layout.entityVarBase v) mapping.rowToEntity
  | some .scalar => .scalar (layout.scalarBlockStart + layout.scalarSlotVar.idxOf v)
  | none => .row 0

theorem decideVarScope_column {v : Nat} (hv : v < layout.numVars) (row : Nat) :
    (layout.decideVarScope v).column layout.numRowVars row = layout.get v row := by
  unfold decideVarScope get
  have hs := List.getElem?_eq_getElem (l := layout.variableScopes) hv
  rw [hs]
  cases layout.variableScopes[v] <;> rfl

/-- `VarIndexer::Build`: a variable past the declared ones reads as the last of them. -/
def indexer (layout : ColumnLayout) (hvars : 0 < layout.numVars) : VarIndexer where
  numRows := layout.numRows
  numRowVars := layout.numRowVars
  globalBlockStart := layout.globalBlockStart
  varScope := fun v => layout.decideVarScope (min v (layout.numVars - 1))
  column_lt := by
    intro v row hrow
    have hv : min v (layout.numVars - 1) < layout.numVars := by omega
    rw [decideVarScope_column hv]
    obtain ⟨hinst, heq⟩ := get_eq_instanceColumn hv hrow
    rw [heq]
    exact instanceColumn_lt hinst

/-- The indexer finds a declared variable where the layout puts it. -/
theorem indexer_get (hvars : 0 < layout.numVars) {v : Nat} (hv : v < layout.numVars) (row : Nat) :
    (layout.indexer hvars).get v row = layout.get v row := by
  show (layout.decideVarScope (min v (layout.numVars - 1))).column layout.numRowVars row = _
  rw [min_eq_left (by omega)]
  exact decideVarScope_column hv row

end ColumnLayout

end Decidb
