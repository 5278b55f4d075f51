import Decidb.Diagnostics.ColumnProvenance
import Decidb.Formulation.Proofs.ColumnLayoutProofs

/-!
# Instances and columns are the same thing

The decision columns are the instances of the variables, each exactly once; `OwnerOf`, `Get` and
`BuildColumnProvenance` agree with that.
-/

namespace Decidb

namespace ColumnLayout

variable {layout : ColumnLayout}

/-- Every entity occurs on a row. -/
def EntitiesOccur (layout : ColumnLayout) : Prop :=
  ∀ mapping, .entity mapping ∈ layout.variableScopes → ∀ e, e < mapping.numEntities →
    ∃ row, row < layout.numRows ∧ mapping.rowToEntity row = e

/-- The instances of the variables are the decision columns, each once. -/
structure IsBijection (layout : ColumnLayout) : Prop where
  column_lt : ∀ v i, i < layout.numInstances v → layout.instanceColumn v i < layout.globalBlockStart
  injective : ∀ v w i j, i < layout.numInstances v → j < layout.numInstances w →
    layout.instanceColumn v i = layout.instanceColumn w j → v = w ∧ i = j
  surjective : ∀ col, col < layout.globalBlockStart →
    ∃ v i, v < layout.numVars ∧ i < layout.numInstances v ∧ layout.instanceColumn v i = col
  ownerOf_iff : ∀ col v, layout.ownerOf col = some v ↔
    ∃ i, i < layout.numInstances v ∧ layout.instanceColumn v i = col
  ownerOf_global : ∀ col, layout.globalBlockStart ≤ col → layout.ownerOf col = none
  get_eq : ∀ v row, v < layout.numVars → row < layout.numRows →
    layout.rowInstance v row < layout.numInstances v ∧
      layout.get v row = layout.instanceColumn v (layout.rowInstance v row)

theorem lt_numVars_of_instance {v i : Nat} (h : i < layout.numInstances v) : v < layout.numVars := by
  by_contra hv
  have hnone : layout.variableScopes[v]? = none := List.getElem?_eq_none (not_lt.mp hv)
  rw [numInstances, hnone] at h
  exact Nat.not_lt_zero _ h

/-- Two instances of one variable have columns of their own. -/
theorem instanceColumn_inj {v i j : Nat} (hi : i < layout.numInstances v) (hj : j < layout.numInstances v)
    (h : layout.instanceColumn v i = layout.instanceColumn v j) : i = j := by
  unfold numInstances at hi hj
  unfold instanceColumn at h
  cases hs : layout.variableScopes[v]? with
  | none =>
    rw [hs] at hi
    exact absurd hi (Nat.not_lt_zero _)
  | some s =>
    rw [hs] at hi hj h
    cases s with
    | row =>
      have hpos : 0 < layout.numRowVars :=
        List.length_pos_of_mem (mem_varsWhere.mpr ⟨_, hs, rfl⟩ : v ∈ layout.rowOffsetVar)
      have h : i * layout.numRowVars + layout.rowOffsetVar.idxOf v =
          j * layout.numRowVars + layout.rowOffsetVar.idxOf v := h
      exact Nat.eq_of_mul_eq_mul_right hpos (Nat.add_right_cancel h)
    | entity mapping => exact Nat.add_left_cancel h
    | scalar =>
      have hi : i < 1 := hi
      have hj : j < 1 := hj
      omega

/-- **The layout is a bijection between instances and decision columns.** -/
theorem isBijection (layout : ColumnLayout) : layout.IsBijection where
  column_lt v i h := instanceColumn_lt h
  injective v w i j hi hj h := by
    have hv := ownerOf_instanceColumn hi
    rw [h, ownerOf_instanceColumn hj] at hv
    obtain rfl := Option.some.inj hv
    exact ⟨rfl, instanceColumn_inj hi hj h⟩
  surjective col h := by
    obtain ⟨v, i, -, hi, hcol⟩ := ownerOf_spec h
    exact ⟨v, i, lt_numVars_of_instance hi, hi, hcol⟩
  ownerOf_iff col v := by
    constructor
    · intro howner
      have hcol : col < layout.globalBlockStart := by
        by_contra hge
        rw [ownerOf, if_pos (not_lt.mp hge)] at howner
        cases howner
      obtain ⟨w, i, hw, hi, heq⟩ := ownerOf_spec hcol
      obtain rfl : w = v := Option.some.inj (hw.symm.trans howner)
      exact ⟨i, hi, heq⟩
    · rintro ⟨i, hi, rfl⟩
      exact ownerOf_instanceColumn hi
  ownerOf_global col h := if_pos h
  get_eq v row hv hrow := get_eq_instanceColumn hv hrow

/-- Every instance is read on some row. -/
theorem exists_rowInstance (hoccur : layout.EntitiesOccur) (hrows : 0 < layout.numRows) {v i : Nat}
    (h : i < layout.numInstances v) : ∃ row, row < layout.numRows ∧ layout.rowInstance v row = i := by
  unfold numInstances at h
  unfold rowInstance
  cases hs : layout.variableScopes[v]? with
  | none =>
    rw [hs] at h
    exact absurd h (Nat.not_lt_zero _)
  | some s =>
    rw [hs] at h
    cases s with
    | row => exact ⟨i, h, rfl⟩
    | entity mapping => exact hoccur mapping (List.mem_of_getElem? hs) i h
    | scalar =>
      have h : i < 1 := h
      exact ⟨0, hrows, by show 0 = i; omega⟩

end ColumnLayout

open ColumnLayout

/-! ## The provenance of a column -/

/-- The instance a column is recorded under is the one the row reads. -/
theorem provenanceInstance_eq {layout : ColumnLayout} {var : Nat} (hvar : var < layout.numVars)
    (row : Nat) : provenanceInstance layout var row = layout.rowInstance var row := by
  unfold provenanceInstance rowInstance ColumnLayout.get
  have hs := List.getElem?_eq_getElem (l := layout.variableScopes) hvar
  cases hscope : layout.variableScopes[var] with
  | row =>
    rw [hscope] at hs
    rw [hs]
  | entity mapping =>
    rw [hscope] at hs
    rw [hs]
    exact Nat.add_sub_cancel_left _ _
  | scalar =>
    rw [hscope] at hs
    rw [hs]

/-- A slot every write gives the same value holds that value once it is written. -/
theorem getElem?_foldl_set {α β : Type*} (key : α → Nat) (val : α → β) {c : Nat} {x : β} (l : List α) :
    ∀ {slots : List β}, (∀ a ∈ l, key a = c → val a = x) → c < slots.length →
      (l.foldl (fun slots a => slots.set (key a) (val a)) slots)[c]? =
        if ∃ a ∈ l, key a = c then some x else slots[c]? := by
  induction l with
  | nil =>
    intro slots _ _
    rw [if_neg (by simp)]
    rfl
  | cons a l ih =>
    intro slots hval hc
    have hval' : ∀ b ∈ l, key b = c → val b = x := fun b hb => hval b (List.mem_cons_of_mem _ hb)
    rw [List.foldl_cons, ih hval' (by rw [List.length_set]; exact hc), List.getElem?_set]
    by_cases hl : ∃ b ∈ l, key b = c
    · obtain ⟨b, hb, hkey⟩ := hl
      rw [if_pos ⟨b, hb, hkey⟩, if_pos ⟨b, List.mem_cons_of_mem _ hb, hkey⟩]
    · rw [if_neg hl]
      by_cases ha : key a = c
      · rw [if_pos ha, if_pos (ha ▸ hc), if_pos ⟨a, List.mem_cons_self, ha⟩, hval a List.mem_cons_self ha]
      · have hnone : ¬ ∃ b ∈ a :: l, key b = c := by
          rintro ⟨b, hb, hkey⟩
          rcases List.mem_cons.mp hb with rfl | hb
          · exact ha hkey
          · exact hl ⟨b, hb, hkey⟩
        rw [if_neg ha, if_neg hnone]

theorem length_foldl_set {α β : Type*} (key : α → Nat) (val : α → β) (l : List α) (slots : List β) :
    (l.foldl (fun slots a => slots.set (key a) (val a)) slots).length = slots.length := by
  induction l generalizing slots with
  | nil => rfl
  | cons a l ih => rw [List.foldl_cons, ih, List.length_set]

/-- Labels of globals change no variable and no instance. -/
theorem foldl_labelGlobal (layout : ColumnLayout) (labels : List (String × Nat)) (c : Nat) :
    ∀ slots : List ColumnProvenance,
      (labels.foldl (labelGlobal layout) slots)[c]?.map (fun p => (p.decideVarIdx, p.inst)) =
        slots[c]?.map fun p => (p.decideVarIdx, p.inst) := by
  induction labels with
  | nil =>
    intro slots
    rfl
  | cons q labels ih =>
    intro slots
    rw [List.foldl_cons, ih]
    unfold labelGlobal
    by_cases hempty : q.1 = ""
    · rw [if_pos hempty]
    · rw [if_neg hempty, List.getElem?_modify]
      cases slots[c]? with
      | none => rfl
      | some p =>
        by_cases hc : layout.globalBlockStart + q.2 = c <;> simp [hc]

theorem mem_provenanceVisits {layout : ColumnLayout} {varLabels : List String} {q : Nat × Nat} :
    q ∈ provenanceVisits layout varLabels ↔ q.1 < varLabels.length ∧ q.2 < layout.numRows := by
  unfold provenanceVisits
  constructor
  · intro h
    obtain ⟨var, hvar, hq⟩ := List.mem_flatMap.mp h
    obtain ⟨row, hrow, rfl⟩ := List.mem_map.mp hq
    exact ⟨List.mem_range.mp hvar, List.mem_range.mp hrow⟩
  · rintro ⟨hvar, hrow⟩
    exact List.mem_flatMap.mpr ⟨q.1, List.mem_range.mpr hvar,
      List.mem_map.mpr ⟨q.2, List.mem_range.mpr hrow, rfl⟩⟩

/-- Every slot of the reverse map, by column. -/
structure ProvenanceExact (layout : ColumnLayout) (slots : List ColumnProvenance) : Prop where
  decisions : ∀ v i, i < layout.numInstances v →
    ∃ p, slots[layout.instanceColumn v i]? = some p ∧ p.decideVarIdx = some v ∧ p.inst = some i
  globals : ∀ col p, layout.globalBlockStart ≤ col → slots[col]? = some p →
    p.decideVarIdx = none ∧ p.inst = none

/-- What the column of an instance is written with. -/
def instanceSlot (varLabels : List String) (varIsAux : List Bool) (v i : Nat) : ColumnProvenance where
  kind := if varIsAux.getD v false then .aux else .user
  label := varLabels.getD v ""
  decideVarIdx := some v
  inst := some i

/-- Before the globals are named, the column of an instance holds what was written for it. -/
theorem getElem?_foldl_provenanceSlot {layout : ColumnLayout} (hoccur : layout.EntitiesOccur)
    (hrows : 0 < layout.numRows) {varLabels : List String} (hlabels : varLabels.length = layout.numVars)
    (varIsAux : List Bool) {v i : Nat} (hi : i < layout.numInstances v) {start : List ColumnProvenance}
    (hstart : layout.globalBlockStart ≤ start.length) :
    ((provenanceVisits layout varLabels).foldl (fun slots q =>
      slots.set (layout.get q.1 q.2) (provenanceSlot layout varLabels varIsAux q.1 q.2))
        start)[layout.instanceColumn v i]? = some (instanceSlot varLabels varIsAux v i) := by
  have hbij := layout.isBijection
  have hcol := hbij.column_lt v i hi
  -- every write at the column of an instance is a write for that instance
  have hsame : ∀ q ∈ provenanceVisits layout varLabels,
      layout.get q.1 q.2 = layout.instanceColumn v i →
      (fun q => provenanceSlot layout varLabels varIsAux q.1 q.2) q = instanceSlot varLabels varIsAux v i := by
    intro q hq hget
    obtain ⟨hvar, hrow⟩ := mem_provenanceVisits.mp hq
    rw [hlabels] at hvar
    obtain ⟨hinst, heq⟩ := hbij.get_eq q.1 q.2 hvar hrow
    obtain ⟨hv, hi'⟩ := hbij.injective q.1 v _ i hinst hi (heq.symm.trans hget)
    show provenanceSlot layout varLabels varIsAux q.1 q.2 = _
    unfold provenanceSlot instanceSlot
    rw [provenanceInstance_eq hvar q.2, hi', hv]
  obtain ⟨row, hrow, hinst⟩ := exists_rowInstance hoccur hrows hi
  have hv : v < layout.numVars := lt_numVars_of_instance hi
  have hvisit : ∃ q ∈ provenanceVisits layout varLabels,
      layout.get q.1 q.2 = layout.instanceColumn v i :=
    ⟨(v, row), mem_provenanceVisits.mpr ⟨hlabels ▸ hv, hrow⟩,
      by rw [(hbij.get_eq v row hv hrow).2, hinst]⟩
  have hwritten := getElem?_foldl_set (fun q : Nat × Nat => layout.get q.1 q.2) _
    (provenanceVisits layout varLabels) hsame (show layout.instanceColumn v i < start.length by omega)
  rwa [if_pos hvisit] at hwritten

/-- Without named globals that is what the column says. -/
theorem getElem?_buildColumnProvenance {layout : ColumnLayout} (hoccur : layout.EntitiesOccur)
    (hrows : 0 < layout.numRows) (numGlobalVars : Nat) {varLabels : List String}
    (hlabels : varLabels.length = layout.numVars) (varIsAux : List Bool) {v i : Nat}
    (hi : i < layout.numInstances v) :
    (buildColumnProvenance layout numGlobalVars varLabels varIsAux [])[layout.instanceColumn v i]? =
      some (instanceSlot varLabels varIsAux v i) :=
  getElem?_foldl_provenanceSlot hoccur hrows hlabels varIsAux hi (by rw [List.length_replicate]; omega)

theorem buildColumnProvenance_exact {layout : ColumnLayout} (hoccur : layout.EntitiesOccur)
    (hrows : 0 < layout.numRows) (numGlobalVars : Nat) {varLabels : List String}
    (hlabels : varLabels.length = layout.numVars) (varIsAux : List Bool) (globalVarLabels : List String) :
    ProvenanceExact layout
      (buildColumnProvenance layout numGlobalVars varLabels varIsAux globalVarLabels) := by
  have hbij := layout.isBijection
  set start := List.replicate (layout.globalBlockStart + numGlobalVars) ({} : ColumnProvenance) with hstart
  have hlen : start.length = layout.globalBlockStart + numGlobalVars := List.length_replicate
  constructor
  · intro v i hi
    have hwritten := getElem?_foldl_provenanceSlot hoccur hrows hlabels varIsAux hi
      (show layout.globalBlockStart ≤ start.length by omega)
    have hlabelled := foldl_labelGlobal layout globalVarLabels.zipIdx (layout.instanceColumn v i)
      ((provenanceVisits layout varLabels).foldl (fun slots q =>
        slots.set (layout.get q.1 q.2) (provenanceSlot layout varLabels varIsAux q.1 q.2)) start)
    rw [hwritten] at hlabelled
    obtain ⟨p, hp, hpair⟩ := Option.map_eq_some_iff.mp hlabelled
    exact ⟨p, hp, (Prod.mk.inj hpair).1, (Prod.mk.inj hpair).2⟩
  · intro col p hcol hp
    have hnone : ¬ ∃ q ∈ provenanceVisits layout varLabels, layout.get q.1 q.2 = col := by
      rintro ⟨q, hq, hget⟩
      obtain ⟨hvar, hrow⟩ := mem_provenanceVisits.mp hq
      rw [hlabels] at hvar
      obtain ⟨hinst, heq⟩ := hbij.get_eq q.1 q.2 hvar hrow
      have hlt := hbij.column_lt q.1 _ hinst
      omega
    have hlabelled := foldl_labelGlobal layout globalVarLabels.zipIdx col
      ((provenanceVisits layout varLabels).foldl (fun slots q =>
        slots.set (layout.get q.1 q.2) (provenanceSlot layout varLabels varIsAux q.1 q.2)) start)
    have hp' : (globalVarLabels.zipIdx.foldl (labelGlobal layout)
        ((provenanceVisits layout varLabels).foldl (fun slots q =>
          slots.set (layout.get q.1 q.2) (provenanceSlot layout varLabels varIsAux q.1 q.2))
          start))[col]? = some p := hp
    by_cases hlt : col < start.length
    · have hkept := getElem?_foldl_set (x := ({} : ColumnProvenance))
        (fun q : Nat × Nat => layout.get q.1 q.2)
        (fun q : Nat × Nat => provenanceSlot layout varLabels varIsAux q.1 q.2)
        (provenanceVisits layout varLabels) (fun q hq hget => absurd ⟨q, hq, hget⟩ hnone) hlt
      rw [if_neg hnone] at hkept
      rw [hp', hkept, hstart, List.getElem?_replicate_of_lt (by rw [← hlen]; exact hlt)] at hlabelled
      have hpair := Option.some.inj hlabelled
      exact ⟨(Prod.mk.inj hpair).1, (Prod.mk.inj hpair).2⟩
    · have hnil : ((provenanceVisits layout varLabels).foldl (fun slots q =>
          slots.set (layout.get q.1 q.2) (provenanceSlot layout varLabels varIsAux q.1 q.2))
          start)[col]? = none := by
        refine List.getElem?_eq_none ?_
        rw [length_foldl_set (fun q : Nat × Nat => layout.get q.1 q.2)]
        omega
      rw [hp', hnil] at hlabelled
      cases hlabelled

/-- **Instances and decision columns are in bijection**, and `OwnerOf`, `Get` and the reverse map all go by
it. -/
theorem varIndexer_bijection (layout : ColumnLayout) (hoccur : layout.EntitiesOccur) (numGlobalVars : Nat)
    {varLabels : List String} (hlabels : varLabels.length = layout.numVars) (varIsAux : List Bool)
    (globalVarLabels : List String) :
    layout.IsBijection ∧ (0 < layout.numRows → ProvenanceExact layout
      (buildColumnProvenance layout numGlobalVars varLabels varIsAux globalVarLabels)) :=
  ⟨layout.isBijection, fun hrows =>
    buildColumnProvenance_exact hoccur hrows numGlobalVars hlabels varIsAux globalVarLabels⟩

/-- Two rows that join one tuple with itself, and a variable of each scope. -/
def selfJoinLayout : ColumnLayout where
  numRows := 2
  variableScopes := [.entity ⟨1, fun _ => 0⟩, .row, .scalar]
  entity_lt := by
    intro mapping h row _
    obtain rfl : mapping = ⟨1, fun _ => 0⟩ := by simpa using h
    exact Nat.one_pos

theorem varIndexer_bijection_selfJoin :
    selfJoinLayout.IsBijection ∧ (0 < selfJoinLayout.numRows → ProvenanceExact selfJoinLayout
      (buildColumnProvenance selfJoinLayout 1 ["keep", "x", "t"] [] ["SUM(x) <> 0"])) := by
  refine varIndexer_bijection selfJoinLayout ?_ 1 rfl [] _
  intro mapping h e he
  obtain rfl : mapping = ⟨1, fun _ => 0⟩ := by simpa [selfJoinLayout] using h
  have he : e < 1 := he
  exact ⟨0, by decide, by show 0 = e; omega⟩

end Decidb
