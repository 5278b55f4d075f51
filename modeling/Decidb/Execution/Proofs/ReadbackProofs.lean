import Decidb.Diagnostics.Proofs.DisplayProofs
import Decidb.Execution.Readback
import Decidb.Relational.ExceptLists

/-!
# When a solution is read back

Every declared variable is cast, an auxiliary like a user's own: the query is read back exactly where no
auxiliary that was declared an integer leaves the 32 bits, and what is read is then the solution.
-/

namespace Decidb

open Linear Relational

variable {K : Type*} [Field K] [LinearOrder K] [IsStrictOrderedRing K] [FloorRing K]

/-! ## Rounded values in a range -/

theorem le_stdRound_iff {lo : ℤ} (hlo : lo ≤ 0) (v : K) : lo ≤ stdRound v ↔ (lo : K) - 1 / 2 < v := by
  have hcast : (lo : K) ≤ 0 := by exact_mod_cast hlo
  unfold stdRound
  split
  · rename_i hv
    rw [Int.le_floor]
    constructor <;> intro _ <;> linarith
  · rw [Int.le_ceil_iff]
    constructor <;> intro h <;> linarith

theorem stdRound_le_iff {hi : ℤ} (hhi : 0 ≤ hi) (v : K) : stdRound v ≤ hi ↔ v < (hi : K) + 1 / 2 := by
  have hcast : (0 : K) ≤ hi := by exact_mod_cast hhi
  unfold stdRound
  split
  · rw [← Int.lt_add_one_iff, Int.floor_lt]
    push_cast
    constructor <;> intro h <;> linarith
  · rename_i hv
    rw [Int.ceil_le]
    constructor <;> intro _ <;> linarith

theorem integerRange_nonpos (type : LogicalType) : (integerRange type).1 ≤ 0 ∧ 0 ≤ (integerRange type).2 := by
  unfold integerRange
  split <;> decide

/-- A value that is one of the type once rounded. -/
def InIntegerRange (type : LogicalType) (v : K) : Prop :=
  (integerRange type).1 ≤ stdRound v ∧ stdRound v ≤ (integerRange type).2

theorem inIntegerRange_iff (type : LogicalType) (v : K) : InIntegerRange type v ↔
    ((integerRange type).1 : K) - 1 / 2 < v ∧ v < ((integerRange type).2 : K) + 1 / 2 :=
  and_congr (le_stdRound_iff (integerRange_nonpos type).1 v) (stdRound_le_iff (integerRange_nonpos type).2 v)

/-! ## One value -/

/-- Whether a value is checked against a range. -/
def DeclaredVariable.IsChecked (decideVar : DeclaredVariable) : Prop :=
  decideVar.returnType = .integer ∨ decideVar.returnType = .bigint

omit [IsStrictOrderedRing K] in
theorem decideSolutionToInteger_ok_iff (v : K) (varType : LogicalType) (varName : String) :
    (∃ n, decideSolutionToInteger v varType varName = .ok n) ↔ InIntegerRange varType v := by
  unfold decideSolutionToInteger InIntegerRange
  dsimp only
  split
  · rename_i h
    exact iff_of_true ⟨_, rfl⟩ h
  · rename_i h
    refine iff_of_false ?_ h
    rintro ⟨n, hn⟩
    cases hn

omit [IsStrictOrderedRing K] in
/-- A checked value is refused outside the range of its type, and nothing else is. -/
theorem outputValue_ok_iff (decideVar : DeclaredVariable) (v : K) :
    (∃ cell, outputValue decideVar v = .ok cell) ↔
      (decideVar.IsChecked → InIntegerRange decideVar.returnType v) := by
  have hchecked : (∃ cell, (decideSolutionToInteger v decideVar.returnType decideVar.name).map
      OutputValue.integer = .ok (cell : OutputValue K)) ↔ InIntegerRange decideVar.returnType v := by
    rw [← decideSolutionToInteger_ok_iff v decideVar.returnType decideVar.name]
    cases decideSolutionToInteger v decideVar.returnType decideVar.name with
    | ok n => exact iff_of_true ⟨_, rfl⟩ ⟨n, rfl⟩
    | error e =>
      refine iff_of_false ?_ ?_
      · rintro ⟨cell, hcell⟩
        cases hcell
      · rintro ⟨n, hn⟩
        cases hn
  unfold outputValue DeclaredVariable.IsChecked
  cases htype : decideVar.returnType with
  | integer | bigint =>
    rw [htype] at hchecked
    exact hchecked.trans ⟨fun h _ => h, fun h => h (by simp)⟩
  | boolean | hugeint | decimal | float | double => exact iff_of_true ⟨_, rfl⟩ (by simp)

/-- A user's variable is given the value of the solution, to the nearest integer if it is one. -/
theorem returns_of_outputValue {marker : TypeMarker} {name : String} {v : K} {cell : OutputValue K}
    (h : outputValue (marker.declare name) v = .ok cell) : cell.Returns marker v := by
  have hinteger : ∀ {type : LogicalType}, (decideSolutionToInteger v type name).map OutputValue.integer = .ok cell →
      marker ≠ .realVariable → cell.Returns marker v := by
    intro type hcast hmarker
    unfold decideSolutionToInteger at hcast
    dsimp only at hcast
    split at hcast
    · cases hcast
      refine ⟨hmarker, ?_⟩
      rw [abs_sub_comm]
      exact abs_stdRound_sub_le v
    · cases hcast
  cases marker with
  | boolVariable => exact hinteger h (by decide)
  | intVariable => exact hinteger h (by decide)
  | realVariable =>
    cases h
    exact ⟨rfl, rfl⟩

/-! ## Chunk by chunk -/

section

variable {α : Type*}

/-- The cast of a variable at a row. -/
def castAt (gstate : DecideSinkState K) (p : DeclaredVariable × Nat) (row : Nat) :
    Except ReadbackError (OutputValue K) :=
  outputValue p.1 (gstate.ilpSolution.getD (gstate.varIndexer.get p.2 row) 0)

/-- No cast fails at a row. -/
def RowFits (gstate : DecideSinkState K) (row : Nat) : Prop :=
  ∀ p ∈ gstate.decideVariables.zipIdx, ∃ cell, castAt gstate p row = .ok cell

omit [IsStrictOrderedRing K] in
theorem fillColumn_ok_iff (gstate : DecideSinkState K) (rowOffset chunkSize : Nat) (p : DeclaredVariable × Nat) :
    (∃ column, fillColumn gstate rowOffset chunkSize p = .ok column) ↔
      ∀ r, r < chunkSize → ∃ cell, castAt gstate p (rowOffset + r) = .ok cell := by
  unfold fillColumn
  rw [exists_mapM_ok_iff]
  simp only [List.mem_range, castAt]

omit [IsStrictOrderedRing K] in
/-- A filled column has the casts of its rows. -/
theorem fillColumn_spec {gstate : DecideSinkState K} {rowOffset chunkSize : Nat} {p : DeclaredVariable × Nat}
    {column : List (OutputValue K)} (h : fillColumn gstate rowOffset chunkSize p = .ok column) :
    column.length = chunkSize ∧ ∀ r, r < chunkSize →
      ∃ cell, column[r]? = some cell ∧ castAt gstate p (rowOffset + r) = .ok cell := by
  refine ⟨(length_of_mapM h).trans List.length_range, fun r hr => ?_⟩
  exact mapM_getElem? h (List.getElem?_range hr)

/-- What a call makes of a chunk. -/
structure ReadsChunk (gstate : DecideSinkState K) (rowOffset : Nat) (scanChunk : List α)
    (chunk : OutputChunk K α) : Prop where
  input_eq : chunk.input = scanChunk
  column : ∀ (v : Nat) (decideVar : DeclaredVariable), gstate.decideVariables[v]? = some decideVar →
    (chunk.decideColumns.getD v []).length = scanChunk.length ∧
      ∀ r, r < scanChunk.length → ∃ cell, (chunk.decideColumns.getD v [])[r]? = some cell ∧
        castAt gstate (decideVar, v) (rowOffset + r) = .ok cell

omit [IsStrictOrderedRing K] in
/-- A call fails where a row of its chunk does not fit, and moves on behind the chunk else. -/
theorem getData_cons {gstate : DecideSinkState K} (hsolved : gstate.diagnosisOnly = false)
    {scanChunk : List α} (hne : scanChunk ≠ []) (unscanned : List (List α)) (rowOffset : Nat) :
    (∃ chunk, getData gstate ⟨scanChunk :: unscanned, rowOffset⟩ =
        .ok (some (chunk, ⟨unscanned, rowOffset + scanChunk.length⟩)) ∧
      ReadsChunk gstate rowOffset scanChunk chunk ∧
      ∀ r, r < scanChunk.length → RowFits gstate (rowOffset + r)) ∨
    (∃ e, getData gstate ⟨scanChunk :: unscanned, rowOffset⟩ = .error e ∧
      ¬ ∀ r, r < scanChunk.length → RowFits gstate (rowOffset + r)) := by
  have hempty : scanChunk.isEmpty = false := by simpa using hne
  have hfits : (∃ columns, gstate.decideVariables.zipIdx.mapM
      (fillColumn gstate rowOffset scanChunk.length) = .ok columns) ↔
        ∀ r, r < scanChunk.length → RowFits gstate (rowOffset + r) := by
    rw [exists_mapM_ok_iff]
    simp only [fillColumn_ok_iff, RowFits]
    exact ⟨fun h r hr p hp => h p hp r hr, fun h p hp r hr => h r hr p hp⟩
  unfold getData
  rw [hsolved, if_neg Bool.false_ne_true]
  dsimp only
  rw [hempty, if_neg Bool.false_ne_true]
  cases hcolumns : gstate.decideVariables.zipIdx.mapM (fillColumn gstate rowOffset scanChunk.length) with
  | error e =>
    refine .inr ⟨e, rfl, fun hall => ?_⟩
    obtain ⟨columns, hok⟩ := hfits.mpr hall
    rw [hcolumns] at hok
    cases hok
  | ok columns =>
    refine .inl ⟨_, rfl, ⟨rfl, ?_⟩, hfits.mp ⟨columns, hcolumns⟩⟩
    intro v decideVar hvar
    have hpair : gstate.decideVariables.zipIdx[v]? = some (decideVar, v) := by
      rw [List.getElem?_zipIdx, hvar, Option.map_some, Nat.zero_add]
    obtain ⟨column, hget, hfill⟩ := mapM_getElem? hcolumns hpair
    dsimp only
    rw [List.getD_eq_getElem?_getD, hget]
    exact fillColumn_spec hfill

/-- What all calls together make of the chunks that are left. -/
structure ReadsChunks (gstate : DecideSinkState K) (rowOffset : Nat) (unscanned : List (List α))
    (chunks : List (OutputChunk K α)) : Prop where
  input_eq : chunks.flatMap (·.input) = unscanned.flatten
  column : ∀ (v : Nat) (decideVar : DeclaredVariable), gstate.decideVariables[v]? = some decideVar →
    ∀ r, r < unscanned.flatten.length →
      ∃ cell, (chunks.flatMap fun chunk => chunk.decideColumns.getD v [])[r]? = some cell ∧
        castAt gstate (decideVar, v) (rowOffset + r) = .ok cell

omit [IsStrictOrderedRing K] in
/-- The chunk of a call goes before those of the calls after it. -/
theorem ReadsChunks.cons {gstate : DecideSinkState K} {rowOffset : Nat} {scanChunk : List α}
    {unscanned : List (List α)} {chunk : OutputChunk K α} {chunks : List (OutputChunk K α)}
    (hchunk : ReadsChunk gstate rowOffset scanChunk chunk)
    (hrest : ReadsChunks gstate (rowOffset + scanChunk.length) unscanned chunks) :
    ReadsChunks gstate rowOffset (scanChunk :: unscanned) (chunk :: chunks) where
  input_eq := by rw [List.flatMap_cons, hchunk.input_eq, hrest.input_eq, List.flatten_cons]
  column := by
    intro v decideVar hvar r hr
    rw [List.flatten_cons, List.length_append] at hr
    obtain ⟨hlength, hcell⟩ := hchunk.column v decideVar hvar
    rw [List.flatMap_cons]
    by_cases hfirst : r < scanChunk.length
    · obtain ⟨cell, hget, hcast⟩ := hcell r hfirst
      exact ⟨cell, by rw [List.getElem?_append_left (by omega), hget], hcast⟩
    · obtain ⟨cell, hget, hcast⟩ := hrest.column v decideVar hvar (r - scanChunk.length) (by omega)
      refine ⟨cell, ?_, ?_⟩
      · rw [List.getElem?_append_right (by omega), hlength, hget]
      · rwa [Nat.add_assoc, Nat.add_sub_cancel' (by omega)] at hcast

omit [IsStrictOrderedRing K] in
/-- **The calls reach the end where every row fits**, and then every value is the cast of its own. -/
theorem readAll_spec (gstate : DecideSinkState K) (hsolved : gstate.diagnosisOnly = false)
    {unscanned : List (List α)} (hne : ∀ chunk ∈ unscanned, chunk ≠ []) {calls : Nat}
    (hcalls : unscanned.length < calls) (rowOffset : Nat) :
    ((∃ chunks, readAll gstate calls ⟨unscanned, rowOffset⟩ = .ok (some chunks)) ↔
      ∀ r, r < unscanned.flatten.length → RowFits gstate (rowOffset + r)) ∧
    ∀ chunks, readAll gstate calls ⟨unscanned, rowOffset⟩ = .ok (some chunks) →
      ReadsChunks gstate rowOffset unscanned chunks := by
  induction unscanned generalizing calls rowOffset with
  | nil =>
    obtain ⟨calls, rfl⟩ := Nat.exists_eq_succ_of_ne_zero (Nat.ne_of_gt hcalls)
    have hread : readAll gstate (calls + 1) ⟨([] : List (List α)), rowOffset⟩ = .ok (some []) := by
      unfold readAll getData
      rw [hsolved]
      rfl
    rw [Nat.succ_eq_add_one, hread]
    refine ⟨iff_of_true ⟨[], rfl⟩ fun r hr => absurd hr (Nat.not_lt_zero r), ?_⟩
    intro chunks h
    cases h
    exact ⟨rfl, fun _ _ _ r hr => absurd hr (Nat.not_lt_zero r)⟩
  | cons scanChunk unscanned ih =>
    obtain ⟨calls, rfl⟩ := Nat.exists_eq_succ_of_ne_zero (Nat.ne_of_gt (Nat.zero_lt_of_lt hcalls))
    obtain ⟨hiff, hspec⟩ := ih (fun chunk hchunk => hne chunk (List.mem_cons_of_mem _ hchunk))
      (Nat.lt_of_succ_lt_succ hcalls) (rowOffset + scanChunk.length)
    -- The rows of this chunk, and those behind it.
    have hrows : (∀ r, r < (scanChunk :: unscanned).flatten.length → RowFits gstate (rowOffset + r)) ↔
        (∀ r, r < scanChunk.length → RowFits gstate (rowOffset + r)) ∧
          ∀ r, r < unscanned.flatten.length → RowFits gstate (rowOffset + scanChunk.length + r) := by
      rw [List.flatten_cons, List.length_append]
      constructor
      · refine fun h => ⟨fun r hr => h r (by omega), fun r hr => ?_⟩
        rw [Nat.add_assoc]
        exact h _ (by omega)
      · rintro ⟨hfirst, hrest⟩ r hr
        by_cases hlt : r < scanChunk.length
        · exact hfirst r hlt
        · have := hrest (r - scanChunk.length) (by omega)
          rwa [Nat.add_assoc, Nat.add_sub_cancel' (by omega)] at this
    rw [hrows]
    unfold readAll
    rcases getData_cons hsolved (hne scanChunk List.mem_cons_self) unscanned rowOffset with
      ⟨chunk, hget, hchunk, hfits⟩ | ⟨e, hget, hnot⟩
    · rw [hget]
      dsimp only
      cases hread : readAll gstate calls ⟨unscanned, rowOffset + scanChunk.length⟩ with
      | error e =>
        rw [hread] at hiff
        refine ⟨iff_of_false ?_ fun h => ?_, ?_⟩
        · rintro ⟨chunks, h⟩
          cases h
        · obtain ⟨chunks, h⟩ := hiff.mpr h.2
          cases h
        · intro chunks h
          cases h
      | ok result =>
        rw [hread] at hiff
        dsimp only
        cases result with
        | none =>
          refine ⟨iff_of_false ?_ fun h => ?_, ?_⟩
          · rintro ⟨chunks, h⟩
            cases h
          · obtain ⟨chunks, h⟩ := hiff.mpr h.2
            cases h
          · intro chunks h
            cases h
        | some chunks =>
          refine ⟨iff_of_true ⟨chunk :: chunks, rfl⟩ ⟨hfits, hiff.mp ⟨chunks, rfl⟩⟩, ?_⟩
          intro all h
          cases h
          exact ReadsChunks.cons hchunk (hspec chunks hread)
    · rw [hget]
      refine ⟨iff_of_false ?_ fun h => hnot h.1, ?_⟩
      · rintro ⟨chunks, h⟩
        cases h
      · intro chunks h
        cases h

end

/-! ## The query -/

section

variable {α : Type*}

namespace SolvedQuery

omit [IsStrictOrderedRing K] [FloorRing K] in
theorem decideVariables_user {query : SolvedQuery K α} {v : Nat} {p : String × TypeMarker}
    (hp : query.userVariables[v]? = some p) : query.decideVariables[v]? = some (p.2.declare p.1) := by
  have hv : v < query.userVariables.length := (List.getElem?_eq_some_iff.mp hp).1
  unfold decideVariables
  rw [List.getElem?_append_left (by rwa [List.length_map]), List.getElem?_map, hp]
  rfl

omit [IsStrictOrderedRing K] [FloorRing K] in
theorem decideVariables_auxiliary {query : SolvedQuery K α} {k : Nat} {p : String × AuxiliaryVariable}
    (hp : query.auxiliaries[k]? = some p) :
    query.decideVariables[query.userVariables.length + k]? = some (p.2.declare p.1) := by
  unfold decideVariables
  rw [List.getElem?_append_right (by rw [List.length_map]; omega), List.length_map, Nat.add_sub_cancel_left,
    List.getElem?_map, hp]
  rfl

omit [IsStrictOrderedRing K] [FloorRing K] in
/-- A variable is a user's or an auxiliary. -/
theorem decideVariables_cases {query : SolvedQuery K α} {v : Nat} {decideVar : DeclaredVariable}
    (h : query.decideVariables[v]? = some decideVar) :
    (∃ p, query.userVariables[v]? = some p ∧ decideVar = p.2.declare p.1) ∨
      ∃ k p, v = query.userVariables.length + k ∧ query.auxiliaries[k]? = some p ∧
        decideVar = p.2.declare p.1 := by
  unfold decideVariables at h
  rw [List.getElem?_append, List.length_map] at h
  split at h
  · rw [List.getElem?_map, Option.map_eq_some_iff] at h
    obtain ⟨p, hp, rfl⟩ := h
    exact .inl ⟨p, hp, rfl⟩
  · rw [List.getElem?_map, Option.map_eq_some_iff] at h
    obtain ⟨p, hp, rfl⟩ := h
    exact .inr ⟨_, p, by omega, hp, rfl⟩

omit [IsStrictOrderedRing K] [FloorRing K] in
theorem lt_numVars {query : SolvedQuery K α} {v : Nat} {decideVar : DeclaredVariable}
    (h : query.decideVariables[v]? = some decideVar) : v < query.varIndexer.numVars := by
  have hv := (List.getElem?_eq_some_iff.mp h).1
  rw [query.numVars_eq]
  unfold decideVariables at hv
  rwa [List.length_append, List.length_map, List.length_map] at hv

omit [IsStrictOrderedRing K] in
/-- At a row a variable is cast from the column of its own instance. -/
theorem castAt_sinkState {query : SolvedQuery K α} {v : Nat} {decideVar : DeclaredVariable}
    (h : query.decideVariables[v]? = some decideVar) {row : Nat} (hrow : row < query.varIndexer.numRows) :
    castAt query.sinkState (decideVar, v) row = outputValue decideVar (query.rowValue v row) := by
  unfold castAt rowValue instanceValue sinkState
  dsimp only
  rw [(ColumnLayout.get_eq_instanceColumn (lt_numVars h) hrow).2]

/-- A user's variable in its range is not refused. -/
theorem user_fits {query : SolvedQuery K α} (huser : query.UserInRange) {v : Nat} {p : String × TypeMarker}
    (hp : query.userVariables[v]? = some p) {row : Nat} (hrow : row < query.varIndexer.numRows) :
    ∃ cell, outputValue (p.2.declare p.1) (query.rowValue v row) = .ok cell := by
  rw [outputValue_ok_iff]
  intro hchecked
  have hmarker : p.2 ≠ .realVariable := by
    intro hreal
    rw [hreal] at hchecked
    rcases hchecked with h | h <;> cases h
  have hv := lt_numVars (decideVariables_user hp)
  obtain ⟨hlo, hhi⟩ := huser v p hp hmarker _ (ColumnLayout.get_eq_instanceColumn hv hrow).1
  rw [inIntegerRange_iff]
  unfold rowValue
  constructor <;> linarith

/-- An auxiliary is refused if it was declared an integer and is not one of 32 bits. -/
theorem auxiliary_fits_iff (aux : AuxiliaryVariable) (name : String) (v : K) :
    (∃ cell, outputValue (aux.declare name) v = .ok cell) ↔
      ((aux.declare name).returnType = .integer → -2147483648 - 1 / 2 < v ∧ v < 2147483647 + 1 / 2) := by
  have hinteger : InIntegerRange .integer v ↔ -2147483648 - 1 / 2 < v ∧ v < 2147483647 + 1 / 2 := by
    rw [inIntegerRange_iff]
    norm_num [integerRange]
  have hbigint : (aux.declare name).returnType ≠ .bigint := by
    cases aux with
    | product bothBool otherType =>
      unfold AuxiliaryVariable.declare
      dsimp only
      split <;> decide
    | abs innerType =>
      unfold AuxiliaryVariable.declare
      dsimp only
      split <;> decide
    | absSide | indicator => simp [AuxiliaryVariable.declare]
  rw [outputValue_ok_iff, ← hinteger]
  unfold DeclaredVariable.IsChecked
  constructor
  · intro h htype
    exact htype ▸ h (.inl htype)
  · rintro h (htype | htype)
    · rw [htype]
      exact h htype
    · exact absurd htype hbigint

omit [IsStrictOrderedRing K] in
/-- The calls the engine makes reach the end where every row fits. -/
theorem readAll_ok_iff (query : SolvedQuery K α) :
    (∃ chunks, readAll query.sinkState (query.data.length + 1) query.sourceState = .ok (some chunks)) ↔
      ∀ row, row < query.varIndexer.numRows → RowFits query.sinkState row := by
  have hiff := (readAll_spec query.sinkState rfl query.data_nonempty (Nat.lt_succ_self query.data.length) 0).1
  simp only [Nat.zero_add, query.numRows_eq] at hiff
  exact hiff

/-- Every row fits where the auxiliaries are in range. -/
theorem rows_fit_iff {query : SolvedQuery K α} (huser : query.UserInRange) :
    (∀ row, row < query.varIndexer.numRows → RowFits query.sinkState row) ↔ query.AuxiliariesInRange := by
  constructor
  · intro h k p hp htype row hrow
    have hvar := decideVariables_auxiliary hp
    obtain ⟨cell, hcell⟩ := h row hrow (p.2.declare p.1, query.userVariables.length + k)
      (List.mk_mem_zipIdx_iff_getElem?.mpr hvar)
    rw [castAt_sinkState hvar hrow] at hcell
    exact (auxiliary_fits_iff p.2 p.1 _).mp ⟨cell, hcell⟩ htype
  · intro h row hrow pair hpair
    obtain ⟨decideVar, v⟩ := pair
    have hvar : query.decideVariables[v]? = some decideVar := List.mk_mem_zipIdx_iff_getElem?.mp hpair
    rw [castAt_sinkState hvar hrow]
    rcases decideVariables_cases hvar with ⟨p, hp, rfl⟩ | ⟨k, p, rfl, hp, rfl⟩
    · exact user_fits huser hp hrow
    · exact (auxiliary_fits_iff p.2 p.1 _).mpr fun htype => h k p hp htype row hrow

end SolvedQuery

/-- One row, an INT decision, and the auxiliary of its ABS with the same value. -/
def absQuery (x : ℚ) (hlower : 0 ≤ x) (hupper : x ≤ 10 ^ 30) : SolvedQuery ℚ Unit where
  userVariables := [("x", .intVariable)]
  auxiliaries := [("__abs_aux_0__", .abs .bigint)]
  varIndexer := ⟨1, [.row, .row], by simp⟩
  columns := [⟨0, 10 ^ 30, true, false, 1⟩, ⟨0, 10 ^ 30, true, false, 0⟩]
  ilpSolution := [x, x]
  data := [[()]]
  numVars_eq := rfl
  numColumns_le := by decide
  solution_length := rfl
  inBoxes := by
    intro col box hbox
    match col, hbox with
    | 0, hbox | 1, hbox =>
      cases hbox
      exact ⟨hlower, hupper⟩
  data_nonempty := by simp
  numRows_eq := rfl

theorem absQuery_userInRange {x : ℚ} (hlower : 0 ≤ x) (hupper : x ≤ 10 ^ 30) (hx : x ≤ 9007199254740992) :
    (absQuery x hlower hupper).UserInRange := by
  intro v p hp _ inst hinst
  match v, hp with
  | 0, hp =>
    cases hp
    obtain rfl : inst = 0 := Nat.lt_one_iff.mp hinst
    change ((-9007199254740992 : ℤ) : ℚ) ≤ x ∧ x ≤ ((9007199254740992 : ℤ) : ℚ)
    exact ⟨le_trans (by norm_num) hlower, by exact_mod_cast hx⟩

end

end Decidb
