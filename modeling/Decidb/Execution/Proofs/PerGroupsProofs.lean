import Decidb.Execution.Proofs.GroupCSRProofs

/-!
# A cached numbering is the direct one

Both scans number the surviving rows by first appearance of their key: the direct one through the hashes
of the representatives, the cached one through the number a row has among all rows.
-/

namespace Decidb

open Relational

variable {E V : Type*}

/-! ## Keys -/

section Keys

variable {valueEquals : V → V → Bool} (hequiv : Equivalence fun a b => valueEquals a b = true)

include hequiv

theorem columnEquals_equivalence : Equivalence fun a b => columnEquals valueEquals a b = true where
  refl := by
    rintro (_ | v)
    · rfl
    · exact hequiv.refl v
  symm := by
    rintro (_ | v) (_ | w) h
    · rfl
    · cases h
    · cases h
    · exact hequiv.symm h
  trans := by
    rintro (_ | v) (_ | w) (_ | u) h h'
    · rfl
    · cases h'
    · rfl
    · cases h
    · cases h
    · cases h
    · cases h'
    · exact hequiv.trans h h'

theorem keyEquals_equivalence : Equivalence fun a b => keyEquals valueEquals a b = true where
  refl := by
    intro key
    induction key with
    | nil => rfl
    | cons v key ih => exact Bool.and_eq_true_iff.mpr ⟨(columnEquals_equivalence hequiv).refl v, ih⟩
  symm := by
    intro key
    induction key with
    | nil =>
      rintro (_ | ⟨w, key'⟩) h
      · rfl
      · cases h
    | cons v key ih =>
      rintro (_ | ⟨w, key'⟩) h
      · cases h
      · obtain ⟨hv, hkey⟩ := Bool.and_eq_true_iff.mp h
        exact Bool.and_eq_true_iff.mpr ⟨(columnEquals_equivalence hequiv).symm hv, ih hkey⟩
  trans := by
    intro key
    induction key with
    | nil =>
      rintro (_ | ⟨w, key'⟩) key'' h h'
      · exact h'
      · cases h
    | cons v key ih =>
      rintro (_ | ⟨w, key'⟩) (_ | ⟨u, key''⟩) h h'
      · cases h
      · cases h
      · cases h'
      · obtain ⟨hv, hkey⟩ := Bool.and_eq_true_iff.mp h
        obtain ⟨hw, hkey'⟩ := Bool.and_eq_true_iff.mp h'
        exact Bool.and_eq_true_iff.mpr ⟨(columnEquals_equivalence hequiv).trans hv hw, ih hkey hkey'⟩

end Keys

variable (table : PerTable E V)

/-- Rows are compared by their keys, the earlier row being the representative. -/
def sameKey (perColumns : List E) (row row' : Nat) : Bool :=
  keyEquals table.valueEquals (table.key perColumns row) (table.key perColumns row')

theorem sameKey_equivalence (perColumns : List E) :
    Equivalence fun row row' => sameKey table perColumns row row' = true where
  refl _ := (keyEquals_equivalence table.valueEquals_equivalence).refl _
  symm h := (keyEquals_equivalence table.valueEquals_equivalence).symm h
  trans h h' := (keyEquals_equivalence table.valueEquals_equivalence).trans h h'

theorem sameKey_comm (perColumns : List E) (row row' : Nat) :
    sameKey table perColumns row row' = sameKey table perColumns row' row := by
  rw [Bool.eq_iff_iff]
  exact ⟨(sameKey_equivalence table perColumns).symm, (sameKey_equivalence table perColumns).symm⟩

/-! ## The direct scan -/

section Direct

variable (keyExprs : List E) (rowFilter : Option RowMask) (nullExcludes : Bool)

/-- A row the scan numbers. -/
def keeps (row : Nat) : Bool :=
  admits rowFilter row && !(nullExcludes && (table.key keyExprs row).any Option.isNone)

variable {table keyExprs rowFilter nullExcludes}

/-- A search over numbered elements finds the number of the first one. -/
theorem find?_zipIdx_map {α β : Type*} {p : β × Nat → Bool} {q : α → Bool} (f : α → β) (l : List α) (k : Nat)
    (h : ∀ a i, l[i]? = some a → p (f a, k + i) = q a) :
    ((((l.zipIdx k).map fun a => (f a.1, a.2)).find? p).map (·.2)) = (l.findIdx? q).map (k + ·) := by
  induction l generalizing k with
  | nil => rfl
  | cons a l ih =>
    rw [List.zipIdx_cons, List.map_cons, List.find?_cons, List.findIdx?_cons, show p (f a, k) = q a from h a 0 rfl]
    cases q a with
    | true => rfl
    | false =>
      dsimp only
      rw [ih (k + 1) fun b i hb => by
        rw [Nat.add_assoc, Nat.add_comm 1 i]
        exact h b (i + 1) hb]
      rw [if_neg (by simp), Option.map_map]
      congr 1
      funext j
      simp only [Function.comp_apply]
      omega

/-- What the direct scan carries after the first rows. -/
structure GroupScan.Numbers (table : PerTable E V) (keyExprs : List E) (rowFilter : Option RowMask) (nullExcludes : Bool)
    (m : Nat) (scan : GroupScan V) : Prop where
  rowGroupIds_eq : scan.rowGroupIds =
    (List.range m).map (rowNumber (sameKey table keyExprs) (keeps table keyExprs rowFilter nullExcludes) m)
  numGroups_eq : scan.numGroups = (repRows (sameKey table keyExprs) (keeps table keyExprs rowFilter nullExcludes) m).length
  repKeys_eq : scan.repKeys =
    (repRows (sameKey table keyExprs) (keeps table keyExprs rowFilter nullExcludes) m).map (table.key keyExprs)
  hashes_eq : scan.hashToRepGroup = ((repRows (sameKey table keyExprs) (keeps table keyExprs rowFilter nullExcludes) m).zipIdx).map
    fun a => (table.hash (table.key keyExprs a.1), a.2)

/-- The hash only narrows the search. -/
theorem GroupScan.Numbers.matching {m : Nat} {scan : GroupScan V}
    (h : scan.Numbers table keyExprs rowFilter nullExcludes m) (row : Nat) :
    scan.matching table (table.key keyExprs row) =
      numberIn (sameKey table keyExprs) (repRows (sameKey table keyExprs) (keeps table keyExprs rowFilter nullExcludes) m) row := by
  have hfind := find?_zipIdx_map (q := (sameKey table keyExprs · row))
    (p := fun p => p.1 == table.hash (table.key keyExprs row) &&
      (scan.repKeys[p.2]?).any (keyEquals table.valueEquals (table.key keyExprs row)))
    (fun a => table.hash (table.key keyExprs a)) (repRows (sameKey table keyExprs) (keeps table keyExprs rowFilter nullExcludes) m) 0 (by
      intro a i ha
      dsimp only
      rw [Nat.zero_add, h.repKeys_eq, List.getElem?_map, ha, sameKey_comm]
      change (_ && sameKey table keyExprs row a) = sameKey table keyExprs row a
      cases hsame : sameKey table keyExprs row a with
      | false => exact Bool.and_false _
      | true => rw [table.hash_congr hsame, Bool.and_true, beq_self_eq_true])
  unfold GroupScan.matching
  rw [h.hashes_eq, hfind]
  unfold numberIn
  cases (repRows (sameKey table keyExprs) (keeps table keyExprs rowFilter nullExcludes) m).findIdx? (sameKey table keyExprs · row) with
  | none => rfl
  | some g => rw [Option.map_some, Nat.zero_add]

theorem GroupScan.Numbers.row {m : Nat} {scan : GroupScan V}
    (h : scan.Numbers table keyExprs rowFilter nullExcludes m) :
    (GroupScan.row table keyExprs rowFilter nullExcludes scan m).Numbers table keyExprs rowFilter nullExcludes
      (m + 1) := by
  unfold GroupScan.row
  dsimp only
  cases hkeeps : keeps table keyExprs rowFilter nullExcludes m with
  | false =>
    have hcond : (!admits rowFilter m || nullExcludes && (table.key keyExprs m).any Option.isNone) = true := by
      unfold keeps at hkeeps
      rw [Bool.and_eq_false_iff, Bool.not_eq_false'] at hkeeps
      rw [Bool.or_eq_true, Bool.not_eq_true']
      exact hkeeps
    have hrows : repRows (sameKey table keyExprs) (keeps table keyExprs rowFilter nullExcludes) (m + 1) =
        repRows (sameKey table keyExprs) (keeps table keyExprs rowFilter nullExcludes) m :=
      repRows_succ_of_not hkeeps
    have hnum : rowNumber (sameKey table keyExprs) (keeps table keyExprs rowFilter nullExcludes) (m + 1) m =
        none := rowNumber_of_not hkeeps
    rw [if_pos hcond]
    exact
      { rowGroupIds_eq := by rw [map_rowNumber_succ (sameKey_equivalence table keyExprs), hnum, ← h.rowGroupIds_eq]
        numGroups_eq := by rw [hrows]; exact h.numGroups_eq
        repKeys_eq := by rw [hrows]; exact h.repKeys_eq
        hashes_eq := by rw [hrows]; exact h.hashes_eq }
  | true =>
    have hcond : ¬ (!admits rowFilter m || nullExcludes && (table.key keyExprs m).any Option.isNone) = true := by
      unfold keeps at hkeeps
      rw [Bool.and_eq_true, Bool.not_eq_true'] at hkeeps
      rw [hkeeps.1, hkeeps.2]
      simp
    rw [if_neg hcond, h.matching m]
    cases hnum : numberIn (sameKey table keyExprs) (repRows (sameKey table keyExprs) (keeps table keyExprs rowFilter nullExcludes) m) m with
    | some g =>
      obtain ⟨hrows, hnum⟩ := rowNumber_of_met hkeeps hnum
      exact
        { rowGroupIds_eq := by rw [map_rowNumber_succ (sameKey_equivalence table keyExprs), hnum, ← h.rowGroupIds_eq]
          numGroups_eq := by rw [hrows]; exact h.numGroups_eq
          repKeys_eq := by rw [hrows]; exact h.repKeys_eq
          hashes_eq := by rw [hrows]; exact h.hashes_eq }
    | none =>
      obtain ⟨hrows, hnum⟩ := rowNumber_of_new (sameKey_equivalence table keyExprs) hkeeps hnum
      exact
        { rowGroupIds_eq := by rw [map_rowNumber_succ (sameKey_equivalence table keyExprs), hnum, ← h.rowGroupIds_eq, h.numGroups_eq]
          numGroups_eq := by rw [hrows, List.length_append, List.length_singleton, h.numGroups_eq]
          repKeys_eq := by rw [hrows, List.map_append, List.map_singleton, h.repKeys_eq]
          hashes_eq := by
            rw [hrows, List.zipIdx_append, List.map_append, ← h.hashes_eq, h.numGroups_eq]
            simp }

theorem GroupScan.numbers_foldl (table : PerTable E V) (keyExprs : List E) (rowFilter : Option RowMask)
    (nullExcludes : Bool) (m : Nat) :
    ((List.range m).foldl (GroupScan.row table keyExprs rowFilter nullExcludes) {}).Numbers table keyExprs
      rowFilter nullExcludes m := by
  induction m with
  | zero => exact { rowGroupIds_eq := rfl, numGroups_eq := rfl, repKeys_eq := rfl, hashes_eq := rfl }
  | succ m ih =>
    rw [List.range_succ, List.foldl_append]
    exact ih.row

/-- **The direct numbering.** -/
theorem buildGroupIds_eq (hne : keyExprs ≠ []) :
    buildGroupIds table keyExprs rowFilter nullExcludes =
      { rowGroupIds := (List.range table.numRows).map
          (rowNumber (sameKey table keyExprs) (keeps table keyExprs rowFilter nullExcludes) table.numRows)
        numGroups := (repRows (sameKey table keyExprs) (keeps table keyExprs rowFilter nullExcludes) table.numRows).length
        repKeys := (repRows (sameKey table keyExprs) (keeps table keyExprs rowFilter nullExcludes) table.numRows).map
          (table.key keyExprs) } := by
  unfold buildGroupIds
  by_cases hrows : table.numRows = 0
  · rw [if_pos (.inl hrows), hrows]
    rfl
  · rw [if_neg (by rintro (h | h); exacts [hrows h, hne h])]
    have h := GroupScan.numbers_foldl table keyExprs rowFilter nullExcludes table.numRows
    rw [← h.rowGroupIds_eq, ← h.numGroups_eq, ← h.repKeys_eq]

end Direct

/-! ## The numbering behind a filter -/

section Cached

variable {table} {request : PerRequest E}

/-- The unfiltered numbering an entry holds. -/
def unfilteredIds (table : PerTable E V) (request : PerRequest E) : GroupIds V :=
  buildGroupIds table request.perColumns none request.nullExcludes

/-- The first rows of the groups of all rows. -/
def allReps (table : PerTable E V) (request : PerRequest E) : List Nat :=
  repRows (sameKey table request.perColumns) (request.keyCounts table) table.numRows

/-- The first rows of the groups among the surviving rows. -/
def survivorReps (table : PerTable E V) (request : PerRequest E) (m : Nat) : List Nat :=
  repRows (sameKey table request.perColumns) (request.survives table) m

theorem unfilteredIds_eq : unfilteredIds table request =
    { rowGroupIds := (List.range table.numRows).map
        (rowNumber (sameKey table request.perColumns) (request.keyCounts table) table.numRows)
      numGroups := (allReps table request).length
      repKeys := (allReps table request).map (table.key request.perColumns) } :=
  buildGroupIds_eq request.has_per

theorem groupOf_map_range {n row : Nat} (f : Nat → Option Nat) (hrow : row < n) :
    groupOf ((List.range n).map f) row = f row := by
  rw [groupOf, List.getElem?_map, List.getElem?_range hrow]
  rfl

theorem lt_of_groupOf {n row g : Nat} {f : Nat → Option Nat}
    (h : groupOf ((List.range n).map f) row = some g) : row < n := by
  by_contra hle
  rw [groupOf, List.getElem?_eq_none (by rw [List.length_map, List.length_range]; omega)] at h
  cases h

/-- A row with a key that counts is in the group of the first row with its key. -/
theorem groupOf_unfiltered (request : PerRequest E) {row : Nat} (hrow : row < table.numRows) :
    match groupOf (unfilteredIds table request).rowGroupIds row with
    | none => request.keyCounts table row = false
    | some u => request.keyCounts table row = true ∧
        ∃ r, (allReps table request)[u]? = some r ∧ sameKey table request.perColumns r row = true := by
  rw [unfilteredIds_eq]
  dsimp only
  rw [groupOf_map_range _ hrow]
  cases hnum : rowNumber (sameKey table request.perColumns) (request.keyCounts table) table.numRows row with
  | none =>
    have hiff : (rowNumber (sameKey table request.perColumns) (request.keyCounts table) table.numRows
        row).isSome = true ↔ request.keyCounts table row = true :=
      rowNumber_isSome (sameKey_equivalence table request.perColumns) hrow
    rw [hnum] at hiff
    cases hcounts : request.keyCounts table row with
    | false => rfl
    | true => cases hiff.mpr hcounts
  | some u => exact rowNumber_eq_some hnum

/-- Groups of all rows differ by their keys. -/
theorem allReps_inj {u u' r r' : Nat} (hr : (allReps table request)[u]? = some r)
    (hr' : (allReps table request)[u']? = some r')
    (hsame : sameKey table request.perColumns r r' = true) : u = u' := by
  have hequiv := sameKey_equivalence table request.perColumns
  have h := numberIn_of_getElem hequiv hr hsame
  rw [numberIn_of_getElem hequiv hr' (hequiv.refl r')] at h
  exact (Option.some.inj h).symm

/-- The printable keys of the groups met so far. -/
def LabelsOf (table : PerTable E V) (request : PerRequest E) (labels : List String) (reps : List Nat) : Prop :=
  labels.length = reps.length ∧ ∀ g r : Nat, reps[g]? = some r → ∃ row, row < table.numRows ∧
    sameKey table request.perColumns r row = true ∧
    labels[g]? = some (formatPerGroupKey table (table.key request.perColumns row))

theorem LabelsOf.concat {labels : List String} {reps : List Nat} {r row : Nat}
    (h : LabelsOf table request labels reps) (hrow : row < table.numRows)
    (hsame : sameKey table request.perColumns r row = true) :
    LabelsOf table request (labels ++ [formatPerGroupKey table (table.key request.perColumns row)])
      (reps ++ [r]) := by
  refine ⟨by rw [List.length_append, List.length_append, h.1]; rfl, ?_⟩
  intro g r' hr'
  rcases Nat.lt_trichotomy g reps.length with hlt | rfl | hgt
  · rw [List.getElem?_append_left hlt] at hr'
    rw [List.getElem?_append_left (by rw [h.1]; exact hlt)]
    exact h.2 g r' hr'
  · rw [List.getElem?_concat_length] at hr'
    cases hr'
    exact ⟨row, hrow, hsame, by rw [← h.1, List.getElem?_concat_length]⟩
  · rw [List.getElem?_eq_none (by rw [List.length_append, List.length_singleton]; omega)] at hr'
    cases hr'

/-- What the renumbering carries after the first rows. -/
structure GroupRemap.Numbers (table : PerTable E V) (request : PerRequest E) (m : Nat) (state : GroupRemap) :
    Prop where
  rowGroupIds_eq : state.rowGroupIds = (List.range m).map
    (rowNumber (sameKey table request.perColumns) (request.survives table) m)
  nextRemap_eq : state.nextRemap = (survivorReps table request m).length
  remap_eq : ∀ u, state.remap u = ((allReps table request)[u]?).bind
    (numberIn (sameKey table request.perColumns) (survivorReps table request m))
  labels : LabelsOf table request state.groupLabels (survivorReps table request m)

/-- A row that does not survive leaves the numbers as they are. -/
theorem GroupRemap.Numbers.skip {m : Nat} {state : GroupRemap} (h : state.Numbers table request m)
    (hnot : request.survives table m = false) :
    ({ state with rowGroupIds := state.rowGroupIds ++ [none] } : GroupRemap).Numbers table request
      (m + 1) := by
  have hequiv := sameKey_equivalence table request.perColumns
  have hrows : survivorReps table request (m + 1) = survivorReps table request m := repRows_succ_of_not hnot
  exact
    { rowGroupIds_eq := by
        dsimp only
        rw [map_rowNumber_succ hequiv, rowNumber_of_not hnot, ← h.rowGroupIds_eq]
      nextRemap_eq := by rw [hrows]; exact h.nextRemap_eq
      remap_eq := by rw [hrows]; exact h.remap_eq
      labels := by rw [hrows]; exact h.labels }

theorem GroupRemap.Numbers.row {m : Nat} {state : GroupRemap} (h : state.Numbers table request m)
    (hm : m < table.numRows) :
    (GroupRemap.row table (unfilteredIds table request) request.rowFilter state m).Numbers table request
      (m + 1) := by
  have hequiv := sameKey_equivalence table request.perColumns
  have hgroup := groupOf_unfiltered request hm
  unfold GroupRemap.row
  cases hgid : groupOf (unfilteredIds table request).rowGroupIds m with
  | none =>
    rw [hgid] at hgroup
    exact h.skip (by rw [PerRequest.survives, show request.keyCounts table m = false from hgroup,
      Bool.and_false])
  | some u =>
    rw [hgid] at hgroup
    obtain ⟨hcounts, r, hr, hsame⟩ := hgroup
    dsimp only
    cases hfilter : admits request.rowFilter m with
    | false => exact h.skip (by rw [PerRequest.survives, hfilter, Bool.false_and])
    | true =>
      have hsurvives : request.survives table m = true := by
        rw [PerRequest.survives, hfilter, hcounts, Bool.true_and]
      have hremap : state.remap u =
          numberIn (sameKey table request.perColumns) (survivorReps table request m) m := by
        rw [h.remap_eq, hr, Option.bind_some]
        exact numberIn_of_eqv hequiv _ hsame
      rw [if_neg (by simp)]
      cases hnum : state.remap u with
      | some g =>
        obtain ⟨hrows, hnew⟩ := rowNumber_of_met hsurvives (hremap.symm.trans hnum)
        change survivorReps table request (m + 1) = survivorReps table request m at hrows
        exact
          { rowGroupIds_eq := by
              dsimp only
              rw [map_rowNumber_succ hequiv, hnew, ← h.rowGroupIds_eq]
            nextRemap_eq := by rw [hrows]; exact h.nextRemap_eq
            remap_eq := by rw [hrows]; exact h.remap_eq
            labels := by rw [hrows]; exact h.labels }
      | none =>
        obtain ⟨hrows, hnew⟩ := rowNumber_of_new hequiv hsurvives (hremap.symm.trans hnum)
        change survivorReps table request (m + 1) = survivorReps table request m ++ [m] at hrows
        have hkey : ((unfilteredIds table request).repKeys[u]?).getD [] =
            table.key request.perColumns r := by
          rw [unfilteredIds_eq, List.getElem?_map, hr]
          rfl
        have hlt : r < table.numRows := (lt_of_mem_repRows (List.mem_of_getElem? hr)).1
        refine { rowGroupIds_eq := ?_, nextRemap_eq := ?_, remap_eq := ?_, labels := ?_ }
        · dsimp only
          rw [map_rowNumber_succ hequiv, hnew, ← h.rowGroupIds_eq, h.nextRemap_eq]
          rfl
        · dsimp only
          rw [hrows, List.length_append, List.length_singleton, h.nextRemap_eq]
        · intro u'
          dsimp only
          by_cases hu : u' = u
          · subst hu
            rw [Function.update_self, hr, Option.bind_some, numberIn_of_eqv hequiv _ hsame,
              h.nextRemap_eq]
            rw [rowNumber, if_pos hsurvives] at hnew
            exact hnew.symm
          · rw [Function.update_of_ne hu, h.remap_eq, hrows]
            cases hr' : (allReps table request)[u']? with
            | none => rfl
            | some r' =>
              have hother : sameKey table request.perColumns m r' = false := by
                by_contra heq
                rw [Bool.not_eq_false] at heq
                exact hu (allReps_inj hr hr' (hequiv.trans hsame heq)).symm
              rw [Option.bind_some, Option.bind_some, numberIn_concat_of_not hother]
        · rw [hkey, hrows]
          exact h.labels.concat hlt (hequiv.symm hsame)

theorem GroupRemap.numbers_foldl (request : PerRequest E) (m : Nat) (hm : m ≤ table.numRows) :
    ((List.range m).foldl (GroupRemap.row table (unfilteredIds table request) request.rowFilter) {}).Numbers
      table request m := by
  induction m with
  | zero =>
    exact
      { rowGroupIds_eq := rfl
        nextRemap_eq := rfl
        remap_eq := by
          intro u
          cases (allReps table request)[u]? <;> rfl
        labels := ⟨rfl, fun g r hr => by cases hr⟩ }
  | succ m ih =>
    rw [List.range_succ, List.foldl_append]
    exact (ih (by omega)).row (by omega)

/-- The number of a row in the looser map. -/
def looseNumber (table : PerTable E V) (request : PerRequest E) (row : Nat) : Option Nat :=
  if admits request.looseRowFilter row && request.keyCounts table row then
    numberIn (sameKey table request.perColumns) (survivorReps table request table.numRows) row
  else none

/-- **The view behind a filter numbers the surviving rows afresh.** -/
theorem remapGroups_spec (table : PerTable E V) (request : PerRequest E) : ∃ labels,
    remapGroups table (unfilteredIds table request) request =
      { rowGroupIds := (List.range table.numRows).map
          (rowNumber (sameKey table request.perColumns) (request.survives table) table.numRows)
        numGroups := (survivorReps table request table.numRows).length
        groupLabels := labels
        looseRowGroupIds := (List.range table.numRows).map (looseNumber table request) } ∧
    LabelsOf table request labels (survivorReps table request table.numRows) := by
  have hequiv := sameKey_equivalence table request.perColumns
  unfold remapGroups
  by_cases hempty : (unfilteredIds table request).numGroups = 0 ∨ table.numRows = 0
  · -- Without a group of all rows no key counts, so no row survives either.
    have hcounts : ∀ row, row < table.numRows → request.keyCounts table row = false := by
      intro row hrow
      rcases hempty with h | h
      · rw [unfilteredIds_eq] at h
        by_contra hc
        rw [Bool.not_eq_false] at hc
        obtain ⟨r, hr, -⟩ := exists_repRow hequiv hrow hc
        rw [show repRows (sameKey table request.perColumns) (request.keyCounts table) table.numRows = []
          from List.length_eq_zero_iff.mp h] at hr
        cases hr
      · omega
    have hsurvives : ∀ row, row < table.numRows → request.survives table row = false := by
      intro row hrow
      rw [PerRequest.survives, hcounts row hrow, Bool.and_false]
    have hreps : survivorReps table request table.numRows = [] := by
      rw [List.eq_nil_iff_forall_not_mem]
      intro r hr
      obtain ⟨hlt, hkeeps⟩ := lt_of_mem_repRows hr
      rw [hsurvives r hlt] at hkeeps
      cases hkeeps
    have hnone : ∀ f : Nat → Option Nat, (∀ row, row < table.numRows → f row = none) →
        (List.range table.numRows).map f = List.replicate table.numRows none := by
      intro f hf
      rw [List.eq_replicate_iff]
      refine ⟨by rw [List.length_map, List.length_range], ?_⟩
      intro b hb
      obtain ⟨row, hrow, rfl⟩ := List.mem_map.mp hb
      exact hf row (List.mem_range.mp hrow)
    refine ⟨[], ?_, by rw [hreps]; exact ⟨rfl, fun g r hr => by cases hr⟩⟩
    rw [if_pos hempty, hreps, hnone _ fun row hrow => rowNumber_of_not (hsurvives row hrow),
      hnone (looseNumber table request) fun row hrow => by
        rw [looseNumber, hcounts row hrow, Bool.and_false, if_neg (by simp)]]
    rfl
  · have hdone := GroupRemap.numbers_foldl request table.numRows (le_refl _)
    rw [if_neg hempty]
    dsimp only
    refine ⟨_, ?_, hdone.labels⟩
    rw [hdone.rowGroupIds_eq, hdone.nextRemap_eq]
    congr 1
    refine List.map_congr_left fun row hrow => ?_
    have hgroup := groupOf_unfiltered request (List.mem_range.mp hrow)
    unfold looseGroupId looseNumber
    cases hgid : groupOf (unfilteredIds table request).rowGroupIds row with
    | none =>
      rw [hgid] at hgroup
      rw [show request.keyCounts table row = false from hgroup, Bool.and_false, if_neg (by simp)]
    | some u =>
      rw [hgid] at hgroup
      obtain ⟨hcounts, r, hr, hsame⟩ := hgroup
      dsimp only
      rw [hcounts, Bool.and_true, hdone.remap_eq, hr, Option.bind_some, numberIn_of_eqv hequiv _ hsame]
      cases admits request.looseRowFilter row <;> rfl

theorem remapGroups_exact (table : PerTable E V) (request : PerRequest E) :
    (remapGroups table (unfilteredIds table request) request).Exact table request := by
  have hequiv := sameKey_equivalence table request.perColumns
  obtain ⟨labels, heq, hlabels⟩ := remapGroups_spec table request
  rw [heq]
  have hlt : ∀ row g, groupOf ((List.range table.numRows).map
      (rowNumber (sameKey table request.perColumns) (request.survives table) table.numRows)) row = some g →
      row < table.numRows ∧
        rowNumber (sameKey table request.perColumns) (request.survives table) table.numRows row = some g := by
    intro row g h
    have hrow := lt_of_groupOf h
    rw [groupOf_map_range _ hrow] at h
    exact ⟨hrow, h⟩
  have hgroupLt : ∀ row g, groupOf ((List.range table.numRows).map
      (rowNumber (sameKey table request.perColumns) (request.survives table) table.numRows)) row = some g →
      g < (survivorReps table request table.numRows).length := by
    intro row g h
    obtain ⟨-, r, hr, -⟩ := rowNumber_eq_some (hlt row g h).2
    exact (List.getElem?_eq_some_iff.mp hr).1
  refine
    { direct := ⟨_, buildGroupIds_eq request.has_per⟩
      length_eq := by rw [List.length_map, List.length_range]
      has_group := ?_
      same_group := ?_
      group_lt := hgroupLt
      dense := ?_
      first_appearance := ?_
      labels_length := hlabels.1
      label_eq := ?_
      loose_length := by rw [List.length_map, List.length_range]
      loose_iff := ?_
      csr := buildGroupCSR_lists hgroupLt }
  · intro row hrow
    rw [groupOf_map_range _ hrow]
    exact rowNumber_isSome hequiv hrow
  · intro row row' hrow hrow' hs hs'
    rw [groupOf_map_range _ hrow, groupOf_map_range _ hrow']
    exact rowNumber_eq_iff hequiv hrow hs hs'
  · intro g hg
    obtain ⟨row, hrow, hnum⟩ := exists_rowNumber hequiv hg
    exact ⟨row, by rw [groupOf_map_range _ hrow, hnum]⟩
  · intro row g h hnum hgh
    obtain ⟨hrow, hnum⟩ := hlt row h hnum
    obtain ⟨row', hrow', hnum'⟩ := exists_rowNumber_before hequiv hrow hgh hnum
    exact ⟨row', hrow', by rw [groupOf_map_range _ (hrow'.trans hrow), hnum']⟩
  · intro row g h
    obtain ⟨-, r, hr, hsame⟩ := rowNumber_eq_some (hlt row g h).2
    obtain ⟨row', hrow', hsame', hlabel⟩ := hlabels.2 g r hr
    exact ⟨row', hrow', hequiv.trans (hequiv.symm hsame) hsame', hlabel⟩
  · intro row g hrow
    rw [groupOf_map_range _ hrow, looseNumber]
    constructor
    · intro h
      split at h
      · rename_i hcond
        obtain ⟨hloose, hcounts⟩ := Bool.and_eq_true_iff.mp hcond
        obtain ⟨r, hr, hsame⟩ := numberIn_eq_some h
        obtain ⟨hlt', hkeeps⟩ := lt_of_mem_repRows (List.mem_of_getElem? hr)
        refine ⟨hloose, hcounts, r, ?_, hequiv.symm hsame⟩
        rw [groupOf_map_range _ hlt', rowNumber, if_pos hkeeps]
        exact numberIn_of_getElem hequiv hr (hequiv.refl r)
      · cases h
    · rintro ⟨hloose, hcounts, row', hnum, hsame⟩
      have hnum' := (hlt row' g hnum).2
      rw [hloose, hcounts, Bool.and_self, if_pos rfl, numberIn_of_eqv hequiv _ hsame]
      rw [rowNumber, if_pos (rowNumber_eq_some hnum').1] at hnum'
      exact hnum'

/-! ## The cache -/

/-- Every entry holds the numbering of all rows for its own columns. -/
def PerGroupCache.Valid (table : PerTable E V) (cache : PerGroupCache E V) : Prop :=
  ∀ key entry, entry ∈ cache key →
    entry.unfiltered = buildGroupIds table entry.exprs none entry.nullExcludes

theorem key_congr {exprs perColumns : List E} (h : exprsMatch table exprs perColumns = true) (row : Nat) :
    table.key exprs row = table.key perColumns row := by
  induction exprs generalizing perColumns with
  | nil =>
    cases perColumns with
    | nil => rfl
    | cons col perColumns => cases h
  | cons e exprs ih =>
    cases perColumns with
    | nil => cases h
    | cons col perColumns =>
      obtain ⟨he, hrest⟩ := Bool.and_eq_true_iff.mp h
      change table.evaluate e row :: table.key exprs row = table.evaluate col row :: table.key perColumns row
      rw [table.evaluate_congr he, ih hrest]

theorem exprsMatch_nil_iff {exprs perColumns : List E} (h : exprsMatch table exprs perColumns = true) :
    exprs = [] ↔ perColumns = [] := by
  cases exprs <;> cases perColumns
  · exact Iff.rfl
  · cases h
  · cases h
  · exact iff_of_false (List.cons_ne_nil _ _) (List.cons_ne_nil _ _)

/-- Column lists that match are numbered alike. -/
theorem buildGroupIds_congr {exprs perColumns : List E} (h : exprsMatch table exprs perColumns = true)
    (rowFilter : Option RowMask) (nullExcludes : Bool) :
    buildGroupIds table exprs rowFilter nullExcludes =
      buildGroupIds table perColumns rowFilter nullExcludes := by
  have hrow : GroupScan.row table exprs rowFilter nullExcludes =
      GroupScan.row table perColumns rowFilter nullExcludes := by
    funext scan row
    unfold GroupScan.row
    rw [key_congr h row]
  unfold buildGroupIds
  rw [hrow]
  simp only [exprsMatch_nil_iff h]

theorem exprsMatch_of_perKeyMatches {entry : PerGroupCacheEntry E V} {perColumns : List E}
    {nullExcludes : Bool} (h : perKeyMatches table entry perColumns nullExcludes = true) :
    entry.nullExcludes = nullExcludes ∧ exprsMatch table entry.exprs perColumns = true := by
  obtain ⟨hnull, hexprs⟩ := Bool.and_eq_true_iff.mp h
  exact ⟨beq_iff_eq.mp hnull, hexprs⟩

/-- What is found or built is the numbering of all rows, and the cache stays so. -/
theorem PerGroupCache.Valid.entry {cache : PerGroupCache E V} (h : cache.Valid table)
    (request : PerRequest E) :
    (cache.entry table request.perColumns request.nullExcludes).1.unfiltered = unfilteredIds table request ∧
      (cache.entry table request.perColumns request.nullExcludes).2.Valid table := by
  unfold PerGroupCache.entry
  dsimp only
  split
  · rename_i entry hfind
    have hmatch := List.find?_some hfind
    obtain ⟨hnull, hexprs⟩ := exprsMatch_of_perKeyMatches hmatch
    refine ⟨?_, h⟩
    dsimp only
    rw [h _ entry (List.mem_of_find?_eq_some hfind), buildGroupIds_congr hexprs, hnull]
    rfl
  · refine ⟨rfl, ?_⟩
    intro key entry hmem
    dsimp only at hmem
    by_cases hkey : key = hashPerKey table request.perColumns request.nullExcludes
    · rw [hkey, Function.update_self] at hmem
      rcases List.mem_append.mp hmem with hold | hnew
      · exact h _ entry hold
      · obtain rfl := List.mem_singleton.mp hnew
        rfl
    · rw [Function.update_of_ne hkey] at hmem
      exact h key entry hmem

theorem PerGroupCache.Valid.lookupAll {cache : PerGroupCache E V} (h : cache.Valid table)
    (requests : List (PerRequest E)) :
    List.Forall₂ (fun request groups => groups.Exact table request) requests
      (cache.lookupAll table requests) := by
  induction requests generalizing cache with
  | nil => exact List.Forall₂.nil
  | cons request requests ih =>
    obtain ⟨hids, hvalid⟩ := h.entry request
    refine List.Forall₂.cons ?_ (ih hvalid)
    change (remapGroups table _ request).Exact table request
    rw [hids]
    exact remapGroups_exact table request

/-- **Cached PER numbering is direct PER numbering.** Whatever clauses filled the cache before, every clause
is given the numbers of its own filtered rows, the labels of its groups, the looser map of its right-hand
side and the row lists of its groups. -/
theorem lookupAll_exact (table : PerTable E V) (requests : List (PerRequest E)) :
    List.Forall₂ (fun request groups => PerGroups.Exact table request groups) requests
      (PerGroupCache.lookupAll table (fun _ => []) requests) :=
  PerGroupCache.Valid.lookupAll (fun _ _ h => absurd h List.not_mem_nil) requests

/-- Keys `7, NULL, 8, 7` under one hash for everything. -/
def collidingKeys : PerTable Unit Nat where
  numRows := 4
  evaluate _ row := ([some 7, none, some 8, some 7][row]?).join
  valueEquals a b := a == b
  hash _ := 0
  toString v := if v = 7 then "seven" else "eight"
  exprEquals _ _ := true
  exprHash _ := 0
  valueEquals_equivalence := ⟨fun _ => beq_self_eq_true _, fun h => beq_iff_eq.mpr (beq_iff_eq.mp h).symm,
    fun h h' => beq_iff_eq.mpr ((beq_iff_eq.mp h).trans (beq_iff_eq.mp h'))⟩
  evaluate_congr _ := rfl
  hash_congr _ := rfl

/-- The second clause finds the numbering of the first and turns the two groups round. -/
example : PerGroupCache.lookupAll collidingKeys (fun _ => [])
    [{ perColumns := [()], has_per := by simp },
      { perColumns := [()], has_per := by simp, rowFilter := some fun row => decide (1 < row) }] =
    [⟨[some 0, none, some 1, some 0], 2, ["seven", "eight"], [some 0, none, some 1, some 0]⟩,
      ⟨[none, none, some 0, some 1], 2, ["eight", "seven"], [some 1, none, some 0, some 1]⟩] := by
  decide

end Cached

end Decidb
