import Decidb.Execution.EvaluateConstraint
import Decidb.Relational.CountingSort
import Decidb.Relational.Numbering
import Mathlib.Logic.Function.Basic

/-!
# PER groups

`BuildGroupIds` numbers the key tuples of the rows in one scan, through the hash of a tuple.
`LookupOrBuildPerGroupIds` keeps the numbering of all rows for every PER column list it has met and
renumbers it behind the filter of a clause; `BuildGroupCSR` lists the rows of every group.
-/

namespace Decidb

open Relational

variable {E V : Type*}

/-- Two values of one key column: NULL goes with NULL only. -/
def columnEquals (valueEquals : V → V → Bool) : Option V → Option V → Bool
  | none, none => true
  | some v, some rv => valueEquals v rv
  | _, _ => false

/-- The column by column comparison of two keys. -/
def keyEquals (valueEquals : V → V → Bool) : List (Option V) → List (Option V) → Bool
  | [], [] => true
  | v :: key, rv :: repKey => columnEquals valueEquals v rv && keyEquals valueEquals key repKey
  | _, _ => false

/-- The materialized rows and what is asked of their key values. A missing value is NULL. -/
structure PerTable (E V : Type*) where
  numRows : Nat
  evaluate : E → Nat → Option V
  valueEquals : V → V → Bool
  hash : List (Option V) → UInt64
  toString : V → String
  exprEquals : E → E → Bool
  exprHash : E → UInt64
  valueEquals_equivalence : Equivalence fun a b => valueEquals a b = true
  /-- Expressions that are `Equals` have one value in every row. -/
  evaluate_congr : ∀ {e e' : E}, exprEquals e e' = true → evaluate e = evaluate e'
  /-- Equal keys hash equally; nothing is said of different ones. -/
  hash_congr : ∀ {a b : List (Option V)}, keyEquals valueEquals a b = true → hash a = hash b

/-! ## Numbering the rows -/

/-- The key tuple of a row. -/
def PerTable.key (table : PerTable E V) (keyExprs : List E) (row : Nat) : List (Option V) :=
  keyExprs.map (table.evaluate · row)

/-- The group of a row in a map. -/
def groupOf (rowGroupIds : List (Option Nat)) (row : Nat) : Option Nat := (rowGroupIds[row]?).join

/-- Rows with their group numbers. The representative keys are held group by group. -/
structure GroupIds (V : Type*) where
  rowGroupIds : List (Option Nat) := []
  numGroups : Nat := 0
  repKeys : List (List (Option V)) := []

/-- What the scan of `BuildGroupIds` carries besides: the hashes of the representatives. -/
structure GroupScan (V : Type*) extends GroupIds V where
  hashToRepGroup : List (UInt64 × Nat) := []

/-- The group among those with the hash of the key whose representative is equal. -/
def GroupScan.matching (table : PerTable E V) (scan : GroupScan V) (key : List (Option V)) : Option Nat :=
  (scan.hashToRepGroup.find? fun p =>
    p.1 == table.hash key && (scan.repKeys[p.2]?).any (keyEquals table.valueEquals key)).map (·.2)

/-- One row of the scan. -/
def GroupScan.row (table : PerTable E V) (keyExprs : List E) (rowFilter : Option RowMask)
    (nullExcludes : Bool) (scan : GroupScan V) (row : Nat) : GroupScan V :=
  let key := table.key keyExprs row
  if !admits rowFilter row || (nullExcludes && key.any Option.isNone) then
    { scan with rowGroupIds := scan.rowGroupIds ++ [none] }
  else
    match scan.matching table key with
    | some gid => { scan with rowGroupIds := scan.rowGroupIds ++ [some gid] }
    | none =>
      { rowGroupIds := scan.rowGroupIds ++ [some scan.numGroups]
        numGroups := scan.numGroups + 1
        repKeys := scan.repKeys ++ [key]
        hashToRepGroup := scan.hashToRepGroup ++ [(table.hash key, scan.numGroups)] }

/-- `BuildGroupIds`. -/
def buildGroupIds (table : PerTable E V) (keyExprs : List E) (rowFilter : Option RowMask)
    (nullExcludes : Bool) : GroupIds V :=
  if table.numRows = 0 ∨ keyExprs = [] then
    { rowGroupIds := List.replicate table.numRows none }
  else
    ((List.range table.numRows).foldl (GroupScan.row table keyExprs rowFilter nullExcludes) {}).toGroupIds

/-! ## The cache -/

/-- `FormatPerGroupKey`: the values of a key, a NULL and an empty text spelled out. -/
def formatPerGroupKey (table : PerTable E V) (key : List (Option V)) : String :=
  key.foldl
    (fun s v =>
      let s := if s.isEmpty then s else s ++ ", "
      match v with
      | none => s ++ "NULL"
      | some v => s ++ (if (table.toString v).isEmpty then "''" else table.toString v))
    ""

/-- The numbering of all rows for one PER column list. -/
structure PerGroupCacheEntry (E V : Type*) where
  exprs : List E
  nullExcludes : Bool
  unfiltered : GroupIds V

/-- The entries under every `HashPerKey`. -/
abbrev PerGroupCache (E V : Type*) : Type _ := UInt64 → List (PerGroupCacheEntry E V)

/-- `HashPerKey`. -/
def hashPerKey (table : PerTable E V) (perColumns : List E) (nullExcludes : Bool) : UInt64 :=
  perColumns.foldl
    (fun h e => h ^^^ (table.exprHash e + (0x9e3779b97f4a7c15 : UInt64) + (h <<< 6) + (h >>> 2)))
    (if nullExcludes then 1 else 0)

/-- The expressions of two column lists, one by one. -/
def exprsMatch (table : PerTable E V) : List E → List E → Bool
  | [], [] => true
  | e :: exprs, col :: perColumns => table.exprEquals e col && exprsMatch table exprs perColumns
  | _, _ => false

/-- `PerKeyMatches`. -/
def perKeyMatches (table : PerTable E V) (entry : PerGroupCacheEntry E V) (perColumns : List E)
    (nullExcludes : Bool) : Bool :=
  entry.nullExcludes == nullExcludes && exprsMatch table entry.exprs perColumns

/-- The entry of a column list, built and kept if there is none. -/
def PerGroupCache.entry (table : PerTable E V) (cache : PerGroupCache E V) (perColumns : List E)
    (nullExcludes : Bool) : PerGroupCacheEntry E V × PerGroupCache E V :=
  let key := hashPerKey table perColumns nullExcludes
  match (cache key).find? (perKeyMatches table · perColumns nullExcludes) with
  | some entry => (entry, cache)
  | none =>
    let entry : PerGroupCacheEntry E V :=
      { exprs := perColumns
        nullExcludes := nullExcludes
        unfiltered := buildGroupIds table perColumns none nullExcludes }
    (entry, Function.update cache key (cache key ++ [entry]))

/-- What the renumbering of the surviving groups carries. -/
structure GroupRemap where
  remap : Nat → Option Nat := fun _ => none
  nextRemap : Nat := 0
  groupLabels : List String := []
  rowGroupIds : List (Option Nat) := []

/-- One row of the renumbering. -/
def GroupRemap.row (table : PerTable E V) (unfiltered : GroupIds V) (rowFilter : Option RowMask)
    (state : GroupRemap) (row : Nat) : GroupRemap :=
  match groupOf unfiltered.rowGroupIds row with
  | none => { state with rowGroupIds := state.rowGroupIds ++ [none] }
  | some unfGid =>
    if !admits rowFilter row then { state with rowGroupIds := state.rowGroupIds ++ [none] }
    else
      match state.remap unfGid with
      | some mapped => { state with rowGroupIds := state.rowGroupIds ++ [some mapped] }
      | none =>
        { remap := Function.update state.remap unfGid (some state.nextRemap)
          nextRemap := state.nextRemap + 1
          groupLabels := state.groupLabels ++
            [formatPerGroupKey table ((unfiltered.repKeys[unfGid]?).getD [])]
          rowGroupIds := state.rowGroupIds ++ [some state.nextRemap] }

/-- A row of the looser map: in the group its own was given, if that group has a row. -/
def looseGroupId (unfiltered : GroupIds V) (remap : Nat → Option Nat) (looseRowFilter : Option RowMask)
    (row : Nat) : Option Nat :=
  match groupOf unfiltered.rowGroupIds row with
  | none => none
  | some unfGid => if !admits looseRowFilter row then none else remap unfGid

/-- A clause with PER: its columns, the filter of its rows and the looser one of its right-hand side. -/
structure PerRequest (E : Type*) where
  perColumns : List E
  nullExcludes : Bool := true
  rowFilter : Option RowMask := none
  looseRowFilter : Option RowMask := none
  /-- Only a clause with PER asks for groups. -/
  has_per : perColumns ≠ []

/-- What the clause gets. -/
structure PerGroups where
  rowGroupIds : List (Option Nat)
  numGroups : Nat
  groupLabels : List String
  looseRowGroupIds : List (Option Nat)
  deriving DecidableEq, Repr

/-- The view of a numbering behind the filters of a clause. -/
def remapGroups (table : PerTable E V) (unfiltered : GroupIds V) (request : PerRequest E) : PerGroups :=
  if unfiltered.numGroups = 0 ∨ table.numRows = 0 then
    { rowGroupIds := List.replicate table.numRows none
      numGroups := 0
      groupLabels := []
      looseRowGroupIds := List.replicate table.numRows none }
  else
    let state := (List.range table.numRows).foldl (GroupRemap.row table unfiltered request.rowFilter) {}
    { rowGroupIds := state.rowGroupIds
      numGroups := state.nextRemap
      groupLabels := state.groupLabels
      looseRowGroupIds := (List.range table.numRows).map
        (looseGroupId unfiltered state.remap request.looseRowFilter) }

/-- `LookupOrBuildPerGroupIds`, with the cache it leaves. -/
def PerGroupCache.lookupOrBuild (table : PerTable E V) (cache : PerGroupCache E V)
    (request : PerRequest E) : PerGroups × PerGroupCache E V :=
  let found := cache.entry table request.perColumns request.nullExcludes
  (remapGroups table found.1.unfiltered request, found.2)

/-- The clauses of a query one after the other. -/
def PerGroupCache.lookupAll (table : PerTable E V) (cache : PerGroupCache E V) :
    List (PerRequest E) → List PerGroups
  | [] => []
  | request :: requests =>
    let found := cache.lookupOrBuild table request
    found.1 :: PerGroupCache.lookupAll table found.2 requests

/-! ## The rows of the groups -/

/-- The rows of all groups with the place each group starts at. -/
structure GroupCSR where
  offsets : List Nat := []
  flatRows : List Nat := []
  deriving DecidableEq, Repr

/-- `BuildGroupCSR`: count the rows of every group, add up, and put every row at the cursor of its group. -/
def buildGroupCSR (rowGroupIds : List (Option Nat)) (numGroups : Nat) (csr : GroupCSR) : GroupCSR :=
  if rowGroupIds = [] ∨ numGroups = 0 then {}
  else if csr.offsets ≠ [] then csr
  else
    let sorted := countingSort (groupOf rowGroupIds) rowGroupIds.length numGroups id 0
    { offsets := sorted.1, flatRows := sorted.2 }

/-! ## What the numbers say -/

/-- The rows of a group, in row order. -/
def rowsOfGroup (rowGroupIds : List (Option Nat)) (g : Nat) : List Nat :=
  (List.range rowGroupIds.length).filter fun row => groupOf rowGroupIds row = some g

/-- Every row of a group once, under its own group and in row order. -/
structure GroupCSR.Lists (csr : GroupCSR) (rowGroupIds : List (Option Nat)) (numGroups : Nat) :
    Prop where
  slice_eq : ∀ g, g < numGroups → slice csr.offsets csr.flatRows g = rowsOfGroup rowGroupIds g
  flatRows_eq : csr.flatRows = (List.range numGroups).flatMap (rowsOfGroup rowGroupIds)
  nodup : csr.flatRows.Nodup

/-- Two rows with equal key tuples. -/
def PerTable.SameKey (table : PerTable E V) (perColumns : List E) (row row' : Nat) : Prop :=
  keyEquals table.valueEquals (table.key perColumns row) (table.key perColumns row') = true

/-- The key of a row is one that can have a group. -/
def PerRequest.keyCounts (table : PerTable E V) (request : PerRequest E) (row : Nat) : Bool :=
  !(request.nullExcludes && (table.key request.perColumns row).any Option.isNone)

/-- The rows that pass the filter and have no NULL key where one excludes. -/
def PerRequest.survives (table : PerTable E V) (request : PerRequest E) (row : Nat) : Bool :=
  admits request.rowFilter row && request.keyCounts table row

/-- What a clause was given is the numbering of its own filtered rows. -/
structure PerGroups.Exact (table : PerTable E V) (request : PerRequest E) (groups : PerGroups) :
    Prop where
  /-- The direct scan of the filtered rows gives the same. -/
  direct : ∃ repKeys, buildGroupIds table request.perColumns request.rowFilter request.nullExcludes =
    ⟨groups.rowGroupIds, groups.numGroups, repKeys⟩
  length_eq : groups.rowGroupIds.length = table.numRows
  has_group : ∀ row, row < table.numRows →
    ((groupOf groups.rowGroupIds row).isSome = true ↔ request.survives table row = true)
  same_group : ∀ row row', row < table.numRows → row' < table.numRows →
    request.survives table row = true → request.survives table row' = true →
      (groupOf groups.rowGroupIds row = groupOf groups.rowGroupIds row' ↔
        table.SameKey request.perColumns row row')
  group_lt : ∀ row g, groupOf groups.rowGroupIds row = some g → g < groups.numGroups
  dense : ∀ g, g < groups.numGroups → ∃ row, groupOf groups.rowGroupIds row = some g
  first_appearance : ∀ row g h, groupOf groups.rowGroupIds row = some h → g < h →
    ∃ row', row' < row ∧ groupOf groups.rowGroupIds row' = some g
  labels_length : groups.groupLabels.length = groups.numGroups
  label_eq : ∀ row g, groupOf groups.rowGroupIds row = some g →
    ∃ row', row' < table.numRows ∧ table.SameKey request.perColumns row row' ∧
      groups.groupLabels[g]? = some (formatPerGroupKey table (table.key request.perColumns row'))
  loose_length : groups.looseRowGroupIds.length = table.numRows
  /-- The looser map: the rows behind the looser filter whose key has a surviving row. -/
  loose_iff : ∀ row g, row < table.numRows → (groupOf groups.looseRowGroupIds row = some g ↔
    admits request.looseRowFilter row = true ∧ request.keyCounts table row = true ∧
      ∃ row', groupOf groups.rowGroupIds row' = some g ∧ table.SameKey request.perColumns row row')
  csr : (buildGroupCSR groups.rowGroupIds groups.numGroups {}).Lists groups.rowGroupIds groups.numGroups

end Decidb
