import Mathlib.Data.List.Basic
import Mathlib.Data.List.Forall2

/-!
# Constraint trees

The bound SUCH THAT clause: comparisons under conjunctions and WHEN/PER wrappers. A condition is the
mask of the rows it keeps and PER columns are the key they give a row, `none` where one of them is
NULL. What a comparison was written under is the list of wrappers on its path, outermost first.
-/

namespace Decidb

/-- The rows a WHEN condition keeps. -/
abbrev RowMask := Nat → Bool

/-- The key PER columns give a row; `none` when a column is NULL. -/
abbrev RowKey := Nat → Option Nat

/-- A constraint tree over comparisons of type `α`. A conjunction of more than two is nested to the
right. -/
inductive ConstraintTree (α : Type) where
  | comparison (c : α)
  | conjunction (left right : ConstraintTree α)
  | when (constraint : ConstraintTree α) (condition : RowMask)
  | per (constraint : ConstraintTree α) (columns : RowKey)
  /-- The constant an extracted comparison leaves behind. -/
  | placeholder

/-- The same tree over other comparisons. -/
def ConstraintTree.mapLeaves {α β : Type} (f : α → β) : ConstraintTree α → ConstraintTree β
  | .comparison c => .comparison (f c)
  | .conjunction l r => .conjunction (l.mapLeaves f) (r.mapLeaves f)
  | .when t m => .when (t.mapLeaves f) m
  | .per t k => .per (t.mapLeaves f) k
  | .placeholder => .placeholder

/-- One node above a comparison. -/
inductive Enclosure where
  | conjunction
  | when (condition : RowMask)
  | per (columns : RowKey)

/-- The comparisons of a tree with what encloses them, outermost first. -/
def ConstraintTree.leaves {α : Type} : ConstraintTree α → List Enclosure → List (α × List Enclosure)
  | .comparison c, path => [(c, path)]
  | .conjunction l r, path =>
    l.leaves (path ++ [.conjunction]) ++ r.leaves (path ++ [.conjunction])
  | .when t m, path => t.leaves (path ++ [.when m])
  | .per t k, path => t.leaves (path ++ [.per k])
  | .placeholder, _ => []

/-- Every WHEN condition on a path. -/
def whenConditions (path : List Enclosure) : List RowMask :=
  path.filterMap fun
    | .when m => some m
    | _ => none

/-- The columns of every PER on a path. -/
def perColumnSets (path : List Enclosure) : List RowKey :=
  path.filterMap fun
    | .per k => some k
    | _ => none

/-- The group a row falls in under some conditions and some PER columns: the keys it has there, or
`none` when a condition or a NULL key keeps it out. -/
def groupUnder (whens : List RowMask) (pers : List RowKey) (row : Nat) : Option (List (Option Nat)) :=
  if (whens.all fun m => m row) && (pers.all fun k => (k row).isSome) then
    some (pers.map fun k => k row)
  else none

/-- Two ways of grouping the first `numRows` rows keep the same rows and put the same rows
together. -/
structure SameGroups {β γ : Type} (numRows : Nat) (f : Nat → Option β) (g : Nat → Option γ) :
    Prop where
  kept : ∀ r, r < numRows → ((f r).isSome ↔ (g r).isSome)
  together : ∀ r r', r < numRows → r' < numRows → (f r).isSome → (f r').isSome →
    (f r = f r' ↔ g r = g r')

theorem groupUnder_isSome {whens : List RowMask} {pers : List RowKey} {row : Nat} :
    (groupUnder whens pers row).isSome ↔
      (∀ m ∈ whens, m row = true) ∧ ∀ k ∈ pers, (k row).isSome := by
  unfold groupUnder
  by_cases h : ((whens.all fun m => m row) && pers.all fun k => (k row).isSome) = true
  · rw [if_pos h]
    simpa using h
  · rw [if_neg h]
    simpa using h

theorem groupUnder_eq_iff {whens : List RowMask} {pers : List RowKey} {r r' : Nat}
    (hr : (groupUnder whens pers r).isSome) (hr' : (groupUnder whens pers r').isSome) :
    groupUnder whens pers r = groupUnder whens pers r' ↔ ∀ k ∈ pers, k r = k r' := by
  have hsome : ∀ r, (groupUnder whens pers r).isSome →
      groupUnder whens pers r = some (pers.map fun k => k r) := by
    intro r h
    unfold groupUnder at h ⊢
    split at h
    · rename_i hc
      rw [if_pos hc]
    · cases h
  rw [hsome r hr, hsome r' hr', Option.some.injEq, List.map_inj_left]

theorem whenConditions_append (p q : List Enclosure) :
    whenConditions (p ++ q) = whenConditions p ++ whenConditions q := List.filterMap_append

theorem perColumnSets_append (p q : List Enclosure) :
    perColumnSets (p ++ q) = perColumnSets p ++ perColumnSets q := List.filterMap_append

/-- A comparison is found below where the walk starts. -/
theorem exists_suffix_of_mem_leaves {α : Type} {t : ConstraintTree α} :
    ∀ {path₀ : List Enclosure} {leaf : α × List Enclosure}, leaf ∈ t.leaves path₀ →
      ∃ suffix, leaf.2 = path₀ ++ suffix := by
  induction t with
  | comparison c =>
    intro path₀ leaf h
    rw [List.mem_singleton.mp h]
    exact ⟨[], (List.append_nil _).symm⟩
  | placeholder => intro path₀ leaf h; cases h
  | «when» t m ih =>
    intro path₀ leaf h
    obtain ⟨suffix, hs⟩ := ih h
    exact ⟨_, hs.trans (List.append_assoc _ _ _)⟩
  | per t k ih =>
    intro path₀ leaf h
    obtain ⟨suffix, hs⟩ := ih h
    exact ⟨_, hs.trans (List.append_assoc _ _ _)⟩
  | conjunction l r ihl ihr =>
    intro path₀ leaf h
    rcases List.mem_append.mp h with h | h
    · obtain ⟨suffix, hs⟩ := ihl h
      exact ⟨_, hs.trans (List.append_assoc _ _ _)⟩
    · obtain ⟨suffix, hs⟩ := ihr h
      exact ⟨_, hs.trans (List.append_assoc _ _ _)⟩

theorem leaves_mapLeaves {α β : Type} (f : α → β) (t : ConstraintTree α) :
    ∀ path : List Enclosure,
      (t.mapLeaves f).leaves path = (t.leaves path).map fun leaf => (f leaf.1, leaf.2) := by
  induction t with
  | comparison c => intro path; rfl
  | placeholder => intro path; rfl
  | «when» t m ih => intro path; exact ih _
  | per t k ih => intro path; exact ih _
  | conjunction l r ihl ihr =>
    intro path
    simp only [ConstraintTree.mapLeaves, ConstraintTree.leaves, ihl, ihr, List.map_append]

end Decidb
