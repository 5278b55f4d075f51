import Decidb.Optimizer.ConstraintTree

/-!
# Preparing the constraints of a tree

`AnalyzeConstraint` walks the tree with the WHEN condition and the PER columns it is under and
prepares one constraint per comparison.
-/

namespace Decidb

/-- A prepared constraint: the comparison, and the wrappers it is evaluated under. -/
structure DecideConstraint (α : Type) where
  comparison : α
  whenCondition : Option RowMask := none
  perColumns : Option RowKey := none

/-- `AnalyzeConstraint`. Comparisons absorbed into a column box are skipped. -/
def analyzeConstraint {α : Type} (absorbed : α → Bool) :
    ConstraintTree α → Option RowMask → Option RowKey → List (DecideConstraint α)
  | .per t columns, whenCondition, _ => analyzeConstraint absorbed t whenCondition (some columns)
  | .when t condition, _, perColumns => analyzeConstraint absorbed t (some condition) perColumns
  -- a plain conjunction analyzes its children with the default arguments
  | .conjunction l r, _, _ =>
    analyzeConstraint absorbed l none none ++ analyzeConstraint absorbed r none none
  | .comparison c, whenCondition, perColumns =>
    if absorbed c then [] else [⟨c, whenCondition, perColumns⟩]
  | .placeholder, _, _ => []

/-- The group of a row under a prepared constraint. -/
def DecideConstraint.group {α : Type} (c : DecideConstraint α) : Nat → Option (List (Option Nat)) :=
  groupUnder c.whenCondition.toList c.perColumns.toList

/-- The wrappers of a path that survive the walk, and those it loses. -/
structure WalkedWrappers where
  whenCondition : Option RowMask := none
  perColumns : Option RowKey := none
  lostWhens : List RowMask := []
  lostPers : List RowKey := []

/-- One node of the walk. -/
def WalkedWrappers.enter (w : WalkedWrappers) : Enclosure → WalkedWrappers
  | .conjunction =>
    { lostWhens := w.lostWhens ++ w.whenCondition.toList
      lostPers := w.lostPers ++ w.perColumns.toList }
  | .when m =>
    { w with
      whenCondition := some m
      lostWhens := w.lostWhens ++ w.whenCondition.toList }
  | .per k =>
    { w with
      perColumns := some k
      lostPers := w.lostPers ++ w.perColumns.toList }

/-- What the walk makes of a path. -/
def walkPath (path : List Enclosure) : WalkedWrappers :=
  path.foldl WalkedWrappers.enter {}

end Decidb
