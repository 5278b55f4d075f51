import Mathlib.Data.List.Induction
import Decidb.Optimizer.AnalyzeConstraint

/-!
# Which wrappers reach a prepared constraint

`AnalyzeConstraint` prepares one constraint for each comparison that is not absorbed, in order, under
the wrappers `walkPath` keeps. It is evaluated as written exactly when the wrappers that were lost on
the way change nothing on the rows that are left.
-/

namespace Decidb

variable {α : Type} {absorbed : α → Bool}

/-- The constraint a comparison is prepared as. -/
def prepareLeaf (leaf : α × List Enclosure) : DecideConstraint α :=
  ⟨leaf.1, (walkPath leaf.2).whenCondition, (walkPath leaf.2).perColumns⟩

@[simp] theorem walkPath_snoc (path : List Enclosure) (e : Enclosure) :
    walkPath (path ++ [e]) = (walkPath path).enter e := by
  simp [walkPath]

/-- One prepared constraint per comparison that is not absorbed. -/
theorem analyzeConstraint_eq (t : ConstraintTree α) : ∀ path : List Enclosure,
    analyzeConstraint absorbed t (walkPath path).whenCondition (walkPath path).perColumns =
      ((t.leaves path).filter fun leaf => !absorbed leaf.1).map prepareLeaf := by
  induction t with
  | comparison c =>
    intro path
    cases h : absorbed c <;> simp [analyzeConstraint, ConstraintTree.leaves, h, prepareLeaf]
  | conjunction l r ihl ihr =>
    intro path
    rw [ConstraintTree.leaves, List.filter_append, List.map_append, ← ihl, ← ihr, walkPath_snoc]
    rfl
  | when t m ih =>
    intro path
    rw [ConstraintTree.leaves, ← ih, walkPath_snoc]
    rfl
  | per t k ih =>
    intro path
    rw [ConstraintTree.leaves, ← ih, walkPath_snoc]
    rfl
  | placeholder => intro path; rfl

/-- A condition on a path is kept or lost. -/
theorem mem_whenConditions {path : List Enclosure} {m : RowMask} :
    m ∈ whenConditions path ↔
      m ∈ (walkPath path).lostWhens ∨ m ∈ (walkPath path).whenCondition.toList := by
  induction path using List.reverseRecOn with
  | nil => simp [whenConditions, walkPath]
  | append_singleton path e ih =>
    rw [walkPath_snoc, whenConditions, List.filterMap_append, List.mem_append]
    change m ∈ whenConditions path ∨ _ ↔ _
    rw [ih]
    cases e <;> simp [WalkedWrappers.enter]

/-- PER columns on a path are kept or lost. -/
theorem mem_perColumnSets {path : List Enclosure} {k : RowKey} :
    k ∈ perColumnSets path ↔
      k ∈ (walkPath path).lostPers ∨ k ∈ (walkPath path).perColumns.toList := by
  induction path using List.reverseRecOn with
  | nil => simp [perColumnSets, walkPath]
  | append_singleton path e ih =>
    rw [walkPath_snoc, perColumnSets, List.filterMap_append, List.mem_append]
    change k ∈ perColumnSets path ∨ _ ↔ _
    rw [ih]
    cases e <;> simp [WalkedWrappers.enter]

/-- The wrappers lost on the way to a comparison change nothing: no lost condition excludes a row
the kept wrappers keep, and no lost PER drops such a row or separates two rows kept together. -/
structure LosesNothing (numRows : Nat) (w : WalkedWrappers) : Prop where
  whens : ∀ r, r < numRows → (groupUnder w.whenCondition.toList w.perColumns.toList r).isSome →
    ∀ m ∈ w.lostWhens, m r = true
  pers : ∀ r, r < numRows → (groupUnder w.whenCondition.toList w.perColumns.toList r).isSome →
    ∀ k ∈ w.lostPers, (k r).isSome
  together : ∀ r r', r < numRows → r' < numRows →
    (groupUnder w.whenCondition.toList w.perColumns.toList r).isSome →
    groupUnder w.whenCondition.toList w.perColumns.toList r =
      groupUnder w.whenCondition.toList w.perColumns.toList r' →
    ∀ k ∈ w.lostPers, k r = k r'

/-- The kept wrappers group the rows as all of them do exactly when the lost ones change nothing. -/
theorem sameGroups_iff (numRows : Nat) (path : List Enclosure) :
    SameGroups numRows
        (groupUnder (walkPath path).whenCondition.toList (walkPath path).perColumns.toList)
        (groupUnder (whenConditions path) (perColumnSets path)) ↔
      LosesNothing numRows (walkPath path) := by
  set w := walkPath path
  have hall : ∀ r, (groupUnder (whenConditions path) (perColumnSets path) r).isSome ↔
      (groupUnder w.whenCondition.toList w.perColumns.toList r).isSome ∧
        (∀ m ∈ w.lostWhens, m r = true) ∧ ∀ k ∈ w.lostPers, (k r).isSome := by
    intro r
    rw [groupUnder_isSome, groupUnder_isSome]
    constructor
    · rintro ⟨hw, hp⟩
      exact ⟨⟨fun m hm => hw m (mem_whenConditions.mpr (Or.inr hm)),
        fun k hk => hp k (mem_perColumnSets.mpr (Or.inr hk))⟩,
        fun m hm => hw m (mem_whenConditions.mpr (Or.inl hm)),
        fun k hk => hp k (mem_perColumnSets.mpr (Or.inl hk))⟩
    · rintro ⟨⟨hw, hp⟩, hlw, hlp⟩
      exact ⟨fun m hm => (mem_whenConditions.mp hm).elim (hlw m) (hw m),
        fun k hk => (mem_perColumnSets.mp hk).elim (hlp k) (hp k)⟩
  constructor
  · intro h
    have hkept : ∀ r, r < numRows →
        (groupUnder w.whenCondition.toList w.perColumns.toList r).isSome →
        (groupUnder (whenConditions path) (perColumnSets path) r).isSome := fun r hr hs =>
      (h.kept r hr).mp hs
    refine ⟨fun r hr hs => ((hall r).mp (hkept r hr hs)).2.1,
      fun r hr hs => ((hall r).mp (hkept r hr hs)).2.2, fun r r' hr hr' hs heq k hk => ?_⟩
    have hs' : (groupUnder w.whenCondition.toList w.perColumns.toList r').isSome := heq ▸ hs
    have := (h.together r r' hr hr' hs hs').mp heq
    rw [groupUnder_eq_iff (hkept r hr hs) (hkept r' hr' hs')] at this
    exact this k (mem_perColumnSets.mpr (Or.inl hk))
  · intro h
    have hkept : ∀ r, r < numRows →
        (groupUnder w.whenCondition.toList w.perColumns.toList r).isSome →
        (groupUnder (whenConditions path) (perColumnSets path) r).isSome := fun r hr hs =>
      (hall r).mpr ⟨hs, h.whens r hr hs, h.pers r hr hs⟩
    refine ⟨fun r hr => ⟨hkept r hr, fun hs => ((hall r).mp hs).1⟩, fun r r' hr hr' hs hs' => ?_⟩
    rw [groupUnder_eq_iff (hkept r hr hs) (hkept r' hr' hs'), groupUnder_eq_iff hs hs']
    constructor
    · intro heq k hk
      rcases mem_perColumnSets.mp hk with hk | hk
      · exact h.together r r' hr hr' hs ((groupUnder_eq_iff hs hs').mpr heq) k hk
      · exact heq k hk
    · intro heq k hk
      exact heq k (mem_perColumnSets.mpr (Or.inr hk))

/-- A tree is prepared as written: one constraint per comparison that is not absorbed, on the rows
that pass every enclosing WHEN and have a key under every enclosing PER, grouped by these keys. -/
def PreparedAsWritten (absorbed : α → Bool) (numRows : Nat) (t : ConstraintTree α) : Prop :=
  List.Forall₂
    (fun (c : DecideConstraint α) (leaf : α × List Enclosure) => c.comparison = leaf.1 ∧
      SameGroups numRows c.group (groupUnder (whenConditions leaf.2) (perColumnSets leaf.2)))
    (analyzeConstraint absorbed t none none)
    ((t.leaves []).filter fun leaf => !absorbed leaf.1)

/-- **`AnalyzeConstraint` is exact iff no comparison loses a wrapper that matters to it.** -/
theorem preparedAsWritten_iff (numRows : Nat) (t : ConstraintTree α) :
    PreparedAsWritten absorbed numRows t ↔
      ∀ leaf ∈ t.leaves [], absorbed leaf.1 = false → LosesNothing numRows (walkPath leaf.2) := by
  have heq : analyzeConstraint absorbed t none none = _ := analyzeConstraint_eq t []
  rw [PreparedAsWritten, heq, List.forall₂_map_left_iff, List.forall₂_same]
  constructor
  · intro h leaf hleaf habs
    have := h leaf (List.mem_filter.mpr ⟨hleaf, by simp [habs]⟩)
    exact (sameGroups_iff numRows leaf.2).mp this.2
  · intro h leaf hleaf
    obtain ⟨hleaf, habs⟩ := List.mem_filter.mp hleaf
    exact ⟨rfl, (sameGroups_iff numRows leaf.2).mpr (h leaf hleaf (by simpa using habs))⟩

/-- `x BETWEEN 1 AND 5 WHEN c` is bound as a conjunction under the wrapper, and loses it: with `c`
true on the first of two rows only, both halves are prepared for both rows. -/
theorem between_under_when_not_preparedAsWritten :
    ¬ PreparedAsWritten (fun _ => false) 2
      (.when (.conjunction (.comparison "x >= 1") (.comparison "x <= 5")) fun r => r == 0) := by
  intro h
  unfold PreparedAsWritten at h
  simp only [analyzeConstraint, ConstraintTree.leaves, List.nil_append, List.cons_append,
    Bool.false_eq_true, if_false] at h
  cases h with
  | cons hfirst _ =>
    have := (hfirst.2.kept 1 (by decide)).mp (by decide)
    exact absurd this (by decide)

end Decidb
