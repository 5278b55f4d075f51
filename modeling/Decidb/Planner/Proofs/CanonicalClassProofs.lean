import Decidb.Planner.Proofs.CanonicalFormProofs

/-!
# What a reduced constraint is reduced to

A comparison that is classified as reduced has on its left one number for each group of rows: its reducers
are reduced over the group, and what stands beside them is one value for the whole query.
-/

namespace Decidb

open ClauseExpr

/-! ## Nodes of an expression -/

/-- A node of an expression, at any depth. -/
inductive ClauseExpr.Part (node : ClauseExpr) : ClauseExpr → Prop
  | self : node.Part node
  | child {inner expr : ClauseExpr} (hmem : inner ∈ expr.children) (h : node.Part inner) : node.Part expr

theorem ClauseExpr.sizeOf_lt_of_mem_children {child expr : ClauseExpr} (h : child ∈ expr.children) :
    sizeOf child < sizeOf expr := by
  cases expr with
  | columnRef nodeAlias tableIndex columnIndex => cases h
  | constant nodeAlias value => cases h
  | subquery nodeAlias id isScalar isCorrelated args =>
    have : sizeOf child < sizeOf args := List.sizeOf_lt_of_mem h
    simp only [subquery.sizeOf_spec]
    omega
  | cast nodeAlias targetType inner =>
    obtain rfl := List.mem_singleton.mp h
    simp only [cast.sizeOf_spec]
    omega
  | function nodeAlias isVolatile kind args =>
    have : sizeOf child < sizeOf args := List.sizeOf_lt_of_mem h
    simp only [function.sizeOf_spec]
    omega
  | aggregate nodeAlias name args rest =>
    simp only [aggregate.sizeOf_spec]
    rcases List.mem_append.mp h with h | h
    · have := List.sizeOf_lt_of_mem h
      omega
    · have := List.sizeOf_lt_of_mem h
      omega
  | other nodeAlias name neverFolds args =>
    have : sizeOf child < sizeOf args := List.sizeOf_lt_of_mem h
    simp only [other.sizeOf_spec]
    omega

/-- Induction over the children of a node. -/
theorem ClauseExpr.childInduction {motive : ClauseExpr → Prop}
    (node : ∀ expr : ClauseExpr, (∀ child ∈ expr.children, motive child) → motive expr) (expr : ClauseExpr) :
    motive expr :=
  node expr fun child h =>
    have := ClauseExpr.sizeOf_lt_of_mem_children h
    ClauseExpr.childInduction node child
termination_by sizeOf expr

/-! ## One value -/

/-- The same value at every two rows that belong together. -/
def ConstantOn (together : Nat → Nat → Prop) (value : Nat → Option ℚ) : Prop :=
  ∀ row row', together row row' → value row = value row'

namespace DecideCanonicalizer

variable {c : DecideCanonicalizer} {env : ClauseEnv} {together : Nat → Nat → Prop}

/-- What the evidence the pass is given stands for, over the nodes of one expression: what is marked
query-wide has one value, and no function or operator of it changes its result from row to row. -/
structure EvidenceSound (c : DecideCanonicalizer) (env : ClauseEnv) (together : Nat → Nat → Prop)
    (expr : ClauseExpr) : Prop where
  tagged : ∀ node : ClauseExpr, node.Part expr → node.getAlias.hasTag queryWideValueTag = true →
    ConstantOn together (env.eval c.decideIndex node)
  table : ∀ tableIndex columnIndex, c.isQueryWideTable tableIndex = true →
    ConstantOn together (env.column tableIndex columnIndex)
  scalar : ∀ varIdx, c.isScalarVariable varIdx = true → ConstantOn together (env.column c.decideIndex varIdx)
  subquery : ∀ nodeAlias id children, (ClauseExpr.subquery nodeAlias id true false children).Part expr →
    ConstantOn together (env.subquery id)
  function : ∀ nodeAlias isVolatile kind children, (ClauseExpr.function nodeAlias isVolatile kind children).Part expr →
    ∀ args row row', together row row' → env.functionValue kind row args = env.functionValue kind row' args
  other : ∀ nodeAlias name neverFolds children, (ClauseExpr.other nodeAlias name neverFolds children).Part expr →
    ∀ args : List (Nat → Option ℚ), (∀ arg ∈ args, ConstantOn together arg) → ConstantOn together (env.other name args)
  /-- A reducer is reduced over the rows that belong together. -/
  aggregate : ∀ name args rest, ConstantOn together (env.aggregate name args rest)

theorem EvidenceSound.child {expr inner : ClauseExpr} (h : c.EvidenceSound env together expr)
    (hmem : inner ∈ expr.children) : c.EvidenceSound env together inner where
  tagged node hnode := h.tagged node (.child hmem hnode)
  table := h.table
  scalar := h.scalar
  subquery nodeAlias id children hnode := h.subquery nodeAlias id children (.child hmem hnode)
  function nodeAlias isVolatile kind children hnode := h.function nodeAlias isVolatile kind children (.child hmem hnode)
  other nodeAlias name neverFolds children hnode := h.other nodeAlias name neverFolds children (.child hmem hnode)
  aggregate := h.aggregate

theorem constantOn_cast {nodeAlias : NodeAlias} {targetType : String} {child : ClauseExpr}
    (hchild : ConstantOn together (env.eval c.decideIndex child)) :
    ConstantOn together (env.eval c.decideIndex (.cast nodeAlias targetType child)) := by
  intro row row' h
  by_cases hdecide : child.referencesDecide c.decideIndex = true
  · rw [env.eval_cast_of_referencesDecide _ hdecide, hchild row row' h]
  · have hdecide : child.referencesDecide c.decideIndex = false := by simpa using hdecide
    rw [env.eval_cast_of_not _ hdecide, env.eval_cast_of_not _ hdecide, hchild row row' h]

theorem constantOn_function {nodeAlias : NodeAlias} {isVolatile : Bool} {kind : FunctionKind}
    {children : List ClauseExpr}
    (h : c.EvidenceSound env together (.function nodeAlias isVolatile kind children))
    (hchildren : ∀ child ∈ children, ConstantOn together (env.eval c.decideIndex child)) :
    ConstantOn together (env.eval c.decideIndex (.function nodeAlias isVolatile kind children)) := by
  intro row row' htogether
  have hargs : (children.map fun child => env.eval c.decideIndex child row) =
      children.map fun child => env.eval c.decideIndex child row' :=
    List.map_congr_left fun child hmem => hchildren child hmem row row' htogether
  rw [env.eval_function, env.eval_function, hargs]
  exact h.function nodeAlias isVolatile kind children .self _ row row' htogether

theorem constantOn_other {nodeAlias : NodeAlias} {name : String} {neverFolds : Bool} {children : List ClauseExpr}
    (h : c.EvidenceSound env together (.other nodeAlias name neverFolds children))
    (hchildren : ∀ child ∈ children, ConstantOn together (env.eval c.decideIndex child)) :
    ConstantOn together (env.eval c.decideIndex (.other nodeAlias name neverFolds children)) := by
  rw [ClauseEnv.eval, env.evalAll_eq]
  refine h.other nodeAlias name neverFolds children .self _ fun arg hmem => ?_
  obtain ⟨child, hchild, rfl⟩ := List.mem_map.mp hmem
  exact hchildren child hchild

theorem allQueryWideConstant_eq (children : List ClauseExpr) :
    c.allQueryWideConstant children = children.all c.isQueryWideConstant := by
  induction children with
  | nil => rfl
  | cons child children ih => rw [allQueryWideConstant, ih, List.all_cons]

theorem allQueryWideExpression_eq (children : List ClauseExpr) :
    c.allQueryWideExpression children = children.all c.isQueryWideExpression := by
  induction children with
  | nil => rfl
  | cons child children ih => rw [allQueryWideExpression, ih, List.all_cons]

/-- What folds is one value. -/
theorem constantOn_of_isFoldable (expr : ClauseExpr) : c.EvidenceSound env together expr → expr.isFoldable = true →
    ConstantOn together (env.eval c.decideIndex expr) := by
  induction expr using ClauseExpr.childInduction with
  | node expr ih =>
    intro h hfold
    cases expr with
    | columnRef nodeAlias tableIndex columnIndex => cases hfold
    | constant nodeAlias value =>
      rw [ClauseEnv.eval]
      exact fun _ _ _ => rfl
    | subquery nodeAlias id isScalar isCorrelated children => cases hfold
    | cast nodeAlias targetType child =>
      exact constantOn_cast (ih child (List.mem_singleton.mpr rfl) (h.child (List.mem_singleton.mpr rfl)) hfold)
    | function nodeAlias isVolatile kind children =>
      rw [isFoldable, allFoldable_eq, Bool.and_eq_true, List.all_eq_true] at hfold
      exact constantOn_function h fun child hmem => ih child hmem (h.child hmem) (hfold.2 child hmem)
    | aggregate nodeAlias name children rest => cases hfold
    | other nodeAlias name neverFolds children =>
      rw [isFoldable, allFoldable_eq, Bool.and_eq_true, List.all_eq_true] at hfold
      exact constantOn_other h fun child hmem => ih child hmem (h.child hmem) (hfold.2 child hmem)

theorem constantOn_subquery {nodeAlias : NodeAlias} {id : Nat} {isScalar isCorrelated : Bool}
    {children : List ClauseExpr}
    (h : c.EvidenceSound env together (.subquery nodeAlias id isScalar isCorrelated children))
    (hwide : (isScalar && !isCorrelated) = true) :
    ConstantOn together (env.eval c.decideIndex (.subquery nodeAlias id isScalar isCorrelated children)) := by
  rw [Bool.and_eq_true, Bool.not_eq_true'] at hwide
  obtain ⟨rfl, rfl⟩ := hwide
  rw [ClauseEnv.eval]
  exact h.subquery nodeAlias id children .self

/-- A query-wide constant is one value. -/
theorem constantOn_of_isQueryWideConstant (expr : ClauseExpr) :
    c.EvidenceSound env together expr → c.isQueryWideConstant expr = true →
      ConstantOn together (env.eval c.decideIndex expr) := by
  induction expr using ClauseExpr.childInduction with
  | node expr ih =>
    intro h hwide
    cases expr with
    | columnRef nodeAlias tableIndex columnIndex =>
      rw [isQueryWideConstant, Bool.or_eq_true] at hwide
      rcases hwide with htag | htable
      · exact h.tagged _ .self htag
      · rw [ClauseEnv.eval]
        exact h.table tableIndex columnIndex htable
    | constant nodeAlias value => exact constantOn_of_isFoldable _ h rfl
    | subquery nodeAlias id isScalar isCorrelated children =>
      rw [isQueryWideConstant, Bool.or_eq_true] at hwide
      exact hwide.elim (h.tagged _ .self) (constantOn_subquery h)
    | cast nodeAlias targetType child =>
      rw [isQueryWideConstant, Bool.or_eq_true, Bool.or_eq_true] at hwide
      rcases hwide with (htag | hfold) | hchild
      · exact h.tagged _ .self htag
      · exact constantOn_of_isFoldable _ h hfold
      · exact constantOn_cast (ih child (List.mem_singleton.mpr rfl) (h.child (List.mem_singleton.mpr rfl)) hchild)
    | function nodeAlias isVolatile kind children =>
      rw [isQueryWideConstant, Bool.or_eq_true, Bool.or_eq_true] at hwide
      rcases hwide with (htag | hfold) | hchildren
      · exact h.tagged _ .self htag
      · exact constantOn_of_isFoldable _ h hfold
      · rw [Bool.and_eq_true, allQueryWideConstant_eq, List.all_eq_true] at hchildren
        exact constantOn_function h fun child hmem => ih child hmem (h.child hmem) (hchildren.2 child hmem)
    | aggregate nodeAlias name children rest => exact h.tagged _ .self hwide
    | other nodeAlias name neverFolds children =>
      rw [isQueryWideConstant, Bool.or_eq_true] at hwide
      exact hwide.elim (h.tagged _ .self) (constantOn_of_isFoldable _ h)

/-- A query-wide expression is one value, over decisions that are one for the whole query. -/
theorem constantOn_of_isQueryWideExpression (expr : ClauseExpr) :
    c.EvidenceSound env together expr → c.isQueryWideExpression expr = true →
      ConstantOn together (env.eval c.decideIndex expr) := by
  induction expr using ClauseExpr.childInduction with
  | node expr ih =>
    intro h hwide
    cases expr with
    | columnRef nodeAlias tableIndex columnIndex =>
      rw [isQueryWideExpression, Bool.or_eq_true] at hwide
      rcases hwide with htag | hcolumn
      · exact h.tagged _ .self htag
      · rw [ClauseEnv.eval]
        split at hcolumn
        · rename_i hdecide
          rw [beq_iff_eq.mp hdecide]
          exact h.scalar columnIndex hcolumn
        · exact h.table tableIndex columnIndex hcolumn
    | constant nodeAlias value => exact constantOn_of_isFoldable _ h rfl
    | subquery nodeAlias id isScalar isCorrelated children =>
      rw [isQueryWideExpression, Bool.or_eq_true] at hwide
      exact hwide.elim (h.tagged _ .self) (constantOn_subquery h)
    | cast nodeAlias targetType child =>
      rw [isQueryWideExpression, Bool.or_eq_true, Bool.or_eq_true] at hwide
      rcases hwide with (htag | hfold) | hchild
      · exact h.tagged _ .self htag
      · exact constantOn_of_isFoldable _ h hfold
      · exact constantOn_cast (ih child (List.mem_singleton.mpr rfl) (h.child (List.mem_singleton.mpr rfl)) hchild)
    | function nodeAlias isVolatile kind children =>
      rw [isQueryWideExpression, Bool.or_eq_true, Bool.or_eq_true] at hwide
      rcases hwide with (htag | hfold) | hchildren
      · exact h.tagged _ .self htag
      · exact constantOn_of_isFoldable _ h hfold
      · rw [Bool.and_eq_true, allQueryWideExpression_eq, List.all_eq_true] at hchildren
        exact constantOn_function h fun child hmem => ih child hmem (h.child hmem) (hchildren.2 child hmem)
    | aggregate nodeAlias name children rest => exact h.tagged _ .self hwide
    | other nodeAlias name neverFolds children =>
      rw [isQueryWideExpression, Bool.or_eq_true, Bool.or_eq_true] at hwide
      rcases hwide with (htag | hfold) | hchildren
      · exact h.tagged _ .self htag
      · exact constantOn_of_isFoldable _ h hfold
      · rw [Bool.and_eq_true, allQueryWideExpression_eq, List.all_eq_true] at hchildren
        exact constantOn_other h fun child hmem => ih child hmem (h.child hmem) (hchildren.2 child hmem)

/-! ## The left side of a reduced comparison -/

theorem constantOn_of_isAggregate {expr : ClauseExpr}
    (haggregate : ∀ name args rest, ConstantOn together (env.aggregate name args rest))
    (h : (expr.unwrapDecideCasts c.decideIndex).isAggregate = true) :
    ConstantOn together (env.eval c.decideIndex expr) := by
  obtain ⟨nodeAlias, name, children, rest, hroot⟩ := isAggregate_iff.mp h
  rw [← env.eval_unwrapDecideCasts, hroot, ClauseEnv.eval]
  exact haggregate name _ _

/-- The factors taken off an expression are nodes of it. -/
theorem evidenceSound_factors {clause : ClauseKind} {expr : ClauseExpr} {peeled : PeeledFactors}
    (h : c.peelFactors clause expr = .ok peeled) (hsound : c.EvidenceSound env together expr) :
    ∀ factor ∈ peeled.multipliers ++ peeled.divisors, c.EvidenceSound env together factor := by
  fun_induction c.peelFactors clause expr generalizing peeled with
  | case1 nodeAlias targetType child hdecide ih => exact ih h (hsound.child (List.mem_singleton.mpr rfl))
  | case2 nodeAlias targetType child hdecide =>
    cases h
    exact fun _ hmem => absurd hmem List.not_mem_nil
  | case3 nodeAlias isVolatile a b hscale ih =>
    obtain ⟨u, -, h⟩ := bind_eq_ok.mp h
    obtain ⟨inner, hinner, h⟩ := bind_eq_ok.mp h
    obtain rfl := pure_eq_ok.mp h
    intro factor hmem
    rcases List.mem_cons.mp hmem with rfl | hmem
    · exact hsound.child (List.mem_cons_of_mem _ List.mem_cons_self)
    · exact ih hinner (hsound.child List.mem_cons_self) factor hmem
  | case4 nodeAlias isVolatile a b hscale hscale' ih =>
    obtain ⟨u, -, h⟩ := bind_eq_ok.mp h
    obtain ⟨inner, hinner, h⟩ := bind_eq_ok.mp h
    obtain rfl := pure_eq_ok.mp h
    intro factor hmem
    rcases List.mem_cons.mp hmem with rfl | hmem
    · exact hsound.child List.mem_cons_self
    · exact ih hinner (hsound.child (List.mem_cons_of_mem _ List.mem_cons_self)) factor hmem
  | case5 nodeAlias isVolatile a b hscale hscale' =>
    cases h
    exact fun _ hmem => absurd hmem List.not_mem_nil
  | case6 nodeAlias isVolatile a b hscale ih =>
    obtain ⟨u, -, h⟩ := bind_eq_ok.mp h
    obtain ⟨inner, hinner, h⟩ := bind_eq_ok.mp h
    obtain rfl := pure_eq_ok.mp h
    intro factor hmem
    have hinnerSound := ih hinner (hsound.child List.mem_cons_self)
    rcases List.mem_append.mp hmem with hmem | hmem
    · exact hinnerSound factor (List.mem_append_left _ hmem)
    · rcases List.mem_cons.mp hmem with rfl | hmem
      · exact hsound.child (List.mem_cons_of_mem _ List.mem_cons_self)
      · exact hinnerSound factor (List.mem_append_right _ hmem)
  | case7 nodeAlias isVolatile a b hscale =>
    cases h
    exact fun _ hmem => absurd hmem List.not_mem_nil
  | case8 expr h₁ h₂ h₃ =>
    cases h
    exact fun _ hmem => absurd hmem List.not_mem_nil

theorem constantOn_factorsValue {factors : List ClauseExpr}
    (h : ∀ factor ∈ factors, ConstantOn together (env.eval c.decideIndex factor)) :
    ∀ row row', together row row' → factorsValue c env row factors = factorsValue c env row' factors := by
  intro row row' htogether
  have hvalues : (factors.map fun factor => env.eval c.decideIndex factor row) =
      factors.map fun factor => env.eval c.decideIndex factor row' :=
    List.map_congr_left fun factor hmem => h factor hmem row row' htogether
  dsimp only [factorsValue]
  rw [hvalues]

/-- A term boundary whose term may stand beside a reducer has one value for each group. -/
theorem constantOn_atomOf {clause : ClauseKind} {sign : ℤˣ} {expr : ClauseExpr} {atoms : List Atom}
    (h : c.atomOf clause sign expr = .ok atoms) (hreduced : ∀ atom ∈ atoms, c.isReducedTerm atom = true)
    (hsound : c.EvidenceSound env together expr) : ConstantOn together (env.eval c.decideIndex expr) := by
  obtain ⟨peeled, hpeeled, h⟩ := bind_eq_ok.mp h
  obtain rfl := pure_eq_ok.mp h
  have hterm := hreduced _ (List.mem_singleton.mpr rfl)
  rw [isReducedTerm, Bool.and_eq_true] at hterm
  obtain ⟨-, hterm⟩ := hterm
  obtain ⟨factors, hfactors, hpeeled⟩ := bind_eq_ok.mp hpeeled
  obtain ⟨-, hall, hscalable, htaken⟩ := peelsTo_peelFactors hfactors
  split at hpeeled
  · obtain rfl := pure_eq_ok.mp hpeeled
    dsimp only at hterm
    split at hterm
    · rw [Bool.and_eq_true] at hterm
      exact constantOn_of_isAggregate hsound.aggregate hterm.1
    · exact constantOn_of_isQueryWideExpression expr hsound hterm
  · rename_i hne
    obtain ⟨composed, hcomposed, hpeeled⟩ := bind_eq_ok.mp hpeeled
    obtain rfl := pure_eq_ok.mp hpeeled
    have htakenNe : factors.multipliers ++ factors.divisors ≠ [] := by
      intro hnil
      obtain ⟨hm, hv⟩ := List.append_eq_nil_iff.mp hnil
      exact hne (by rw [hm, hv]; rfl)
    dsimp only at hterm
    rw [if_pos (isScalable_iff.mp (hscalable (htaken htakenNe))).1, Bool.and_eq_true] at hterm
    have hconstant : ∀ factor ∈ factors.multipliers ++ factors.divisors,
        ConstantOn together (env.eval c.decideIndex factor) := fun factor hmem =>
      constantOn_of_isQueryWideConstant factor (evidenceSound_factors hfactors hsound factor hmem)
        (hall factor hmem).queryWide
    have hmultipliers := constantOn_factorsValue fun factor hmem => hconstant factor (List.mem_append_left _ hmem)
    have hdivisors := constantOn_factorsValue fun factor hmem => hconstant factor (List.mem_append_right _ hmem)
    have hbare := constantOn_of_isAggregate hsound.aggregate hterm.1
    intro row row' htogether
    rw [← eval_peelFactors hfactors row, ← eval_peelFactors hfactors row', hmultipliers row row' htogether,
      hdivisors row row' htogether, hbare row row' htogether]

/-- A side all of whose terms may stand beside a reducer has one value for each group. -/
theorem constantOn_decompose {clause : ClauseKind} {expr : ClauseExpr} {sign : ℤˣ} {atoms : List Atom}
    (h : c.decompose clause expr sign = .ok atoms) (hreduced : ∀ atom ∈ atoms, c.isReducedTerm atom = true)
    (hsound : c.EvidenceSound env together expr) : ConstantOn together (env.eval c.decideIndex expr) := by
  fun_induction c.decompose clause expr sign generalizing atoms with
  | case1 nodeAlias isVolatile a b sign iha ihb =>
    obtain ⟨left, hleft, h⟩ := bind_eq_ok.mp h
    obtain ⟨right, hright, h⟩ := bind_eq_ok.mp h
    obtain rfl := pure_eq_ok.mp h
    have ha := iha hleft (fun atom hmem => hreduced atom (List.mem_append_left _ hmem))
      (hsound.child List.mem_cons_self)
    have hb := ihb hright (fun atom hmem => hreduced atom (List.mem_append_right _ hmem))
      (hsound.child (List.mem_cons_of_mem _ List.mem_cons_self))
    exact constantOn_function hsound (List.forall_mem_cons.mpr ⟨ha, List.forall_mem_singleton.mpr hb⟩)
  | case2 nodeAlias isVolatile a b sign iha ihb =>
    obtain ⟨left, hleft, h⟩ := bind_eq_ok.mp h
    obtain ⟨right, hright, h⟩ := bind_eq_ok.mp h
    obtain rfl := pure_eq_ok.mp h
    have ha := iha hleft (fun atom hmem => hreduced atom (List.mem_append_left _ hmem))
      (hsound.child List.mem_cons_self)
    have hb := ihb hright (fun atom hmem => hreduced atom (List.mem_append_right _ hmem))
      (hsound.child (List.mem_cons_of_mem _ List.mem_cons_self))
    exact constantOn_function hsound (List.forall_mem_cons.mpr ⟨ha, List.forall_mem_singleton.mpr hb⟩)
  | case3 nodeAlias isVolatile a sign ih =>
    exact constantOn_function hsound
      (List.forall_mem_singleton.mpr (ih h hreduced (hsound.child List.mem_cons_self)))
  | case4 nodeAlias targetType child sign hdecide ih =>
    exact constantOn_cast (ih h hreduced (hsound.child (List.mem_singleton.mpr rfl)))
  | case5 nodeAlias targetType child sign hdecide => exact constantOn_atomOf h hreduced hsound
  | case6 expr sign h₁ h₂ h₃ h₄ => exact constantOn_atomOf h hreduced hsound

/-- The terms of a comparison that is reduced may all stand beside a reducer. -/
theorem reduced_of_aggregate {comparison : ClauseComparison}
    (h : c.classifyCanonicalComparison comparison = .ok .aggregate) :
    ∃ atoms, c.decompose .constraint comparison.left 1 = .ok atoms ∧ ∀ atom ∈ atoms, c.isReducedTerm atom = true := by
  unfold classifyCanonicalComparison at h
  split at h
  · cases h
  · split at h
    · cases h
    · obtain ⟨atoms, hatoms, h⟩ := bind_eq_ok.mp h
      have hclass := pure_eq_ok.mp h
      split at hclass
      · rename_i hall
        exact ⟨atoms, hatoms, List.all_eq_true.mp hall⟩
      · cases hclass

/-- A comparison that is reduced has one value for each group on its left. -/
theorem constantOn_left_of_aggregate {comparison : ClauseComparison}
    (h : c.classifyCanonicalComparison comparison = .ok .aggregate)
    (hsound : c.EvidenceSound env together comparison.left) :
    ConstantOn together (env.eval c.decideIndex comparison.left) := by
  obtain ⟨atoms, hatoms, hreduced⟩ := reduced_of_aggregate h
  exact constantOn_decompose hatoms hreduced hsound

/-- A comparison that is not refused has no decision on its right, and is reduced if it has a reducer. -/
theorem classify_eq_ok {comparison : ClauseComparison} {found : CanonicalConstraintClass}
    (h : c.classifyCanonicalComparison comparison = .ok found) (hne : found ≠ .invalid) :
    c.referencesDecideVar comparison.right = false ∧
      (comparison.left.containsReducer = true ∨ comparison.right.containsReducer = true → found = .aggregate) := by
  unfold classifyCanonicalComparison at h
  split at h
  · cases h
    exact absurd rfl hne
  · rename_i hright
    refine ⟨by simpa using hright, fun hreducer => ?_⟩
    split at h
    · rename_i hnone
      rw [Bool.and_eq_true, Bool.not_eq_true', Bool.not_eq_true'] at hnone
      rcases hreducer with hreducer | hreducer
      · rw [hnone.1] at hreducer
        cases hreducer
      · rw [hnone.2] at hreducer
        cases hreducer
    · obtain ⟨atoms, -, h⟩ := bind_eq_ok.mp h
      have hclass := pure_eq_ok.mp h
      split at hclass
      · exact hclass.symm
      · exact absurd hclass.symm hne

end DecideCanonicalizer

/-! ## Trees -/

mutual

/-- Something of every comparison of a tree and of whether a PER is above it. -/
def ClauseTree.Each (P : Bool → ClauseComparison → Prop) (underPer : Bool) : ClauseTree → Prop
  | .comparison a => P underPer a
  | .conjunction _ _ children => ClauseTree.EachAll P underPer children
  | .wrapper _ _ kind tree _ => ClauseTree.Each P (underPer || kind == .per) tree
  | .leaf _ => True

/-- The same of several trees. -/
def ClauseTree.EachAll (P : Bool → ClauseComparison → Prop) (underPer : Bool) : List ClauseTree → Prop
  | [] => True
  | tree :: trees => ClauseTree.Each P underPer tree ∧ ClauseTree.EachAll P underPer trees

end

theorem ClauseTree.eachAll_iff (P : Bool → ClauseComparison → Prop) (underPer : Bool) (trees : List ClauseTree) :
    ClauseTree.EachAll P underPer trees ↔ ∀ tree ∈ trees, ClauseTree.Each P underPer tree := by
  induction trees with
  | nil => simp [ClauseTree.EachAll]
  | cons tree trees ih => rw [ClauseTree.EachAll, ih, List.forall_mem_cons]

theorem ClauseTree.each_mono {P Q : Bool → ClauseComparison → Prop} (h : ∀ underPer a, P underPer a → Q underPer a)
    (tree : ClauseTree) : ∀ underPer, tree.Each P underPer → tree.Each Q underPer := by
  induction tree using ClauseTree.treeInduction with
  | hcomparison a =>
    intro underPer heach
    rw [ClauseTree.Each] at heach ⊢
    exact h underPer a heach
  | hconjunction nodeAlias isAnd children ih =>
    intro underPer heach
    rw [ClauseTree.Each, ClauseTree.eachAll_iff] at heach ⊢
    exact fun child hmem => ih child hmem underPer (heach child hmem)
  | hwrapper nodeAlias isAnd kind tree metadata ih =>
    intro underPer heach
    rw [ClauseTree.Each] at heach ⊢
    exact ih _ heach
  | hleaf expr =>
    intro underPer _
    rw [ClauseTree.Each]
    trivial

namespace DecideCanonicalizer

variable {c : DecideCanonicalizer}

/-- The class a walk ends with is the class of every comparison it passed, and the one it began with. -/
theorem each_of_classifyWalk (tree : ClauseTree) (underPer : Bool) :
    ∀ seen found, c.classifyWalk tree seen = .ok (some found) →
      (∀ k, seen = some k → found = some k) ∧
        tree.Each (fun _ a => ∃ k, c.classifyCanonicalComparison a = .ok k ∧ found = some k) underPer := by
  induction tree using ClauseTree.treeInduction generalizing underPer with
  | hcomparison a =>
    intro seen found h
    rw [classifyWalk] at h
    obtain ⟨k, hk, h⟩ := bind_eq_ok.mp h
    have hfound := pure_eq_ok.mp h
    split at hfound
    · cases hfound
    · rename_i hsame
      obtain rfl := Option.some.inj hfound
      rw [ClauseTree.Each]
      refine ⟨fun other hother => ?_, k, hk, rfl⟩
      subst hother
      by_contra hne
      apply hsame
      simp only [Option.isSome_some, Bool.true_and, Bool.or_eq_true]
      exact .inr (bne_iff_ne.mpr (Ne.symm hne))
  | hconjunction nodeAlias isAnd children ih =>
    intro seen found h
    rw [classifyWalk] at h
    rw [ClauseTree.Each]
    induction children generalizing seen with
    | nil =>
      rw [classifyWalkAll] at h
      cases h
      rw [ClauseTree.EachAll]
      exact ⟨fun _ hk => hk, trivial⟩
    | cons child children ihchildren =>
      rw [classifyWalkAll] at h
      obtain ⟨step, hstep, h⟩ := bind_eq_ok.mp h
      cases step with
      | none => cases h
      | some next =>
        dsimp only at h
        obtain ⟨hfirst, heach⟩ := ih child List.mem_cons_self underPer seen next hstep
        obtain ⟨hrest, heachAll⟩ := ihchildren (fun other hmem => ih other (List.mem_cons_of_mem _ hmem)) next h
        rw [ClauseTree.EachAll]
        refine ⟨fun k hk => hrest k (hfirst k hk), ?_, heachAll⟩
        refine ClauseTree.each_mono (fun _ a ha => ?_) child underPer heach
        obtain ⟨k, hk, hnext⟩ := ha
        exact ⟨k, hk, hrest k hnext⟩
  | hwrapper nodeAlias isAnd kind tree metadata ih =>
    intro seen found h
    rw [classifyWalk] at h
    rw [ClauseTree.Each]
    exact ih _ seen found h
  | hleaf expr =>
    intro seen found h
    rw [classifyWalk] at h
    cases h

/-- A tree that is reduced is reduced at every comparison. -/
theorem each_of_classifyCanonicalTree {tree : ClauseTree} (h : c.classifyCanonicalTree tree = .ok .aggregate)
    (underPer : Bool) :
    tree.Each (fun _ a => c.classifyCanonicalComparison a = .ok .aggregate) underPer := by
  obtain ⟨seen, hseen, h⟩ := bind_eq_ok.mp h
  split at h
  · rename_i found
    obtain rfl := pure_eq_ok.mp h
    refine ClauseTree.each_mono (fun _ a ha => ?_) tree underPer (each_of_classifyWalk tree underPer _ _ hseen).2
    obtain ⟨k, hk, hfound⟩ := ha
    rw [hk, Option.some.inj hfound]
  · cases pure_eq_ok.mp h

theorem classify_of_validate {comparison : ClauseComparison} {u : Unit}
    (h : c.validateCanonicalComparison comparison = .ok u) :
    ∃ found, c.classifyCanonicalComparison comparison = .ok found ∧ found ≠ .invalid := by
  obtain ⟨found, hfound, h⟩ := bind_eq_ok.mp h
  refine ⟨found, hfound, ?_⟩
  rintro rfl
  obtain ⟨atoms, -, h⟩ := bind_eq_ok.mp h
  cases h

/-- A comparison of an accepted tree: no decision on its right, and reduced where it has a reducer or a PER
above it. -/
structure IsClassified (c : DecideCanonicalizer) (underPer : Bool) (comparison : ClauseComparison) : Prop where
  right : c.referencesDecideVar comparison.right = false
  reduced : underPer = true ∨ comparison.left.containsReducer = true ∨ comparison.right.containsReducer = true →
    c.classifyCanonicalComparison comparison = .ok .aggregate

theorem each_isClassified (tree : ClauseTree) (underPer : Bool)
    (hper : underPer = true → tree.Each (fun _ a => c.classifyCanonicalComparison a = .ok .aggregate) underPer)
    {u : Unit} (h : c.validateCanonicalTree tree = .ok u) : tree.Each c.IsClassified underPer := by
  induction tree using ClauseTree.treeInduction generalizing underPer u with
  | hcomparison a =>
    rw [validateCanonicalTree] at h
    rw [ClauseTree.Each] at hper ⊢
    obtain ⟨found, hfound, hne⟩ := classify_of_validate h
    obtain ⟨hright, haggregate⟩ := classify_eq_ok hfound hne
    refine ⟨hright, fun hreduced => ?_⟩
    rcases hreduced with hunder | hreducer
    · exact hper hunder
    · rw [hfound, haggregate hreducer]
  | hconjunction nodeAlias isAnd children ih =>
    rw [validateCanonicalTree] at h
    rw [ClauseTree.Each, ClauseTree.eachAll_iff] at hper ⊢
    induction children with
    | nil => exact fun _ hmem => absurd hmem List.not_mem_nil
    | cons child children ihchildren =>
      rw [validateCanonicalTrees] at h
      obtain ⟨v, hchild, h⟩ := bind_eq_ok.mp h
      refine List.forall_mem_cons.mpr ⟨?_, ?_⟩
      · exact ih child List.mem_cons_self underPer (fun hunder => hper hunder child List.mem_cons_self) hchild
      · exact ihchildren (fun other hmem => ih other (List.mem_cons_of_mem _ hmem))
          (fun hunder other hmem => hper hunder other (List.mem_cons_of_mem _ hmem)) h
  | hwrapper nodeAlias isAnd kind tree metadata ih =>
    rw [ClauseTree.Each] at hper ⊢
    cases kind with
    | when =>
      rw [validateCanonicalTree] at h
      rw [show (underPer || WrapperKind.when == .per) = underPer from Bool.or_false underPer] at hper ⊢
      exact ih underPer hper h
    | per =>
      rw [validateCanonicalTree] at h
      obtain ⟨found, hfound, h⟩ := bind_eq_ok.mp h
      split at h
      · cases h
      · rename_i hsame
        obtain rfl : found = .aggregate := by simpa using hsame
        exact ih _ (fun _ => each_of_classifyCanonicalTree hfound _) h
  | hleaf expr =>
    rw [ClauseTree.Each]
    trivial

/-- A tree that is accepted asks, wherever it has a reducer or a PER, for one number of each group: the left
side has one value over the rows that belong together, and the right side has no decision in it. -/
theorem canonicalizeTree_reduced (c : DecideCanonicalizer) (constraints result : ClauseTree)
    (h : c.canonicalizeTree constraints = .ok result) :
    result.Each (fun underPer a => c.referencesDecideVar a.right = false ∧
      (underPer = true ∨ a.left.containsReducer = true ∨ a.right.containsReducer = true →
        ∀ (env : ClauseEnv) (together : Nat → Nat → Prop), c.EvidenceSound env together a.left →
          ConstantOn together (env.eval c.decideIndex a.left))) false := by
  obtain ⟨tree, -, h⟩ := bind_eq_ok.mp h
  obtain ⟨u, hvalid, h⟩ := bind_eq_ok.mp h
  obtain rfl := pure_eq_ok.mp h
  have hclassified : tree.Each c.IsClassified false :=
    each_isClassified tree false (fun hunder => by cases hunder) hvalid
  refine ClauseTree.each_mono (fun underPer a ha => ⟨ha.right, fun hreduced env together hsound => ?_⟩) tree false
    hclassified
  exact constantOn_left_of_aggregate (ha.reduced hreduced) hsound

/-- `SUM(x) + s`, over the decisions `x` and `s`. -/
def sumBesideScalar : ClauseExpr :=
  .function {} false .plus [.aggregate {} "sum" [.columnRef {} 7 0] [], .columnRef {} 7 1]

/-- Rows are paired and a reducer adds up over the pair; the first column of a table holds the row's number,
the others one value. -/
def pairSumEnv : ClauseEnv where
  column _ columnIndex row := some (if columnIndex = 0 then (row : ℚ) else 5)
  subquery _ _ := none
  function _ _ _ := none
  convert _ value := some value
  aggregate _ children _ row := Option.map₂ (· + ·) ((children.headD fun _ => none) (row / 2 * 2))
    ((children.headD fun _ => none) (row / 2 * 2 + 1))
  other _ _ _ := none

/-- Two rows of one pair. -/
def samePair (row row' : Nat) : Prop := row / 2 = row' / 2

theorem part_sumBesideScalar {node : ClauseExpr} (h : node.Part sumBesideScalar) :
    node = sumBesideScalar ∨ node = .aggregate {} "sum" [.columnRef {} 7 0] [] ∨ node = .columnRef {} 7 0 ∨
      node = .columnRef {} 7 1 := by
  cases h with
  | self => exact .inl rfl
  | child hmem h =>
    rcases List.mem_pair.mp hmem with rfl | rfl
    · cases h with
      | self => exact .inr (.inl rfl)
      | child hmem h =>
        obtain rfl := List.mem_singleton.mp hmem
        cases h with
        | self => exact .inr (.inr (.inl rfl))
        | child hmem h => cases hmem
    · cases h with
      | self => exact .inr (.inr (.inr rfl))
      | child hmem h => cases hmem

theorem evidenceSound_sumBesideScalar :
    doubleFactorCanonicalizer.EvidenceSound pairSumEnv samePair sumBesideScalar where
  tagged node hnode htag := by
    rcases part_sumBesideScalar hnode with rfl | rfl | rfl | rfl <;> cases htag
  table tableIndex columnIndex h := by cases h
  scalar varIdx h := by
    have hpos : varIdx ≠ 0 := by
      rintro rfl
      cases h
    intro row row' _
    simp [pairSumEnv, hpos]
  subquery nodeAlias id children hnode := fun _ _ _ => rfl
  function nodeAlias isVolatile kind children hnode args row row' _ := by
    rcases part_sumBesideScalar hnode with heq | heq | heq | heq
    · cases heq
      unfold ClauseEnv.functionValue
      split <;> rfl
    all_goals cases heq
  other nodeAlias name neverFolds children hnode args _ := fun _ _ _ => rfl
  aggregate name args rest row row' h := by
    unfold samePair at h
    simp only [pairSumEnv, h]

theorem canonicalizeTree_reduced_sumBesideScalar :
    ConstantOn samePair (pairSumEnv.eval 7 sumBesideScalar) ∧
      ¬ ConstantOn samePair (pairSumEnv.eval 7 (.columnRef {} 7 0)) := by
  have h := canonicalizeTree_reduced doubleFactorCanonicalizer
    (.comparison { type := .le, left := sumBesideScalar, right := .constant {} (some 4) }) _ rfl
  rw [ClauseTree.Each] at h
  refine ⟨h.2 (.inr (.inl rfl)) pairSumEnv samePair evidenceSound_sumBesideScalar, fun hconstant => ?_⟩
  have h01 := hconstant 0 1 rfl
  simp [ClauseEnv.eval, pairSumEnv] at h01

end DecideCanonicalizer

end Decidb
