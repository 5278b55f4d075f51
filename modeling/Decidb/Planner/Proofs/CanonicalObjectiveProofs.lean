import Decidb.Planner.Proofs.CanonicalFormProofs

/-!
# The canonical objective

An objective is split as a side of a comparison is; the terms without a decision go into an offset, and
what is left and the offset together are worth the objective as written.
-/

namespace Decidb

/-- The value of an objective at a row; its wrappers carry no algebra. -/
def ClauseObjective.value (env : ClauseEnv) (d : Nat) : ClauseObjective → Nat → Option ℚ
  | .body expr, row => env.eval d expr row
  | .wrapper _ _ _ objective _, row => objective.value env d row

/-- The same wrappers, with the same conditions and columns, around two objectives. -/
def ClauseObjective.SameWrappers : ClauseObjective → ClauseObjective → Prop
  | .body _, .body _ => True
  | .wrapper nodeAlias isAnd kind objective metadata, .wrapper nodeAlias' isAnd' kind' objective' metadata' =>
    nodeAlias = nodeAlias' ∧ isAnd = isAnd' ∧ kind = kind' ∧ metadata = metadata' ∧ objective.SameWrappers objective'
  | _, _ => False

namespace DecideCanonicalizer

variable {c : DecideCanonicalizer} {env : ClauseEnv}

/-- The evaluator gives a constant expression the value it has at every row. -/
def EvaluatorSound (c : DecideCanonicalizer) (env : ClauseEnv) : Prop :=
  ∀ expr value, c.context.tryEvaluateScalar expr = some (.number value) →
    ∀ row, env.eval c.decideIndex expr row = some value

theorem eval_of_tryEvaluateFoldableDouble (hsound : c.EvaluatorSound env) {expr : ClauseExpr} {value : ℚ}
    (h : c.tryEvaluateFoldableDouble expr = some value) (row : Nat) : env.eval c.decideIndex expr row = some value := by
  unfold tryEvaluateFoldableDouble at h
  split at h
  · split at h
    · rename_i number heq
      obtain rfl := Option.some.inj h
      exact hsound expr number heq row
    · cases h
  · cases h

/-- An atom without a decision has no factor. -/
theorem AtomSound.scale_eq_none {atom : Atom} (h : c.AtomSound atom) (hright : atom.placement = .right) :
    atom.scale = none := by
  cases hscale : atom.scale with
  | none => rfl
  | some scale =>
    have hdecision := (isScalable_iff.mp (h.scaled scale hscale).2).2
    rw [classify_eq_right.mp (h.placement_eq.symm.trans hright)] at hdecision
    cases hdecision

/-- One atom: kept if it references a decision, folded into the offset if it does not. -/
theorem foldOffset_eq_ok (heval : c.EvaluatorSound env) {state next : List Atom × ℚ} {atom : Atom}
    (hsound : c.AtomSound atom) (h : c.foldOffset state atom = .ok next) (row : Nat) :
    (atom.placement = .left ∧ next = (state.1 ++ [atom], state.2)) ∨
      (atom.placement = .right ∧ next.1 = state.1 ∧ atomValue c env row atom = some (next.2 - state.2)) := by
  unfold foldOffset at h
  cases hplacement : atom.placement with
  | left =>
    rw [if_pos (by rw [hplacement]; rfl)] at h
    cases h
    exact .inl ⟨rfl, rfl⟩
  | right =>
    rw [if_neg (by rw [hplacement]; simp)] at h
    split at h
    · rename_i value hvalue
      cases h
      refine .inr ⟨rfl, rfl, ?_⟩
      rw [atomValue, hsound.scale_eq_none hplacement, rescaledValue,
        eval_of_tryEvaluateFoldableDouble heval hvalue row, add_sub_cancel_left]
      rfl
    · cases h

/-- The walk keeps the decision atoms in order and adds up the others. -/
theorem foldOffsets_eq_ok (heval : c.EvaluatorSound env) (row : Nat) (atoms : List Atom) :
    ∀ state final : List Atom × ℚ, (∀ atom ∈ atoms, c.AtomSound atom) →
      atoms.foldlM c.foldOffset state = .ok final →
      final.1 = state.1 ++ atoms.filter (·.placement == .left) ∧
        atomsValue c env row (atoms.filter (·.placement == .right)) = some (final.2 - state.2) := by
  induction atoms with
  | nil =>
    intro state final _ h
    obtain rfl := pure_eq_ok.mp h
    refine ⟨(List.append_nil _).symm, ?_⟩
    rw [sub_self]
    rfl
  | cons atom atoms ih =>
    intro state final hsound h
    rw [List.foldlM_cons] at h
    obtain ⟨next, hnext, h⟩ := bind_eq_ok.mp h
    obtain ⟨hkept, hsum⟩ := ih next final (fun a ha => hsound a (List.mem_cons_of_mem _ ha)) h
    rcases foldOffset_eq_ok heval (hsound atom List.mem_cons_self) hnext row with
      ⟨hleft, rfl⟩ | ⟨hright, hsame, hvalue⟩
    · rw [List.filter_cons_of_pos (by rw [hleft]; rfl), List.filter_cons_of_neg (by rw [hleft]; simp)]
      exact ⟨hkept.trans (List.append_assoc _ _ _), hsum⟩
    · rw [List.filter_cons_of_neg (by rw [hright]; simp), List.filter_cons_of_pos (by rw [hright]; rfl)]
      refine ⟨hkept.trans (by rw [hsame]), ?_⟩
      have hcons : atomsValue c env row (atom :: atoms.filter (·.placement == .right)) =
          Option.map₂ (· + ·) (atomValue c env row atom)
            (atomsValue c env row (atoms.filter (·.placement == .right))) := rfl
      rw [hcons, hvalue, hsum, Option.map₂_some_some]
      congr 1
      ring

/-- Terms that all reference a decision leave the offset alone. -/
theorem foldOffsets_offset {atoms : List Atom} (hatoms : hasPlacement atoms .right = false) :
    ∀ state final : List Atom × ℚ, atoms.foldlM c.foldOffset state = .ok final → final.2 = state.2 := by
  rw [hasPlacement_eq_false] at hatoms
  induction atoms with
  | nil =>
    intro state final h
    rw [← pure_eq_ok.mp h]
  | cons atom atoms ih =>
    intro state final h
    rw [List.foldlM_cons] at h
    obtain ⟨next, hnext, h⟩ := bind_eq_ok.mp h
    have hleft : atom.placement = .left := by
      cases hplacement : atom.placement with
      | left => rfl
      | right => exact absurd hplacement (hatoms atom List.mem_cons_self)
    rw [ih (fun a ha => hatoms a (List.mem_cons_of_mem _ ha)) next final h]
    rw [foldOffset, if_pos (by rw [hleft]; rfl)] at hnext
    cases hnext
    rfl

/-- The body of an objective with a decision: what is built of its decision terms, and the offset. -/
theorem canonicalizeObjective_body {expr : ClauseExpr} (hdecision : c.referencesDecideVar expr = true) {offset : ℚ}
    {result : ClauseObjective × ℚ} (h : c.canonicalizeObjective (.body expr) offset = .ok result) :
    ∃ atoms state built, c.decompose .objective expr 1 = .ok atoms ∧
      atoms.foldlM c.foldOffset ([], offset) = .ok state ∧ c.buildAdditive state.1 = .ok (some built) ∧
      result = (.body built, state.2) := by
  rw [canonicalizeObjective, if_pos hdecision] at h
  obtain ⟨atoms, hatoms, h⟩ := bind_eq_ok.mp h
  obtain ⟨state, hstate, h⟩ := bind_eq_ok.mp h
  obtain ⟨built, hbuilt, h⟩ := bind_eq_ok.mp h
  cases built with
  | none => exact absurd h throw_ne_ok
  | some built => exact ⟨atoms, state, built, hatoms, hstate, hbuilt, (pure_eq_ok.mp h).symm⟩

/-- What is left of an objective with a decision splits into decision terms only. -/
theorem readsAs_objective {atoms : List Atom} {expr built : ClauseExpr} {state : List Atom × ℚ}
    (hatoms : c.decompose .objective expr 1 = .ok atoms) (hkept : state.1 = atoms.filter (·.placement == .left))
    (hbuilt : c.buildAdditive state.1 = .ok (some built)) :
    c.ReadsAs built state.1 ∧ ∀ atom ∈ state.1, atom.placement = .left := by
  have hleft : ∀ atom ∈ state.1, c.AtomSound atom ∧ atom.placement = .left := by
    intro atom hmem
    rw [hkept] at hmem
    obtain ⟨hmem, hplacement⟩ := List.mem_filter.mp hmem
    exact ⟨(atomSound_decompose hatoms).1 atom hmem, by simpa using hplacement⟩
  exact ⟨readsAs_buildAdditive hleft hbuilt, fun atom hmem => (hleft atom hmem).2⟩

/-- An objective that is accepted keeps its wrappers, and at every row the canonical objective and what was
added to the offset are worth the objective as written. What is left passes the verifier, and
canonicalizing it again adds nothing to an offset. -/
theorem canonicalizeObjective_exact (c : DecideCanonicalizer) (env : ClauseEnv) (hwidens : c.BinderWidens env)
    (heval : c.EvaluatorSound env) (objective : ClauseObjective) :
    ∀ (offset : ℚ) (result : ClauseObjective) (after : ℚ),
      c.canonicalizeObjective objective offset = .ok (result, after) →
      objective.SameWrappers result ∧
        (∀ row, objective.value env c.decideIndex row =
          (result.value env c.decideIndex row).map (· + (after - offset))) ∧
        c.verifyCanonicalObjectiveBody result = .ok () ∧
        ∀ start again total, c.canonicalizeObjective result start = .ok (again, total) → total = start := by
  induction objective with
  | body expr =>
    intro offset result after h
    by_cases hdecision : c.referencesDecideVar expr = true
    · obtain ⟨atoms, state, built, hatoms, hstate, hbuilt, heq⟩ := canonicalizeObjective_body hdecision h
      obtain ⟨rfl, rfl⟩ := Prod.mk.inj heq
      have hsound := (atomSound_decompose hatoms).1
      have hkept : state.1 = atoms.filter (·.placement == .left) :=
        ((foldOffsets_eq_ok heval 0 atoms _ _ hsound hstate).1).trans (List.nil_append _)
      obtain ⟨hreads, hleft⟩ := readsAs_objective hatoms hkept hbuilt
      refine ⟨trivial, fun row => ?_, ?_, fun start again total hagain => ?_⟩
      · have hwhole := atomsValue_decompose hwidens hatoms row
        rw [signedValue_one, ← atomsValue_placements, ← hkept,
          (foldOffsets_eq_ok heval row atoms _ _ hsound hstate).2] at hwhole
        have hpart : env.eval c.decideIndex built row = atomsValue c env row state.1 :=
          (eval_buildAdditive hwidens hbuilt row).2
        rw [ClauseObjective.value, ClauseObjective.value, ← hwhole, hpart]
        cases atomsValue c env row state.1 <;> rfl
      · obtain ⟨read, hread, -⟩ := hreads.2 .objective 1
        rw [verifyCanonicalObjectiveBody, if_pos hreads.1, hread]
        change (if hasPlacement read .right = true then _ else _) = _
        rw [if_neg (by rw [hreads.hasPlacement_right hleft hread]; simp)]
        rfl
      · obtain ⟨read, state', built', hread, hstate', -, heq'⟩ := canonicalizeObjective_body hreads.1 hagain
        rw [(Prod.mk.inj heq').2]
        exact foldOffsets_offset (hreads.hasPlacement_right hleft hread) _ _ hstate'
    · have hunchanged : ∀ start, c.canonicalizeObjective (.body expr) start = .ok (.body expr, start) := by
        intro start
        rw [canonicalizeObjective, if_neg hdecision]
        rfl
      rw [hunchanged offset] at h
      cases h
      refine ⟨trivial, fun row => ?_, ?_, fun start again total hagain => ?_⟩
      · rw [sub_self, ClauseObjective.value]
        simp
      · rw [verifyCanonicalObjectiveBody, if_neg hdecision]
        rfl
      · rw [hunchanged start] at hagain
        cases hagain
        rfl
  | wrapper nodeAlias isAnd kind objective metadata ih =>
    intro offset result after h
    rw [canonicalizeObjective] at h
    obtain ⟨inner, hinner, h⟩ := bind_eq_ok.mp h
    obtain ⟨rfl, rfl⟩ := Prod.mk.inj (pure_eq_ok.mp h)
    obtain ⟨hsame, hvalue, hverify, hagain⟩ := ih offset inner.1 inner.2 hinner
    refine ⟨⟨rfl, rfl, rfl, rfl, hsame⟩, hvalue, ?_, fun start again total h => ?_⟩
    · rw [verifyCanonicalObjectiveBody]
      exact hverify
    · rw [canonicalizeObjective] at h
      obtain ⟨second, hsecond, h⟩ := bind_eq_ok.mp h
      obtain ⟨-, rfl⟩ := Prod.mk.inj (pure_eq_ok.mp h)
      exact hagain start second.1 second.2 hsecond

/-- `MAXIMIZE (5 - SUM(x) * 2) WHEN r`. -/
def offsetObjective : ClauseObjective :=
  .wrapper {} true .when
    (.body (.function {} false .minus [.constant {} (some 5),
      .function {} false .times [.aggregate {} "sum" [.columnRef {} 7 0] [], .constant {} (some 2)]]))
    [.columnRef {} 1 1]

theorem evaluatorSound_doubleFactor : doubleFactorCanonicalizer.EvaluatorSound rowNumberEnv := by
  intro expr value h row
  cases expr with
  | constant nodeAlias stored =>
    cases stored with
    | none => cases h
    | some stored =>
      cases h
      rfl
  | columnRef nodeAlias tableIndex columnIndex => cases h
  | subquery nodeAlias id isScalar isCorrelated children => cases h
  | cast nodeAlias targetType child => cases h
  | function nodeAlias isVolatile kind children => cases h
  | aggregate nodeAlias name children rest => cases h
  | other nodeAlias name neverFolds children => cases h

theorem canonicalizeObjective_exact_offset :
    ∃ result after, doubleFactorCanonicalizer.canonicalizeObjective offsetObjective 1 = .ok (result, after) ∧
      offsetObjective.SameWrappers result ∧
        (∀ row, offsetObjective.value rowNumberEnv 7 row =
          (result.value rowNumberEnv 7 row).map (· + (after - 1))) ∧
        doubleFactorCanonicalizer.verifyCanonicalObjectiveBody result = .ok () ∧
        ∀ start again total, doubleFactorCanonicalizer.canonicalizeObjective result start = .ok (again, total) →
          total = start := by
  have hok : (doubleFactorCanonicalizer.canonicalizeObjective offsetObjective 1).isOk = true := by decide +kernel
  cases h : doubleFactorCanonicalizer.canonicalizeObjective offsetObjective 1 with
  | error e =>
    rw [h] at hok
    cases hok
  | ok result =>
    exact ⟨result.1, result.2, rfl, canonicalizeObjective_exact doubleFactorCanonicalizer rowNumberEnv
      binderWidens_doubleFactor evaluatorSound_doubleFactor offsetObjective 1 result.1 result.2 h⟩

end DecideCanonicalizer

end Decidb
