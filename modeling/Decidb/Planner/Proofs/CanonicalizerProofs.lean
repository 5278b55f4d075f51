import Decidb.Planner.Proofs.ClauseExprProofs
import Mathlib.Tactic.Linarith
import Mathlib.Tactic.Ring

/-!
# The canonical form means what was written

Splitting a side, moving its terms across the relation and building the two sides again keeps what a
comparison says at every row, unknown included; a tree keeps its shape, its wrappers and its tags.
-/

namespace Decidb

open ClauseExpr

namespace DecideCanonicalizer

variable {c : DecideCanonicalizer} {env : ClauseEnv}

instance : Std.LawfulLeftIdentity (fun a b : ℚ => a * b) 1 := ⟨one_mul⟩
instance : Std.LawfulRightIdentity (fun a b : ℚ => a * b) 1 := ⟨mul_one⟩
instance : Std.LawfulLeftIdentity (fun a b : ℚ => a + b) 0 := ⟨zero_add⟩
instance : Std.LawfulRightIdentity (fun a b : ℚ => a + b) 0 := ⟨add_zero⟩

theorem strictProduct_singleton (value : Option ℚ) : strictFold (fun a b : ℚ => a * b) 1 [value] = value :=
  strictFold_singleton value

theorem strictSum_singleton (value : Option ℚ) : strictFold (fun a b : ℚ => a + b) 0 [value] = value :=
  strictFold_singleton value

/-! ## The factor of a term -/

/-- A product that was built is worth the product of its factors. -/
theorem eval_product (hwidens : c.BinderWidens env) {factors : List ClauseExpr} {result : Option ClauseExpr}
    (h : c.product factors = .ok result) (row : Nat) :
    (result = none ∧ factors = []) ∨
      ∃ expr, result = some expr ∧ env.eval c.decideIndex expr row = factorsValue c env row factors := by
  have hfold : ∀ (factors : List ClauseExpr) (acc expr : ClauseExpr),
      factors.foldlM (fun acc factor => c.bindOp .times [acc, factor]) acc = .ok expr →
      env.eval c.decideIndex expr row =
        Option.map₂ (· * ·) (env.eval c.decideIndex acc row) (factorsValue c env row factors) := by
    intro factors
    induction factors with
    | nil =>
      intro acc expr h
      obtain rfl := pure_eq_ok.mp h
      exact (strictProduct_singleton _).symm
    | cons factor factors ih =>
      intro acc expr h
      rw [List.foldlM_cons] at h
      obtain ⟨next, hnext, h⟩ := bind_eq_ok.mp h
      rw [ih next expr h, eval_bindOp hwidens hnext]
      exact map₂_assoc_of_associative _ _ _
  cases factors with
  | nil =>
    cases h
    exact .inl ⟨rfl, rfl⟩
  | cons factor factors =>
    obtain ⟨expr, hexpr, h⟩ := bind_eq_ok.mp h
    obtain rfl := pure_eq_ok.mp h
    exact .inr ⟨expr, rfl, hfold factors factor expr hexpr⟩

/-- The value of a term under the one factor it was left with. -/
def rescaledValue (c : DecideCanonicalizer) (env : ClauseEnv) (row : Nat) (term : ClauseExpr)
    (scale : Option ClauseExpr) (divides : Bool) : Option ℚ :=
  match scale with
  | none => env.eval c.decideIndex term row
  | some scale =>
    if divides then
      (env.eval c.decideIndex term row).bind fun a =>
        (env.eval c.decideIndex scale row).bind fun b => quotientValue a b
    else Option.map₂ (· * ·) (env.eval c.decideIndex scale row) (env.eval c.decideIndex term row)

theorem scaledValue_one_right (multiplier term : Option ℚ) :
    scaledValue multiplier term (some 1) = Option.map₂ (· * ·) multiplier term := by
  rcases multiplier with _ | m <;> rcases term with _ | t <;> try rfl
  rw [scaledValue, Option.bind_some, Option.bind_some, Option.bind_some, quotientValue, if_neg one_ne_zero, div_one]
  rfl

theorem scaledValue_one_left (term divisor : Option ℚ) :
    scaledValue (some 1) term divisor = term.bind fun a => divisor.bind fun b => quotientValue a b := by
  rw [scaledValue, Option.bind_some]
  simp only [one_mul]

/-- A numerator and a denominator make one factor, their quotient. -/
theorem scaledValue_quotient (multiplier term divisor : Option ℚ) :
    Option.map₂ (· * ·) (multiplier.bind fun m => divisor.bind fun v => quotientValue m v) term =
      scaledValue multiplier term divisor := by
  rcases multiplier with _ | m <;> rcases term with _ | t <;> rcases divisor with _ | v <;> try rfl
  · simp only [Option.map₂_none_right]
    rfl
  · simp only [scaledValue, Option.bind_some, quotientValue]
    by_cases hv : v = 0
    · rw [if_pos hv, if_pos hv]
      rfl
    · rw [if_neg hv, if_neg hv, Option.map₂_some_some]
      congr 1
      ring

theorem eval_composeScale (hwidens : c.BinderWidens env) {multipliers divisors : List ClauseExpr}
    {composed : Option ClauseExpr × Bool} (h : c.composeScale multipliers divisors = .ok composed)
    (term : ClauseExpr) (row : Nat) :
    rescaledValue c env row term composed.1 composed.2 =
      scaledValue (factorsValue c env row multipliers) (env.eval c.decideIndex term row)
        (factorsValue c env row divisors) := by
  obtain ⟨multiplier, hmultiplier, h⟩ := bind_eq_ok.mp h
  obtain ⟨divisor, hdivisor, h⟩ := bind_eq_ok.mp h
  rcases eval_product hwidens hmultiplier row with ⟨rfl, rfl⟩ | ⟨m, rfl, hm⟩ <;>
    rcases eval_product hwidens hdivisor row with ⟨rfl, rfl⟩ | ⟨v, rfl, hv⟩
  · obtain rfl := pure_eq_ok.mp h
    refine Eq.trans ?_ (scaledValue_one_right _ _).symm
    cases hterm : env.eval c.decideIndex term row with
    | none => rw [rescaledValue, hterm]; rfl
    | some t => rw [rescaledValue, hterm]; exact congrArg some (one_mul t).symm
  · obtain rfl := pure_eq_ok.mp h
    rw [rescaledValue, if_pos rfl, hv]
    exact (scaledValue_one_left _ _).symm
  · obtain rfl := pure_eq_ok.mp h
    rw [rescaledValue, if_neg Bool.false_ne_true, hm]
    exact (scaledValue_one_right _ _).symm
  · obtain ⟨scale, hscale, h⟩ := bind_eq_ok.mp h
    obtain rfl := pure_eq_ok.mp h
    rw [rescaledValue, if_neg Bool.false_ne_true, eval_bindOp hwidens hscale]
    rw [List.map_cons, List.map_cons, List.map_nil, hm, hv]
    exact scaledValue_quotient _ _ _

/-- The term and its factor are worth what the expression was. -/
theorem eval_peelScale (hwidens : c.BinderWidens env) {clause : ClauseKind} {expr : ClauseExpr}
    {peeled : ClauseExpr × Option ClauseExpr × Bool} (h : c.peelScale clause expr = .ok peeled) (row : Nat) :
    rescaledValue c env row peeled.1 peeled.2.1 peeled.2.2 = env.eval c.decideIndex expr row := by
  obtain ⟨factors, hfactors, h⟩ := bind_eq_ok.mp h
  split at h
  · obtain rfl := pure_eq_ok.mp h
    rfl
  · obtain ⟨composed, hcomposed, h⟩ := bind_eq_ok.mp h
    obtain rfl := pure_eq_ok.mp h
    rw [← eval_peelFactors hfactors row]
    exact eval_composeScale hwidens hcomposed factors.term row

/-! ## The atoms of a side -/

/-- The value with a sign. -/
def signedValue (sign : ℤˣ) (value : Option ℚ) : Option ℚ := value.map fun v => ((sign : ℤ) : ℚ) * v

/-- The value of an atom: its term under its factor, with its sign. -/
def atomValue (c : DecideCanonicalizer) (env : ClauseEnv) (row : Nat) (atom : Atom) : Option ℚ :=
  signedValue atom.sign (rescaledValue c env row atom.expr atom.scale atom.scaleDivides)

/-- What some atoms add up to. -/
def atomsValue (c : DecideCanonicalizer) (env : ClauseEnv) (row : Nat) (atoms : List Atom) : Option ℚ :=
  strictFold (· + ·) 0 (atoms.map (atomValue c env row))

theorem atomsValue_append (row : Nat) (atoms more : List Atom) :
    atomsValue c env row (atoms ++ more) =
      Option.map₂ (· + ·) (atomsValue c env row atoms) (atomsValue c env row more) := by
  rw [atomsValue, List.map_append]
  exact strictFold_append _ _

theorem signedValue_neg (sign : ℤˣ) (value : Option ℚ) :
    signedValue (-sign) value = (signedValue sign value).map (- ·) := by
  cases value with
  | none => rfl
  | some v =>
    refine congrArg some ?_
    push_cast
    ring

theorem signedValue_add (sign : ℤˣ) (a b : Option ℚ) :
    Option.map₂ (· + ·) (signedValue sign a) (signedValue sign b) = signedValue sign (Option.map₂ (· + ·) a b) := by
  rcases a with _ | a <;> rcases b with _ | b <;> try rfl
  exact congrArg some (mul_add _ a b).symm

theorem signedValue_sub (sign : ℤˣ) (a b : Option ℚ) :
    Option.map₂ (· + ·) (signedValue sign a) (signedValue (-sign) b) =
      signedValue sign (Option.map₂ (· - ·) a b) := by
  rcases a with _ | a <;> rcases b with _ | b <;> try rfl
  refine congrArg some ?_
  push_cast
  ring

theorem signedValue_negate (sign : ℤˣ) (a : Option ℚ) :
    signedValue (-sign) a = signedValue sign (a.map (- ·)) := by
  cases a with
  | none => rfl
  | some a =>
    refine congrArg some ?_
    push_cast
    ring

theorem signedValue_one (value : Option ℚ) : signedValue 1 value = value := by
  cases value with
  | none => rfl
  | some v =>
    refine congrArg some ?_
    push_cast
    exact one_mul v

theorem atomsValue_atomOf (hwidens : c.BinderWidens env) {clause : ClauseKind} {sign : ℤˣ} {expr : ClauseExpr}
    {atoms : List Atom} (h : c.atomOf clause sign expr = .ok atoms) (row : Nat) :
    atomsValue c env row atoms = signedValue sign (env.eval c.decideIndex expr row) := by
  obtain ⟨peeled, hpeeled, h⟩ := bind_eq_ok.mp h
  obtain rfl := pure_eq_ok.mp h
  rw [← eval_peelScale hwidens hpeeled row]
  exact strictSum_singleton _

/-- The atoms of a side add up to the side. -/
theorem atomsValue_decompose (hwidens : c.BinderWidens env) {clause : ClauseKind} {expr : ClauseExpr} {sign : ℤˣ}
    {atoms : List Atom} (h : c.decompose clause expr sign = .ok atoms) (row : Nat) :
    atomsValue c env row atoms = signedValue sign (env.eval c.decideIndex expr row) := by
  fun_induction c.decompose clause expr sign generalizing atoms with
  | case1 nodeAlias isVolatile a b sign iha ihb =>
    obtain ⟨left, hleft, h⟩ := bind_eq_ok.mp h
    obtain ⟨right, hright, h⟩ := bind_eq_ok.mp h
    obtain rfl := pure_eq_ok.mp h
    rw [atomsValue_append, iha hleft, ihb hright, signedValue_add, env.eval_function]
    rfl
  | case2 nodeAlias isVolatile a b sign iha ihb =>
    obtain ⟨left, hleft, h⟩ := bind_eq_ok.mp h
    obtain ⟨right, hright, h⟩ := bind_eq_ok.mp h
    obtain rfl := pure_eq_ok.mp h
    rw [atomsValue_append, iha hleft, ihb hright, signedValue_sub, env.eval_function]
    rfl
  | case3 nodeAlias isVolatile a sign ih =>
    rw [ih h, signedValue_negate, env.eval_function]
    rfl
  | case4 nodeAlias targetType child sign hdecide ih =>
    rw [ih h, env.eval_cast_of_referencesDecide]
    simpa [referencesDecideVar] using hdecide
  | case5 nodeAlias targetType child sign hdecide => exact atomsValue_atomOf hwidens h row
  | case6 expr sign h₁ h₂ h₃ h₄ => exact atomsValue_atomOf hwidens h row

/-! ## What is built of some atoms -/

theorem eval_rescale (hwidens : c.BinderWidens env) {atom : Atom} {term : ClauseExpr}
    (h : c.rescale atom = .ok term) (row : Nat) :
    env.eval c.decideIndex term row = rescaledValue c env row atom.expr atom.scale atom.scaleDivides := by
  unfold rescale at h
  unfold rescaledValue
  cases hscale : atom.scale with
  | none =>
    rw [hscale] at h
    cases h
    rfl
  | some scale =>
    rw [hscale] at h
    dsimp only at h ⊢
    split at h
    · rename_i hdivides
      rw [if_pos hdivides, eval_bindOp hwidens h]
      rfl
    · rename_i hdivides
      rw [if_neg hdivides, eval_bindOp hwidens h]
      rfl

theorem sign_cases (sign : ℤˣ) : (0 ≤ (sign : ℤ) ∧ sign = 1) ∨ (¬ 0 ≤ (sign : ℤ) ∧ sign = -1) := by
  rcases Int.units_eq_one_or sign with rfl | rfl
  · exact .inl ⟨by decide, rfl⟩
  · exact .inr ⟨by decide, rfl⟩

/-- What stands on the spine so far. -/
def spineValue (c : DecideCanonicalizer) (env : ClauseEnv) (row : Nat) (acc : Option ClauseExpr) : Option ℚ :=
  match acc with
  | none => some 0
  | some acc => env.eval c.decideIndex acc row

theorem eval_appendTerm (hwidens : c.BinderWidens env) {acc next : Option ClauseExpr} {atom : Atom}
    (h : c.appendTerm acc atom = .ok next) (row : Nat) :
    next.isSome ∧ spineValue c env row next =
      Option.map₂ (· + ·) (spineValue c env row acc) (atomValue c env row atom) := by
  obtain ⟨term, hterm, h⟩ := bind_eq_ok.mp h
  have hvalue := eval_rescale hwidens hterm row
  have hzero : ∀ value : Option ℚ, Option.map₂ (· + ·) (some 0) value = value := by
    intro value
    cases value with
    | none => rfl
    | some v => exact congrArg some (zero_add v)
  have hsub : ∀ a b : Option ℚ, Option.map₂ (· - ·) a b = Option.map₂ (· + ·) a (b.map (- ·)) := by
    intro a b
    rcases a with _ | a <;> rcases b with _ | b <;> try rfl
    exact congrArg some (sub_eq_add_neg a b)
  have hneg : ∀ value : Option ℚ, signedValue (-1) value = value.map (- ·) := by
    intro value
    rw [signedValue_neg, signedValue_one]
  unfold atomValue
  rw [← hvalue]
  cases acc with
  | none =>
    dsimp only at h
    rcases sign_cases atom.sign with ⟨hpos, hsign⟩ | ⟨hpos, hsign⟩
    · rw [if_pos hpos] at h
      obtain rfl := pure_eq_ok.mp h
      rw [hsign, signedValue_one]
      exact ⟨rfl, (hzero _).symm⟩
    · rw [if_neg hpos] at h
      obtain ⟨built, hbuilt, h⟩ := bind_eq_ok.mp h
      obtain rfl := pure_eq_ok.mp h
      rw [hsign, hneg]
      exact ⟨rfl, (eval_bindOp hwidens hbuilt row).trans (hzero _).symm⟩
  | some acc =>
    dsimp only at h
    rcases sign_cases atom.sign with ⟨hpos, hsign⟩ | ⟨hpos, hsign⟩
    · rw [if_pos hpos] at h
      obtain ⟨built, hbuilt, h⟩ := bind_eq_ok.mp h
      obtain rfl := pure_eq_ok.mp h
      rw [hsign, signedValue_one]
      exact ⟨rfl, eval_bindOp hwidens hbuilt row⟩
    · rw [if_neg hpos] at h
      obtain ⟨built, hbuilt, h⟩ := bind_eq_ok.mp h
      obtain rfl := pure_eq_ok.mp h
      rw [hsign, hneg]
      exact ⟨rfl, (eval_bindOp hwidens hbuilt row).trans (hsub _ _)⟩

/-- What is built of some atoms is their sum. -/
theorem eval_buildAdditive (hwidens : c.BinderWidens env) {atoms : List Atom} {result : Option ClauseExpr}
    (h : c.buildAdditive atoms = .ok result) (row : Nat) :
    (result.isSome ↔ atoms ≠ []) ∧ spineValue c env row result = atomsValue c env row atoms := by
  have hfold : ∀ (atoms : List Atom) (acc result : Option ClauseExpr), atoms.foldlM c.appendTerm acc = .ok result →
      (result.isSome ↔ acc.isSome ∨ atoms ≠ []) ∧
        spineValue c env row result =
          Option.map₂ (· + ·) (spineValue c env row acc) (atomsValue c env row atoms) := by
    intro atoms
    induction atoms with
    | nil =>
      intro acc result h
      obtain rfl := pure_eq_ok.mp h
      exact ⟨by simp, (strictSum_singleton _).symm⟩
    | cons atom atoms ih =>
      intro acc result h
      rw [List.foldlM_cons] at h
      obtain ⟨next, hnext, h⟩ := bind_eq_ok.mp h
      obtain ⟨hsome, hvalue⟩ := eval_appendTerm hwidens hnext row
      obtain ⟨hiff, hsum⟩ := ih next result h
      refine ⟨by simp [hiff, hsome], ?_⟩
      rw [hsum, hvalue]
      exact map₂_assoc_of_associative _ _ _
  obtain ⟨hiff, hsum⟩ := hfold atoms none result h
  refine ⟨by simpa using hiff, hsum.trans ?_⟩
  rw [spineValue]
  cases atomsValue c env row atoms with
  | none => rfl
  | some v => exact congrArg some (zero_add v)

end DecideCanonicalizer

/-! ## Comparisons -/

/-- What a comparison says at a row; nothing when a side has no value. -/
def ClauseComparison.truth (env : ClauseEnv) (d : Nat) (comparison : ClauseComparison) (row : Nat) : Option Bool :=
  Option.map₂ (fun a b => decide (comparison.type.Holds a (.fin b)))
    (env.eval d comparison.left row) (env.eval d comparison.right row)

theorem Comparison.holds_flip (type : Comparison) (a b : ℚ) :
    type.flip.Holds a (.fin b) ↔ type.Holds b (.fin a) := by
  cases type <;> simp [Comparison.flip, Comparison.Holds, eq_comm]

/-- Terms move across the relation with their sign changed. -/
theorem Comparison.holds_cross (type : Comparison) (p q r s : ℚ) :
    type.Holds (p + -r) (.fin (-q + s)) ↔ type.Holds (p + q) (.fin (r + s)) := by
  cases type <;>
    simp only [Comparison.Holds, Bound.fin_lt_fin, Bound.fin_le_fin, Bound.fin.injEq, ne_eq]
  · constructor <;> intro h <;> linarith
  · constructor <;> intro h <;> linarith
  · constructor <;> intro h <;> linarith
  · rw [not_iff_not]
    constructor <;> intro h <;> linarith
  · constructor <;> intro h <;> linarith
  · constructor <;> intro h <;> linarith

namespace DecideCanonicalizer

variable {c : DecideCanonicalizer} {env : ClauseEnv}

theorem truth_swapped (comparison : ClauseComparison) (d row : Nat) :
    comparison.swapped.truth env d row = comparison.truth env d row := by
  unfold ClauseComparison.truth ClauseComparison.swapped
  dsimp only
  cases env.eval d comparison.left row with
  | none => rw [Option.map₂_none_left, Option.map₂_none_right]
  | some a =>
    cases env.eval d comparison.right row with
    | none => rfl
    | some b => exact congrArg some (decide_eq_decide.mpr (comparison.type.holds_flip b a))

theorem truth_finalizeBoundProvenance (comparison : ClauseComparison) (row : Nat) :
    (c.finalizeBoundProvenance comparison).truth env c.decideIndex row = comparison.truth env c.decideIndex row := by
  unfold finalizeBoundProvenance ClauseComparison.truth
  dsimp only
  split
  · rw [ClauseEnv.eval_setAlias, ClauseEnv.eval_setAlias]
  · rw [ClauseEnv.eval_setAlias]

theorem nodeAlias_finalizeBoundProvenance (comparison : ClauseComparison) :
    (c.finalizeBoundProvenance comparison).nodeAlias = comparison.nodeAlias := by
  unfold finalizeBoundProvenance
  dsimp only
  split <;> rfl

theorem atomsValue_cross (row : Nat) (atoms : List Atom) :
    atomsValue c env row (atoms.map Atom.cross) = (atomsValue c env row atoms).map (- ·) := by
  have hcross : ∀ atom : Atom, atomValue c env row atom.cross = (atomValue c env row atom).map (- ·) :=
    fun atom => signedValue_neg _ _
  unfold atomsValue
  rw [List.map_map, show atomValue c env row ∘ Atom.cross = Option.map (- ·) ∘ atomValue c env row from funext hcross,
    ← List.map_map]
  exact strictFold_map (fun a b => neg_add a b) neg_zero _

/-- The terms that stay and those that cross make up a side. -/
theorem atomsValue_placements (row : Nat) (atoms : List Atom) :
    Option.map₂ (· + ·) (atomsValue c env row (atoms.filter (·.placement == .left)))
        (atomsValue c env row (atoms.filter (·.placement == .right))) =
      atomsValue c env row atoms := by
  have hright : (fun atom : Atom => atom.placement == .right) = fun atom => !(atom.placement == .left) := by
    funext atom
    cases atom.placement <;> rfl
  rw [hright]
  exact strictFold_filter _ _ _

/-- Whether a side pair needs no rebuilding. -/
def isCanonicalPair (leftAtoms rightAtoms : List Atom) : Bool :=
  !hasPlacement rightAtoms .left && !hasPlacement leftAtoms .right && !hasScale leftAtoms

/-- What `canonicalizeOriented` came to: a copy, or the two sides rebuilt from the atoms of both. -/
theorem canonicalizeOriented_eq_ok {comparison result : ClauseComparison}
    (h : c.canonicalizeOriented comparison = .ok result) :
    ∃ leftAtoms rightAtoms, c.decompose .constraint comparison.left 1 = .ok leftAtoms ∧
      c.decompose .constraint comparison.right 1 = .ok rightAtoms ∧
      ((isCanonicalPair leftAtoms rightAtoms = true ∧ result = c.finalizeBoundProvenance comparison) ∨
        (isCanonicalPair leftAtoms rightAtoms = false ∧ ∃ left right,
          c.buildAdditive (partitionAtoms leftAtoms rightAtoms).1 = .ok left ∧
          c.buildAdditive (partitionAtoms leftAtoms rightAtoms).2 = .ok right ∧
          result = c.finalizeBoundProvenance
            { comparison with left := left.getD comparison.left, right := right.getD (.constant {} (some 0)) })) := by
  obtain ⟨leftAtoms, hleft, h⟩ := bind_eq_ok.mp h
  obtain ⟨rightAtoms, hright, h⟩ := bind_eq_ok.mp h
  refine ⟨leftAtoms, rightAtoms, hleft, hright, ?_⟩
  split at h
  · rename_i hcanonical
    exact .inl ⟨hcanonical, (pure_eq_ok.mp h).symm⟩
  · rename_i hcanonical
    obtain ⟨left, hbuiltLeft, h⟩ := bind_eq_ok.mp h
    obtain ⟨right, hbuiltRight, h⟩ := bind_eq_ok.mp h
    exact .inr ⟨by simpa [isCanonicalPair] using hcanonical, left, right, hbuiltLeft, hbuiltRight,
      (pure_eq_ok.mp h).symm⟩

/-- A comparison with a decision on its left says the same once it is canonical. -/
theorem truth_canonicalizeOriented (hwidens : c.BinderWidens env) {comparison result : ClauseComparison}
    {leftAtoms : List Atom} (hleft : c.decompose .constraint comparison.left 1 = .ok leftAtoms)
    (hhas : hasPlacement leftAtoms .left = true) (h : c.canonicalizeOriented comparison = .ok result) (row : Nat) :
    result.truth env c.decideIndex row = comparison.truth env c.decideIndex row := by
  obtain ⟨leftAtoms', rightAtoms, hleft', hright, h⟩ := canonicalizeOriented_eq_ok h
  obtain rfl : leftAtoms = leftAtoms' := Except.ok.inj (hleft.symm.trans hleft')
  rcases h with ⟨-, rfl⟩ | ⟨-, left, right, hbuiltLeft, hbuiltRight, rfl⟩
  · exact truth_finalizeBoundProvenance comparison row
  · dsimp only [partitionAtoms] at hbuiltLeft hbuiltRight
    rw [truth_finalizeBoundProvenance]
    obtain ⟨hsome, hvalueLeft⟩ := eval_buildAdditive hwidens hbuiltLeft row
    obtain ⟨-, hvalueRight⟩ := eval_buildAdditive hwidens hbuiltRight row
    obtain ⟨newLeft, rfl⟩ : ∃ newLeft, left = some newLeft := by
      obtain ⟨atom, hmem, hplacement⟩ := List.any_eq_true.mp hhas
      apply Option.isSome_iff_exists.mp
      rw [hsome]
      exact List.append_ne_nil_of_left_ne_nil
        (List.ne_nil_of_mem (List.mem_filter.mpr ⟨hmem, hplacement⟩)) _
    have hrightValue : env.eval c.decideIndex (right.getD (.constant {} (some 0))) row = spineValue c env row right := by
      cases right with
      | none => rw [Option.getD_none, ClauseEnv.eval]; rfl
      | some right => rfl
    have hL := atomsValue_decompose hwidens hleft row
    have hR := atomsValue_decompose hwidens hright row
    rw [signedValue_one, ← atomsValue_placements] at hL hR
    unfold ClauseComparison.truth
    dsimp only
    rw [hrightValue, hvalueRight, Option.getD_some, show env.eval c.decideIndex newLeft row = _ from hvalueLeft,
      atomsValue_append, atomsValue_append, atomsValue_cross, atomsValue_cross, ← hL, ← hR]
    generalize atomsValue c env row (leftAtoms.filter (·.placement == .left)) = p
    generalize atomsValue c env row (leftAtoms.filter (·.placement == .right)) = q
    generalize atomsValue c env row (rightAtoms.filter (·.placement == .left)) = r
    generalize atomsValue c env row (rightAtoms.filter (·.placement == .right)) = s
    rcases p with _ | p <;> rcases q with _ | q <;> rcases r with _ | r <;> rcases s with _ | s <;> try rfl
    exact congrArg some (decide_eq_decide.mpr (comparison.type.holds_cross p q r s))

/-- A comparison that was canonicalized says at every row what it said, and keeps its tags. -/
theorem truth_canonicalizeComparison (hwidens : c.BinderWidens env) {comparison result : ClauseComparison}
    (h : c.canonicalizeComparison comparison = .ok result) (row : Nat) :
    result.truth env c.decideIndex row = comparison.truth env c.decideIndex row := by
  obtain ⟨leftAtoms, hleft, h⟩ := bind_eq_ok.mp h
  obtain ⟨rightAtoms, hright, h⟩ := bind_eq_ok.mp h
  split at h
  · rename_i hhas
    exact truth_canonicalizeOriented hwidens hleft hhas h row
  · split at h
    · rename_i hhas
      have hswapped : c.decompose .constraint comparison.swapped.left 1 = .ok rightAtoms := hright
      rw [truth_canonicalizeOriented hwidens hswapped hhas h row, truth_swapped]
    · obtain rfl := pure_eq_ok.mp h
      rfl

theorem nodeAlias_canonicalizeComparison {comparison result : ClauseComparison}
    (h : c.canonicalizeComparison comparison = .ok result) : result.nodeAlias = comparison.nodeAlias := by
  have horiented : ∀ comparison result : ClauseComparison, c.canonicalizeOriented comparison = .ok result →
      result.nodeAlias = comparison.nodeAlias := by
    intro comparison result h
    obtain ⟨leftAtoms, rightAtoms, -, -, ⟨-, rfl⟩ | ⟨-, left, right, -, -, rfl⟩⟩ := canonicalizeOriented_eq_ok h <;>
      exact nodeAlias_finalizeBoundProvenance _
  obtain ⟨leftAtoms, -, h⟩ := bind_eq_ok.mp h
  obtain ⟨rightAtoms, -, h⟩ := bind_eq_ok.mp h
  split at h
  · exact horiented comparison result h
  · split at h
    · exact (horiented comparison.swapped result h).trans rfl
    · rw [← pure_eq_ok.mp h]

end DecideCanonicalizer

/-! ## Trees -/

mutual

/-- Two trees of one shape, with the same wrappers and tags, whose comparisons are related pairwise. -/
def ClauseTree.Pairwise (R : ClauseComparison → ClauseComparison → Prop) : ClauseTree → ClauseTree → Prop
  | .comparison a, .comparison b => R a b
  | .conjunction nodeAlias isAnd children, .conjunction nodeAlias' isAnd' children' =>
    nodeAlias = nodeAlias' ∧ isAnd = isAnd' ∧ ClauseTree.PairwiseAll R children children'
  | .wrapper nodeAlias isAnd kind tree metadata, .wrapper nodeAlias' isAnd' kind' tree' metadata' =>
    nodeAlias = nodeAlias' ∧ isAnd = isAnd' ∧ kind = kind' ∧ metadata = metadata' ∧ ClauseTree.Pairwise R tree tree'
  | .leaf a, .leaf b => a = b
  | _, _ => False

/-- As many trees on both sides, each of the shape of its partner. -/
def ClauseTree.PairwiseAll (R : ClauseComparison → ClauseComparison → Prop) :
    List ClauseTree → List ClauseTree → Prop
  | [], [] => True
  | tree :: trees, tree' :: trees' => ClauseTree.Pairwise R tree tree' ∧ ClauseTree.PairwiseAll R trees trees'
  | _, _ => False

end

/-- Induction over the trees of a conjunction and below a wrapper. -/
theorem ClauseTree.treeInduction {motive : ClauseTree → Prop} (hcomparison : ∀ a, motive (.comparison a))
    (hconjunction : ∀ nodeAlias isAnd children, (∀ child ∈ children, motive child) →
      motive (.conjunction nodeAlias isAnd children))
    (hwrapper : ∀ nodeAlias isAnd kind tree metadata, motive tree → motive (.wrapper nodeAlias isAnd kind tree metadata))
    (hleaf : ∀ expr, motive (.leaf expr)) (tree : ClauseTree) : motive tree :=
  @ClauseTree.rec motive (fun trees => ∀ child ∈ trees, motive child) hcomparison hconjunction hwrapper hleaf
    (fun _ h => absurd h List.not_mem_nil)
    (fun _ _ hhead htail => List.forall_mem_cons.mpr ⟨hhead, htail⟩) tree

namespace DecideCanonicalizer

variable {c : DecideCanonicalizer} {env : ClauseEnv}

/-- A relation that canonicalizing one comparison establishes is established along the tree. -/
theorem pairwise_canonicalizeTreeInternal {R : ClauseComparison → ClauseComparison → Prop}
    (hR : ∀ written canonical, c.canonicalizeComparison written = .ok canonical → R written canonical)
    (tree : ClauseTree) : ∀ result, c.canonicalizeTreeInternal tree = .ok result → tree.Pairwise R result := by
  induction tree using ClauseTree.treeInduction with
  | hcomparison written =>
    intro result h
    rw [canonicalizeTreeInternal] at h
    obtain ⟨canonical, hcanonical, h⟩ := bind_eq_ok.mp h
    obtain rfl := pure_eq_ok.mp h
    rw [ClauseTree.Pairwise]
    exact hR written canonical hcanonical
  | hconjunction nodeAlias isAnd children ih =>
    intro result h
    rw [canonicalizeTreeInternal] at h
    obtain ⟨results, hresults, hpure⟩ := bind_eq_ok.mp h
    clear h
    obtain rfl := pure_eq_ok.mp hpure
    clear hpure
    rw [ClauseTree.Pairwise]
    refine ⟨rfl, rfl, ?_⟩
    induction children generalizing results with
    | nil =>
      rw [canonicalizeTreesInternal] at hresults
      cases hresults
      rw [ClauseTree.PairwiseAll]
      trivial
    | cons child children ihchildren =>
      rw [canonicalizeTreesInternal] at hresults
      obtain ⟨first, hfirst, hresults⟩ := bind_eq_ok.mp hresults
      obtain ⟨others, hothers, hresults⟩ := bind_eq_ok.mp hresults
      obtain rfl := pure_eq_ok.mp hresults
      rw [ClauseTree.PairwiseAll]
      exact ⟨ih child List.mem_cons_self first hfirst,
        ihchildren (fun other hmem => ih other (List.mem_cons_of_mem _ hmem)) others hothers⟩
  | hwrapper nodeAlias isAnd kind tree metadata ih =>
    intro result h
    rw [canonicalizeTreeInternal] at h
    obtain ⟨canonical, hcanonical, h⟩ := bind_eq_ok.mp h
    obtain rfl := pure_eq_ok.mp h
    rw [ClauseTree.Pairwise]
    exact ⟨rfl, rfl, rfl, rfl, ih canonical hcanonical⟩
  | hleaf expr =>
    intro result h
    rw [canonicalizeTreeInternal] at h
    cases h
    rw [ClauseTree.Pairwise]

theorem canonicalizeTree_eq_ok {tree result : ClauseTree} (h : c.canonicalizeTree tree = .ok result) :
    c.canonicalizeTreeInternal tree = .ok result ∧ c.validateCanonicalTree result = .ok () := by
  obtain ⟨rebuilt, hrebuilt, h⟩ := bind_eq_ok.mp h
  obtain ⟨u, hvalid, h⟩ := bind_eq_ok.mp h
  obtain rfl := pure_eq_ok.mp h
  exact ⟨hrebuilt, hvalid⟩

/-- A SUCH THAT tree that is accepted keeps its shape, its wrappers, their conditions and PER columns and
every tag of a comparison, and each comparison says at every row what it said before: true, false or
nothing, as a side has no value. -/
theorem canonicalizeTree_sameTruth (c : DecideCanonicalizer) (env : ClauseEnv) (hwidens : c.BinderWidens env)
    (tree result : ClauseTree) (h : c.canonicalizeTree tree = .ok result) :
    tree.Pairwise (fun written canonical => canonical.nodeAlias = written.nodeAlias ∧
      ∀ row, canonical.truth env c.decideIndex row = written.truth env c.decideIndex row) result :=
  pairwise_canonicalizeTreeInternal
    (fun _ _ h => ⟨nodeAlias_canonicalizeComparison h, truth_canonicalizeComparison hwidens h⟩)
    tree result (canonicalizeTree_eq_ok h).1

/-- A context whose binder reads the first factor of a product as a DOUBLE. -/
def doubleFactorContext : ClientContext where
  bindScalarFunction kind _ := .ok fun i => if kind = .times ∧ i = 0 then some "DOUBLE" else none
  tryEvaluateScalar expr :=
    match expr with
    | .constant _ (some value) => some (.number value)
    | _ => none
  toSql _ := "expr"

/-- A row-scoped decision and a query-wide one. -/
def doubleFactorCanonicalizer : DecideCanonicalizer where
  context := doubleFactorContext
  decideIndex := 7
  variableScopes := [.row, .scalar]

/-- `3 - SUM(x) * 2 <= s + SUM(w)`, over the decisions `x` and `s`. -/
def mixedSidesTree : ClauseTree :=
  .comparison
    { type := .le
      left := .function {} false .minus [.constant {} (some 3),
        .function {} false .times [.aggregate {} "sum" [.columnRef {} 7 0] [], .constant {} (some 2)]]
      right := .function {} false .plus [.columnRef {} 7 1, .aggregate {} "sum" [.columnRef {} 1 0] []] }

/-- Every column holds the number of the row, and a reducer takes the value at the row. -/
def rowNumberEnv : ClauseEnv where
  column _ _ row := some (row : ℚ)
  subquery _ _ := none
  function _ _ _ := none
  convert _ value := some value
  aggregate _ children _ row := (children.map fun child => child row).headD none
  other _ _ _ := none

theorem binderWidens_doubleFactor : doubleFactorCanonicalizer.BinderWidens rowNumberEnv :=
  fun _ _ _ _ _ _ _ _ _ _ _ _ => rfl

theorem canonicalizeTree_sameTruth_mixedSides :
    ∃ result, doubleFactorCanonicalizer.canonicalizeTree mixedSidesTree = .ok result ∧
      mixedSidesTree.Pairwise (fun written canonical => canonical.nodeAlias = written.nodeAlias ∧
        ∀ row, canonical.truth rowNumberEnv 7 row = written.truth rowNumberEnv 7 row) result := by
  have hok : (doubleFactorCanonicalizer.canonicalizeTree mixedSidesTree).isOk = true := by decide +kernel
  cases h : doubleFactorCanonicalizer.canonicalizeTree mixedSidesTree with
  | error e =>
    rw [h] at hok
    cases hok
  | ok result =>
    exact ⟨result, rfl, canonicalizeTree_sameTruth doubleFactorCanonicalizer rowNumberEnv binderWidens_doubleFactor
      mixedSidesTree result h⟩

end DecideCanonicalizer

end Decidb
