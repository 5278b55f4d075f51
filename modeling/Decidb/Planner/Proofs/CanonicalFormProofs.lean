import Decidb.Planner.Proofs.CanonicalizerProofs

/-!
# What is canonical reads back

The spine that is built of some decision terms splits into exactly these terms again, each with its sign
and its factor, up to the casts the binder gave the factor; so what was canonicalized passes the verifier.
-/

namespace Decidb

open ClauseExpr

namespace DecideCanonicalizer

variable {c : DecideCanonicalizer}

/-! ## Factors that were judged -/

/-- A factor that may stand on a reducer: no decision, no reducer, one value for the whole query. -/
structure IsFactor (c : DecideCanonicalizer) (factor : ClauseExpr) : Prop where
  decisionFree : c.referencesDecideVar factor = false
  reducerFree : factor.containsReducer = false
  queryWide : c.isQueryWideConstant factor = true

theorem referencesDecideVar_castArgument (cast : Option String) (expr : ClauseExpr) :
    c.referencesDecideVar (castArgument cast expr) = c.referencesDecideVar expr := by
  cases cast with
  | none => rfl
  | some targetType => exact referencesDecide_cast _ _ _ _

theorem containsReducer_castArgument (cast : Option String) (expr : ClauseExpr) :
    (castArgument cast expr).containsReducer = expr.containsReducer := by
  cases cast with
  | none => rfl
  | some targetType => exact containsReducer_cast _ _ _

theorem isQueryWideConstant_castArgument (cast : Option String) {expr : ClauseExpr}
    (h : c.isQueryWideConstant expr = true) : c.isQueryWideConstant (castArgument cast expr) = true := by
  cases cast with
  | none => exact h
  | some targetType => rw [castArgument, isQueryWideConstant, h, Bool.or_true]

theorem IsFactor.castArgument {factor : ClauseExpr} (h : c.IsFactor factor) (cast : Option String) :
    c.IsFactor (castArgument cast factor) where
  decisionFree := (referencesDecideVar_castArgument cast factor).trans h.decisionFree
  reducerFree := (containsReducer_castArgument cast factor).trans h.reducerFree
  queryWide := isQueryWideConstant_castArgument cast h.queryWide

theorem isScalable_castArgument (cast : Option String) (expr : ClauseExpr) :
    c.isScalable (castArgument cast expr) = c.isScalable expr := by
  rw [isScalable, isScalable, referencesDecideVar_castArgument, containsReducer_castArgument]

/-- The two arguments of an operator, with the casts they were given. -/
theorem bindOp_pair {kind : FunctionKind} {a b result : ClauseExpr} (h : c.bindOp kind [a, b] = .ok result) :
    ∃ castA castB, result = .function {} false kind [castArgument castA a, castArgument castB b] := by
  obtain ⟨casts, -, rfl⟩ := bindOp_eq_ok h
  exact ⟨casts 0, casts 1, rfl⟩

theorem bindOp_single {kind : FunctionKind} {a result : ClauseExpr} (h : c.bindOp kind [a] = .ok result) :
    ∃ castA, result = .function {} false kind [castArgument castA a] := by
  obtain ⟨casts, -, rfl⟩ := bindOp_eq_ok h
  exact ⟨casts 0, rfl⟩

/-- An operator over two factors is a factor. -/
theorem IsFactor.bindOp {kind : FunctionKind} {a b result : ClauseExpr} (ha : c.IsFactor a) (hb : c.IsFactor b)
    (h : c.bindOp kind [a, b] = .ok result) : c.IsFactor result := by
  obtain ⟨castA, castB, rfl⟩ := bindOp_pair h
  have hA := ha.castArgument castA
  have hB := hb.castArgument castB
  refine ⟨?_, ?_, ?_⟩
  · have hA' := hA.decisionFree
    have hB' := hB.decisionFree
    simp only [referencesDecideVar] at hA' hB'
    simp [referencesDecideVar, hA', hB']
  · simp [hA.reducerFree, hB.reducerFree]
  · rw [isQueryWideConstant, allQueryWideConstant, allQueryWideConstant, allQueryWideConstant, hA.queryWide,
      hB.queryWide]
    simp

theorem judgeFactor_eq_ok {clause : ClauseKind} {divides : Bool} {factor term : ClauseExpr} {u : Unit}
    (h : c.judgeFactor clause divides factor term = .ok u) :
    c.referencesDecideVar factor = false ∧ c.isQueryWideConstant factor = true := by
  unfold judgeFactor at h
  by_cases href : c.referencesDecideVar factor = true
  · simp [href] at h
  · by_cases hwide : c.isQueryWideConstant factor = true
    · exact ⟨by simpa using href, hwide⟩
    · simp only [href, hwide, if_false, Bool.false_eq_true] at h
      split at h <;> cases h

theorem IsFactor.judge {factor : ClauseExpr} (h : c.IsFactor factor) (clause : ClauseKind) (divides : Bool)
    (term : ClauseExpr) : c.judgeFactor clause divides factor term = .ok () := by
  unfold judgeFactor
  rw [if_neg (by rw [h.decisionFree]; exact Bool.false_ne_true), if_pos h.queryWide]

theorem isScalable_iff {expr : ClauseExpr} :
    c.isScalable expr = true ↔ expr.containsReducer = true ∧ c.referencesDecideVar expr = true := by
  rw [isScalable, Bool.and_eq_true]

/-- A function over a scalable argument is scalable. -/
theorem isScalable_function {nodeAlias : NodeAlias} {isVolatile : Bool} {kind : FunctionKind} {args : List ClauseExpr}
    {arg : ClauseExpr} (hmem : arg ∈ args) (h : c.isScalable arg = true) :
    c.isScalable (.function nodeAlias isVolatile kind args) = true := by
  obtain ⟨hreducer, href⟩ := isScalable_iff.mp h
  refine isScalable_iff.mpr ⟨?_, ?_⟩
  · rw [containsReducer_function]
    exact List.any_eq_true.mpr ⟨arg, hmem, hreducer⟩
  · rw [referencesDecideVar, referencesDecide_function]
    exact List.any_eq_true.mpr ⟨arg, hmem, href⟩

/-- What taking the factors off an expression came to. -/
structure PeelsTo (c : DecideCanonicalizer) (expr : ClauseExpr) (peeled : PeeledFactors) : Prop where
  /-- Nothing more comes off the term. -/
  stops : ∀ clause, c.peelFactors clause peeled.term = .ok { term := peeled.term }
  factors : ∀ factor ∈ peeled.multipliers ++ peeled.divisors, c.IsFactor factor
  scalable : c.isScalable expr = true → c.isScalable peeled.term = true
  taken : peeled.multipliers ++ peeled.divisors ≠ [] → c.isScalable expr = true

theorem PeelsTo.self {expr : ClauseExpr} (h : ∀ clause, c.peelFactors clause expr = .ok { term := expr }) :
    c.PeelsTo expr { term := expr } where
  stops := h
  factors _ hmem := absurd hmem List.not_mem_nil
  scalable := id
  taken hne := absurd rfl hne

/-- One more factor, taken off an argument that is scalable. -/
theorem PeelsTo.factor {expr arg factor : ClauseExpr} {inner peeled : PeeledFactors} (hinner : c.PeelsTo arg inner)
    (harg : c.isScalable arg = true) (hexpr : c.isScalable expr = true) (hfactor : c.IsFactor factor)
    (hterm : peeled.term = inner.term)
    (hmem : ∀ f ∈ peeled.multipliers ++ peeled.divisors, f = factor ∨ f ∈ inner.multipliers ++ inner.divisors) :
    c.PeelsTo expr peeled where
  stops := by rw [hterm]; exact hinner.stops
  factors f hf := by
    rcases hmem f hf with rfl | hf
    · exact hfactor
    · exact hinner.factors f hf
  scalable _ := by rw [hterm]; exact hinner.scalable harg
  taken _ := hexpr

theorem peelsTo_peelFactors {clause : ClauseKind} {expr : ClauseExpr} {peeled : PeeledFactors}
    (h : c.peelFactors clause expr = .ok peeled) : c.PeelsTo expr peeled := by
  have hpair : ∀ a b : ClauseExpr, (c.isScalable a && !b.containsReducer) = true →
      c.isScalable a = true ∧ b.containsReducer = false := by
    intro a b hscale
    rw [Bool.and_eq_true, Bool.not_eq_true'] at hscale
    exact hscale
  fun_induction c.peelFactors clause expr generalizing peeled with
  | case1 nodeAlias targetType child hdecide ih =>
    obtain ⟨hstops, hfactors, hscalable, htaken⟩ := ih h
    have hcast : c.isScalable (.cast nodeAlias targetType child) = c.isScalable child := by
      rw [isScalable, isScalable, containsReducer_cast, referencesDecideVar, referencesDecideVar, referencesDecide_cast]
    exact ⟨hstops, hfactors, fun hs => hscalable (hcast.symm.trans hs), fun hne => hcast.trans (htaken hne)⟩
  | case2 nodeAlias targetType child hdecide =>
    cases h
    exact .self fun clause => by rw [peelFactors, if_neg hdecide]
  | case3 nodeAlias isVolatile a b hscale ih =>
    obtain ⟨u, hjudge, h⟩ := bind_eq_ok.mp h
    obtain ⟨inner, hinner, h⟩ := bind_eq_ok.mp h
    obtain rfl := pure_eq_ok.mp h
    obtain ⟨ha, hb⟩ := hpair a b hscale
    obtain ⟨href, hwide⟩ := judgeFactor_eq_ok hjudge
    exact (ih hinner).factor ha (isScalable_function List.mem_cons_self ha) ⟨href, hb, hwide⟩ rfl
      fun f hf => by simpa [or_assoc] using hf
  | case4 nodeAlias isVolatile a b hscale hscale' ih =>
    obtain ⟨u, hjudge, h⟩ := bind_eq_ok.mp h
    obtain ⟨inner, hinner, h⟩ := bind_eq_ok.mp h
    obtain rfl := pure_eq_ok.mp h
    obtain ⟨hb, ha⟩ := hpair b a hscale'
    obtain ⟨href, hwide⟩ := judgeFactor_eq_ok hjudge
    exact (ih hinner).factor hb (isScalable_function (List.mem_cons_of_mem _ List.mem_cons_self) hb)
      ⟨href, ha, hwide⟩ rfl fun f hf => by simpa [or_assoc] using hf
  | case5 nodeAlias isVolatile a b hscale hscale' =>
    cases h
    exact .self fun clause => by rw [peelFactors, if_neg hscale, if_neg hscale']
  | case6 nodeAlias isVolatile a b hscale ih =>
    obtain ⟨u, hjudge, h⟩ := bind_eq_ok.mp h
    obtain ⟨inner, hinner, h⟩ := bind_eq_ok.mp h
    obtain rfl := pure_eq_ok.mp h
    obtain ⟨ha, hb⟩ := hpair a b hscale
    obtain ⟨href, hwide⟩ := judgeFactor_eq_ok hjudge
    exact (ih hinner).factor ha (isScalable_function List.mem_cons_self ha) ⟨href, hb, hwide⟩ rfl
      fun f hf => by
        simp only [List.mem_append, List.mem_cons] at hf ⊢
        tauto
  | case7 nodeAlias isVolatile a b hscale =>
    cases h
    exact .self fun clause => by rw [peelFactors, if_neg hscale]
  | case8 expr h₁ h₂ h₃ =>
    cases h
    exact .self fun clause => by rw [peelFactors]; exacts [h₁, h₂, h₃]

/-! ## The atoms of a side -/

/-- What every atom of a side is: placed by whether its bare term references a decision, with nothing left
to take off or split. -/
structure AtomSound (c : DecideCanonicalizer) (atom : Atom) : Prop where
  placement_eq : atom.placement = c.classify atom.expr
  stops : ∀ clause, c.peelFactors clause atom.expr = .ok { term := atom.expr }
  bare : atom.scale = none → atom.scaleDivides = false ∧
    ∀ clause sign, c.decompose clause atom.expr sign = c.atomOf clause sign atom.expr
  scaled : ∀ scale, atom.scale = some scale → c.IsFactor scale ∧ c.isScalable atom.expr = true

theorem AtomSound.cross {atom : Atom} (h : c.AtomSound atom) : c.AtomSound atom.cross :=
  ⟨h.placement_eq, h.stops, h.bare, h.scaled⟩

theorem isFactor_product {factors : List ClauseExpr} {result : Option ClauseExpr}
    (h : c.product factors = .ok result) (hfactors : ∀ factor ∈ factors, c.IsFactor factor) :
    (result = none ↔ factors = []) ∧ ∀ expr, result = some expr → c.IsFactor expr := by
  have hfold : ∀ (factors : List ClauseExpr) (acc expr : ClauseExpr), (∀ factor ∈ factors, c.IsFactor factor) →
      c.IsFactor acc → factors.foldlM (fun acc factor => c.bindOp .times [acc, factor]) acc = .ok expr →
      c.IsFactor expr := by
    intro factors
    induction factors with
    | nil =>
      intro acc expr hfactors hacc h
      obtain rfl := pure_eq_ok.mp h
      exact hacc
    | cons factor factors ih =>
      intro acc expr hfactors hacc h
      rw [List.foldlM_cons] at h
      obtain ⟨next, hnext, h⟩ := bind_eq_ok.mp h
      exact ih next expr (fun f hf => hfactors f (List.mem_cons_of_mem _ hf))
        (hacc.bindOp (hfactors factor List.mem_cons_self) hnext) h
  cases factors with
  | nil =>
    cases h
    exact ⟨⟨fun _ => rfl, fun _ => rfl⟩, fun expr hexpr => by cases hexpr⟩
  | cons factor factors =>
    obtain ⟨expr, hexpr, h⟩ := bind_eq_ok.mp h
    obtain rfl := pure_eq_ok.mp h
    refine ⟨iff_of_false (Option.some_ne_none _) (List.cons_ne_nil _ _), fun other hother => ?_⟩
    obtain rfl := Option.some.inj hother
    exact hfold factors factor expr (fun f hf => hfactors f (List.mem_cons_of_mem _ hf))
      (hfactors factor List.mem_cons_self) hexpr

theorem isFactor_composeScale {multipliers divisors : List ClauseExpr} {composed : Option ClauseExpr × Bool}
    (h : c.composeScale multipliers divisors = .ok composed)
    (hfactors : ∀ factor ∈ multipliers ++ divisors, c.IsFactor factor) :
    (composed.1 = none → multipliers ++ divisors = []) ∧ ∀ scale, composed.1 = some scale → c.IsFactor scale := by
  obtain ⟨multiplier, hmultiplier, h⟩ := bind_eq_ok.mp h
  obtain ⟨divisor, hdivisor, h⟩ := bind_eq_ok.mp h
  obtain ⟨hm, hmFactor⟩ := isFactor_product hmultiplier fun f hf => hfactors f (List.mem_append_left _ hf)
  obtain ⟨hv, hvFactor⟩ := isFactor_product hdivisor fun f hf => hfactors f (List.mem_append_right _ hf)
  cases divisor with
  | none =>
    obtain rfl := hv.mp rfl
    obtain rfl : (multiplier, false) = composed := by
      cases multiplier <;> exact pure_eq_ok.mp h
    exact ⟨fun hnone => by rw [hm.mp hnone]; rfl, hmFactor⟩
  | some v =>
    cases multiplier with
    | none =>
      obtain rfl := pure_eq_ok.mp h
      exact ⟨fun hnone => (by cases hnone), hvFactor⟩
    | some m =>
      obtain ⟨scale, hscale, h⟩ := bind_eq_ok.mp h
      obtain rfl := pure_eq_ok.mp h
      refine ⟨fun hnone => (by cases hnone), fun other hother => ?_⟩
      obtain rfl := Option.some.inj hother
      exact (hmFactor m rfl).bindOp (hvFactor v rfl) hscale

theorem classify_eq_left {expr : ClauseExpr} : c.classify expr = .left ↔ c.referencesDecideVar expr = true := by
  unfold classify
  split <;> simp_all

theorem classify_eq_right {expr : ClauseExpr} : c.classify expr = .right ↔ c.referencesDecideVar expr = false := by
  unfold classify
  split <;> simp_all

/-- Where no factor was taken off a term boundary, the term is the expression itself. -/
theorem peelFactors_term {clause : ClauseKind} {expr : ClauseExpr} {peeled : PeeledFactors}
    (h : c.peelFactors clause expr = .ok peeled) (hnil : peeled.multipliers ++ peeled.divisors = [])
    (hcast : ∀ nodeAlias targetType child, expr = .cast nodeAlias targetType child →
      c.referencesDecideVar expr = false) : peeled.term = expr := by
  fun_cases c.peelFactors clause expr with
  | case1 nodeAlias targetType child hdecide =>
    rw [hcast nodeAlias targetType child rfl] at hdecide
    cases hdecide
  | case2 nodeAlias targetType child hdecide =>
    rw [peelFactors, if_neg hdecide] at h
    cases h
    rfl
  | case3 nodeAlias isVolatile a b hscale =>
    rw [peelFactors, if_pos hscale] at h
    obtain ⟨u, -, h⟩ := bind_eq_ok.mp h
    obtain ⟨inner, -, h⟩ := bind_eq_ok.mp h
    obtain rfl := pure_eq_ok.mp h
    cases hnil
  | case4 nodeAlias isVolatile a b hscale hscale' =>
    rw [peelFactors, if_neg hscale, if_pos hscale'] at h
    obtain ⟨u, -, h⟩ := bind_eq_ok.mp h
    obtain ⟨inner, -, h⟩ := bind_eq_ok.mp h
    obtain rfl := pure_eq_ok.mp h
    cases hnil
  | case5 nodeAlias isVolatile a b hscale hscale' =>
    rw [peelFactors, if_neg hscale, if_neg hscale'] at h
    cases h
    rfl
  | case6 nodeAlias isVolatile a b hscale =>
    rw [peelFactors, if_pos hscale] at h
    obtain ⟨u, -, h⟩ := bind_eq_ok.mp h
    obtain ⟨inner, -, h⟩ := bind_eq_ok.mp h
    obtain rfl := pure_eq_ok.mp h
    exact absurd (List.append_eq_nil_iff.mp hnil).2 (List.cons_ne_nil _ _)
  | case7 nodeAlias isVolatile a b hscale =>
    rw [peelFactors, if_neg hscale] at h
    cases h
    rfl
  | case8 other h₁ h₂ h₃ =>
    rw [peelFactors] at h
    · cases h
      rfl
    · exact h₁
    · exact h₂
    · exact h₃

/-- The atom a term boundary becomes. -/
theorem atomSound_atomOf {clause : ClauseKind} {sign : ℤˣ} {expr : ClauseExpr} {atoms : List Atom}
    (h : c.atomOf clause sign expr = .ok atoms)
    (hbare : ∀ clause sign, c.decompose clause expr sign = c.atomOf clause sign expr)
    (hcast : ∀ nodeAlias targetType child, expr = .cast nodeAlias targetType child →
      c.referencesDecideVar expr = false) :
    ∃ atom, atoms = [atom] ∧ c.AtomSound atom ∧ atom.placement = c.classify expr := by
  obtain ⟨peeled, hpeeled, h⟩ := bind_eq_ok.mp h
  obtain rfl := pure_eq_ok.mp h
  refine ⟨_, rfl, ?_, rfl⟩
  obtain ⟨factors, hfactors, hpeeled⟩ := bind_eq_ok.mp hpeeled
  obtain ⟨hstops, hall, hscalable, htaken⟩ := peelsTo_peelFactors hfactors
  split at hpeeled
  · rename_i hempty
    obtain rfl := pure_eq_ok.mp hpeeled
    rw [Bool.and_eq_true, List.isEmpty_iff, List.isEmpty_iff] at hempty
    have hterm : factors.term = expr :=
      peelFactors_term hfactors (List.append_eq_nil_iff.mpr hempty) hcast
    rw [hterm] at hstops
    exact ⟨rfl, hstops, fun _ => ⟨rfl, hbare⟩, fun scale hscale => by cases hscale⟩
  · rename_i hne
    obtain ⟨composed, hcomposed, hpeeled⟩ := bind_eq_ok.mp hpeeled
    obtain rfl := pure_eq_ok.mp hpeeled
    obtain ⟨hnone, hfactor⟩ := isFactor_composeScale hcomposed hall
    have htakenNe : factors.multipliers ++ factors.divisors ≠ [] := by
      intro hnil
      obtain ⟨hm, hv⟩ := List.append_eq_nil_iff.mp hnil
      exact hne (by rw [hm, hv]; rfl)
    have hexpr := htaken htakenNe
    refine ⟨?_, hstops, fun hscale => absurd (hnone hscale) htakenNe,
      fun scale hscale => ⟨hfactor scale hscale, hscalable hexpr⟩⟩
    rw [classify_eq_left.mpr (isScalable_iff.mp hexpr).2, classify_eq_left.mpr (isScalable_iff.mp (hscalable hexpr)).2]

/-- Every atom of a side is sound, and some atom has to stand on the left exactly if the side references a
decision. -/
theorem atomSound_decompose {clause : ClauseKind} {expr : ClauseExpr} {sign : ℤˣ} {atoms : List Atom}
    (h : c.decompose clause expr sign = .ok atoms) :
    (∀ atom ∈ atoms, c.AtomSound atom) ∧ hasPlacement atoms .left = c.referencesDecideVar expr := by
  have hatom : ∀ {sign : ℤˣ} {expr : ClauseExpr} {atoms : List Atom}, c.atomOf clause sign expr = .ok atoms →
      (∀ clause sign, c.decompose clause expr sign = c.atomOf clause sign expr) →
      (∀ nodeAlias targetType child, expr = .cast nodeAlias targetType child → c.referencesDecideVar expr = false) →
      (∀ atom ∈ atoms, c.AtomSound atom) ∧ hasPlacement atoms .left = c.referencesDecideVar expr := by
    intro sign expr atoms h hbare hcast
    obtain ⟨atom, rfl, hsound, hplacement⟩ := atomSound_atomOf h hbare hcast
    refine ⟨fun a ha => by rw [List.mem_singleton.mp ha]; exact hsound, ?_⟩
    rw [hasPlacement, List.any_cons, List.any_nil, Bool.or_false, hplacement]
    cases href : c.referencesDecideVar expr with
    | true => rw [classify_eq_left.mpr href]; rfl
    | false => rw [classify_eq_right.mpr href]; rfl
  have happend : ∀ atoms more : List Atom, hasPlacement (atoms ++ more) .left =
      (hasPlacement atoms .left || hasPlacement more .left) := fun atoms more => List.any_append
  fun_induction c.decompose clause expr sign generalizing atoms with
  | case1 nodeAlias isVolatile a b sign iha ihb =>
    obtain ⟨left, hleft, h⟩ := bind_eq_ok.mp h
    obtain ⟨right, hright, h⟩ := bind_eq_ok.mp h
    obtain rfl := pure_eq_ok.mp h
    obtain ⟨hsoundLeft, hplaceLeft⟩ := iha hleft
    obtain ⟨hsoundRight, hplaceRight⟩ := ihb hright
    refine ⟨fun atom hmem => (List.mem_append.mp hmem).elim (hsoundLeft atom) (hsoundRight atom), ?_⟩
    rw [happend, hplaceLeft, hplaceRight]
    simp [referencesDecideVar]
  | case2 nodeAlias isVolatile a b sign iha ihb =>
    obtain ⟨left, hleft, h⟩ := bind_eq_ok.mp h
    obtain ⟨right, hright, h⟩ := bind_eq_ok.mp h
    obtain rfl := pure_eq_ok.mp h
    obtain ⟨hsoundLeft, hplaceLeft⟩ := iha hleft
    obtain ⟨hsoundRight, hplaceRight⟩ := ihb hright
    refine ⟨fun atom hmem => (List.mem_append.mp hmem).elim (hsoundLeft atom) (hsoundRight atom), ?_⟩
    rw [happend, hplaceLeft, hplaceRight]
    simp [referencesDecideVar]
  | case3 nodeAlias isVolatile a sign ih =>
    obtain ⟨hsound, hplace⟩ := ih h
    exact ⟨hsound, hplace.trans (by simp [referencesDecideVar])⟩
  | case4 nodeAlias targetType child sign hdecide ih =>
    obtain ⟨hsound, hplace⟩ := ih h
    exact ⟨hsound, hplace.trans (by simp [referencesDecideVar])⟩
  | case5 nodeAlias targetType child sign hdecide =>
    exact hatom h (fun clause sign => by rw [decompose, if_neg hdecide]) fun _ _ _ _ => by simpa using hdecide
  | case6 expr sign h₁ h₂ h₃ h₄ =>
    refine hatom h (fun clause sign => ?_) fun nodeAlias targetType child heq => (h₄ _ _ _ heq).elim
    rw [decompose]
    · exact h₁
    · exact h₂
    · exact h₃
    · exact h₄

/-! ## Reading a spine back -/

/-- The same term with the same factor, up to a cast on the factor, under one more sign. -/
structure Recast (sign : ℤˣ) (atom read : Atom) : Prop where
  sign_eq : read.sign = sign * atom.sign
  expr_eq : read.expr = atom.expr
  placement_eq : read.placement = atom.placement
  divides_eq : read.scaleDivides = atom.scaleDivides
  scale_eq : ∃ cast, read.scale = atom.scale.map (castArgument cast)

/-- An expression that references a decision and splits into the given terms. -/
def ReadsAs (c : DecideCanonicalizer) (expr : ClauseExpr) (atoms : List Atom) : Prop :=
  c.referencesDecideVar expr = true ∧ ∀ clause sign, ∃ read, c.decompose clause expr sign = .ok read ∧
    List.Forall₂ (Recast sign) atoms read

theorem ReadsAs.castArgument {expr : ClauseExpr} {atoms : List Atom} (h : c.ReadsAs expr atoms)
    (cast : Option String) : c.ReadsAs (castArgument cast expr) atoms := by
  cases cast with
  | none => exact h
  | some targetType =>
    have href : c.referencesDecideVar (.cast {} targetType expr) = true :=
      (referencesDecideVar_castArgument (some targetType) expr).trans h.1
    refine ⟨href, fun clause sign => ?_⟩
    rw [Decidb.castArgument, decompose, if_pos href]
    exact h.2 clause sign

theorem recast_append {sign : ℤˣ} {atoms more read readMore : List Atom}
    (h : List.Forall₂ (Recast sign) atoms read) (hmore : List.Forall₂ (Recast sign) more readMore) :
    List.Forall₂ (Recast sign) (atoms ++ more) (read ++ readMore) :=
  List.rel_append h hmore

theorem ReadsAs.plus {a b : ClauseExpr} {atoms more : List Atom} (ha : c.ReadsAs a atoms) (hb : c.ReadsAs b more)
    (nodeAlias : NodeAlias) (isVolatile : Bool) :
    c.ReadsAs (.function nodeAlias isVolatile .plus [a, b]) (atoms ++ more) := by
  refine ⟨?_, fun clause sign => ?_⟩
  · have href : a.referencesDecide c.decideIndex = true := ha.1
    simp [referencesDecideVar, href]
  · obtain ⟨left, hleft, hrecast⟩ := ha.2 clause sign
    obtain ⟨right, hright, hrecast'⟩ := hb.2 clause sign
    refine ⟨left ++ right, ?_, recast_append hrecast hrecast'⟩
    rw [decompose, hleft, hright]
    rfl

/-- The other sign on every term. -/
def negateAtoms (atoms : List Atom) : List Atom := atoms.map Atom.cross

theorem recast_negate {sign : ℤˣ} {atoms read : List Atom} (h : List.Forall₂ (Recast (-sign)) atoms read) :
    List.Forall₂ (Recast sign) (negateAtoms atoms) read := by
  induction h with
  | nil => exact .nil
  | cons hatom _ ih =>
    refine .cons ⟨?_, hatom.expr_eq, hatom.placement_eq, hatom.divides_eq, hatom.scale_eq⟩ ih
    rw [hatom.sign_eq, Atom.cross, neg_mul, mul_neg]

theorem ReadsAs.minus {a b : ClauseExpr} {atoms more : List Atom} (ha : c.ReadsAs a atoms) (hb : c.ReadsAs b more)
    (nodeAlias : NodeAlias) (isVolatile : Bool) :
    c.ReadsAs (.function nodeAlias isVolatile .minus [a, b]) (atoms ++ negateAtoms more) := by
  refine ⟨?_, fun clause sign => ?_⟩
  · have href : a.referencesDecide c.decideIndex = true := ha.1
    simp [referencesDecideVar, href]
  · obtain ⟨left, hleft, hrecast⟩ := ha.2 clause sign
    obtain ⟨right, hright, hrecast'⟩ := hb.2 clause (-sign)
    refine ⟨left ++ right, ?_, recast_append hrecast (recast_negate hrecast')⟩
    rw [decompose, hleft, hright]
    rfl

theorem ReadsAs.negate {a : ClauseExpr} {atoms : List Atom} (ha : c.ReadsAs a atoms) (nodeAlias : NodeAlias)
    (isVolatile : Bool) : c.ReadsAs (.function nodeAlias isVolatile .minus [a]) (negateAtoms atoms) := by
  refine ⟨?_, fun clause sign => ?_⟩
  · have href : a.referencesDecide c.decideIndex = true := ha.1
    simp [referencesDecideVar, href]
  · obtain ⟨read, hread, hrecast⟩ := ha.2 clause (-sign)
    refine ⟨read, ?_, recast_negate hrecast⟩
    rw [decompose]
    exact hread

/-- The term walk stops below a cast that the binder put over a term. -/
theorem peelFactors_castArgument {term : ClauseExpr} {clause : ClauseKind}
    (hstops : c.peelFactors clause term = .ok { term := term }) (href : c.referencesDecideVar term = true)
    (cast : Option String) : c.peelFactors clause (castArgument cast term) = .ok { term := term } := by
  cases cast with
  | none => exact hstops
  | some targetType =>
    have hcast : c.referencesDecideVar (.cast {} targetType term) = true :=
      (referencesDecideVar_castArgument (some targetType) term).trans href
    rw [castArgument, peelFactors, if_pos hcast]
    exact hstops

/-- The one term an atom is rebuilt as reads back as that atom, apart from its sign. -/
theorem readsAs_rescale {atom : Atom} (hsound : c.AtomSound atom) (hleft : atom.placement = .left)
    {term : ClauseExpr} (h : c.rescale atom = .ok term) : c.ReadsAs term [{ atom with sign := 1 }] := by
  have href : c.referencesDecideVar atom.expr = true :=
    classify_eq_left.mp (hsound.placement_eq.symm.trans hleft)
  unfold rescale at h
  cases hscale : atom.scale with
  | none =>
    rw [hscale] at h
    cases h
    obtain ⟨hdivides, hbare⟩ := hsound.bare hscale
    refine ⟨href, fun clause sign => ⟨[⟨sign, atom.expr, c.classify atom.expr, none, false⟩], ?_, ?_⟩⟩
    · rw [hbare, atomOf, peelScale, hsound.stops clause]
      rfl
    · exact .cons ⟨(mul_one sign).symm, rfl, hsound.placement_eq.symm, hdivides.symm, none, rfl⟩ .nil
  | some scale =>
    rw [hscale] at h
    dsimp only at h
    obtain ⟨hfactor, hscalable⟩ := hsound.scaled scale hscale
    have hnot : c.isScalable scale = false := by
      rw [isScalable, hfactor.reducerFree, Bool.false_and]
    split at h
    · rename_i hdivides
      obtain ⟨castTerm, castScale, rfl⟩ := bindOp_pair h
      have hfactor' := hfactor.castArgument castScale
      have hscalable' : c.isScalable (castArgument castTerm atom.expr) = true :=
        (isScalable_castArgument castTerm atom.expr).trans hscalable
      have hfunction : c.isScalable
          (.function {} false .divide [castArgument castTerm atom.expr, castArgument castScale scale]) = true :=
        isScalable_function List.mem_cons_self hscalable'
      have href' := (isScalable_iff.mp hfunction).2
      refine ⟨href', fun clause sign =>
        ⟨[⟨sign, atom.expr, .left, some (castArgument castScale scale), true⟩], ?_, ?_⟩⟩
      · rw [decompose]
        · rw [atomOf, peelScale, peelFactors,
            if_pos (by rw [hscalable', hfactor'.reducerFree]; rfl), hfactor'.judge,
            peelFactors_castArgument (hsound.stops clause) href, classify_eq_left.mpr href']
          rfl
        all_goals simp
      · exact .cons ⟨(mul_one sign).symm, rfl, hleft.symm, hdivides.symm, castScale, rfl⟩ .nil
    · rename_i hdivides
      obtain ⟨castScale, castTerm, rfl⟩ := bindOp_pair h
      have hfactor' := hfactor.castArgument castScale
      have hscalable' : c.isScalable (castArgument castTerm atom.expr) = true :=
        (isScalable_castArgument castTerm atom.expr).trans hscalable
      have hnot' : c.isScalable (castArgument castScale scale) = false :=
        (isScalable_castArgument castScale scale).trans hnot
      have hfunction : c.isScalable
          (.function {} false .times [castArgument castScale scale, castArgument castTerm atom.expr]) = true :=
        isScalable_function (List.mem_cons_of_mem _ List.mem_cons_self) hscalable'
      have href' := (isScalable_iff.mp hfunction).2
      refine ⟨href', fun clause sign =>
        ⟨[⟨sign, atom.expr, .left, some (castArgument castScale scale), false⟩], ?_, ?_⟩⟩
      · rw [decompose]
        · rw [atomOf, peelScale, peelFactors,
            if_neg (by rw [hnot', Bool.false_and]; exact Bool.false_ne_true),
            if_pos (by rw [hscalable', hfactor'.reducerFree]; rfl), hfactor'.judge,
            peelFactors_castArgument (hsound.stops clause) href, classify_eq_left.mpr href']
          rfl
        all_goals simp
      · exact .cons ⟨(mul_one sign).symm, rfl, hleft.symm, by simpa using hdivides, castScale, rfl⟩ .nil

/-- One more decision term on a spine. -/
theorem readsAs_appendTerm {acc next : Option ClauseExpr} {atom : Atom} {before : List Atom}
    (hacc : ∀ expr, acc = some expr → c.ReadsAs expr before) (hnone : acc = none → before = [])
    (hsound : c.AtomSound atom) (hleft : atom.placement = .left) (h : c.appendTerm acc atom = .ok next) :
    ∃ expr, next = some expr ∧ c.ReadsAs expr (before ++ [atom]) := by
  obtain ⟨term, hterm, h⟩ := bind_eq_ok.mp h
  have hreads := readsAs_rescale hsound hleft hterm
  have hpos : atom.sign = 1 → [{ atom with sign := 1 }] = [atom] := fun h => by rw [← h]
  have hneg : atom.sign = -1 → negateAtoms [{ atom with sign := 1 }] = [atom] := fun h => by
    rw [negateAtoms, List.map_cons, List.map_nil, Atom.cross, ← h]
  cases acc with
  | none =>
    rw [hnone rfl, List.nil_append]
    dsimp only at h
    rcases sign_cases atom.sign with ⟨hnonneg, hsign⟩ | ⟨hnonneg, hsign⟩
    · rw [if_pos hnonneg] at h
      obtain rfl := pure_eq_ok.mp h
      exact ⟨term, rfl, hpos hsign ▸ hreads⟩
    · rw [if_neg hnonneg] at h
      obtain ⟨built, hbuilt, h⟩ := bind_eq_ok.mp h
      obtain rfl := pure_eq_ok.mp h
      obtain ⟨cast, rfl⟩ := bindOp_single hbuilt
      exact ⟨_, rfl, hneg hsign ▸ (hreads.castArgument cast).negate _ _⟩
  | some acc =>
    have hbefore := hacc acc rfl
    dsimp only at h
    rcases sign_cases atom.sign with ⟨hnonneg, hsign⟩ | ⟨hnonneg, hsign⟩
    · rw [if_pos hnonneg] at h
      obtain ⟨built, hbuilt, h⟩ := bind_eq_ok.mp h
      obtain rfl := pure_eq_ok.mp h
      obtain ⟨castAcc, castTerm, rfl⟩ := bindOp_pair hbuilt
      exact ⟨_, rfl, hpos hsign ▸ (hbefore.castArgument castAcc).plus (hreads.castArgument castTerm) _ _⟩
    · rw [if_neg hnonneg] at h
      obtain ⟨built, hbuilt, h⟩ := bind_eq_ok.mp h
      obtain rfl := pure_eq_ok.mp h
      obtain ⟨castAcc, castTerm, rfl⟩ := bindOp_pair hbuilt
      exact ⟨_, rfl, hneg hsign ▸ (hbefore.castArgument castAcc).minus (hreads.castArgument castTerm) _ _⟩

/-- What is built of decision terms splits into exactly these. -/
theorem readsAs_buildAdditive {atoms : List Atom} {expr : ClauseExpr}
    (hatoms : ∀ atom ∈ atoms, c.AtomSound atom ∧ atom.placement = .left)
    (h : c.buildAdditive atoms = .ok (some expr)) : c.ReadsAs expr atoms := by
  have hfold : ∀ (atoms before : List Atom) (acc : Option ClauseExpr),
      (∀ atom ∈ atoms, c.AtomSound atom ∧ atom.placement = .left) →
      (∀ expr, acc = some expr → c.ReadsAs expr before) → (acc = none → before = []) →
      atoms.foldlM c.appendTerm acc = .ok (some expr) → c.ReadsAs expr (before ++ atoms) := by
    intro atoms
    induction atoms with
    | nil =>
      intro before acc _ hacc _ h
      rw [List.append_nil]
      exact hacc expr (pure_eq_ok.mp h)
    | cons atom atoms ih =>
      intro before acc hatoms hacc hnone h
      rw [List.foldlM_cons] at h
      obtain ⟨next, hnext, h⟩ := bind_eq_ok.mp h
      obtain ⟨hsound, hleft⟩ := hatoms atom List.mem_cons_self
      obtain ⟨built, rfl, hreads⟩ := readsAs_appendTerm hacc hnone hsound hleft hnext
      have := ih (before ++ [atom]) (some built) (fun a ha => hatoms a (List.mem_cons_of_mem _ ha))
        (fun other hother => by obtain rfl := Option.some.inj hother; exact hreads) (fun h => by cases h) h
      rwa [List.append_assoc, List.singleton_append] at this
  exact hfold atoms [] none hatoms (fun _ h => by cases h) (fun _ => rfl) h

/-- What is built of terms without a decision has none. -/
theorem decisionFree_buildAdditive {atoms : List Atom} {expr : ClauseExpr}
    (hatoms : ∀ atom ∈ atoms, c.AtomSound atom ∧ atom.placement = .right)
    (h : c.buildAdditive atoms = .ok (some expr)) : c.referencesDecideVar expr = false := by
  have hterm : ∀ (atom : Atom) (term : ClauseExpr), c.AtomSound atom → atom.placement = .right →
      c.rescale atom = .ok term → c.referencesDecideVar term = false := by
    intro atom term hsound hright h
    have href := classify_eq_right.mp (hsound.placement_eq.symm.trans hright)
    cases hscale : atom.scale with
    | none =>
      rw [rescale, hscale] at h
      cases h
      exact href
    | some scale =>
      have hdecision := (isScalable_iff.mp (hsound.scaled scale hscale).2).2
      rw [href] at hdecision
      cases hdecision
  have happend : ∀ (acc next : Option ClauseExpr) (atom : Atom), c.AtomSound atom → atom.placement = .right →
      (∀ expr, acc = some expr → c.referencesDecideVar expr = false) → c.appendTerm acc atom = .ok next →
      ∀ expr, next = some expr → c.referencesDecideVar expr = false := by
    intro acc next atom hsound hright hacc h expr hexpr
    obtain ⟨term, hbuiltTerm, h⟩ := bind_eq_ok.mp h
    have href := hterm atom term hsound hright hbuiltTerm
    have hpair : ∀ (kind : FunctionKind) (a built : ClauseExpr), c.referencesDecideVar a = false →
        c.bindOp kind [a, term] = .ok built → c.referencesDecideVar built = false := by
      intro kind a built ha hbuilt
      obtain ⟨castA, castB, rfl⟩ := bindOp_pair hbuilt
      have hA := (referencesDecideVar_castArgument castA a).trans ha
      have hB := (referencesDecideVar_castArgument castB term).trans href
      simp only [referencesDecideVar] at hA hB
      simp [referencesDecideVar, hA, hB]
    cases acc with
    | none =>
      dsimp only at h
      split at h
      · obtain rfl := pure_eq_ok.mp h
        obtain rfl := Option.some.inj hexpr
        exact href
      · obtain ⟨built, hbuilt, h⟩ := bind_eq_ok.mp h
        obtain rfl := pure_eq_ok.mp h
        obtain rfl := Option.some.inj hexpr
        obtain ⟨cast, rfl⟩ := bindOp_single hbuilt
        have hcast := (referencesDecideVar_castArgument cast term).trans href
        simp only [referencesDecideVar] at hcast
        simp [referencesDecideVar, hcast]
    | some acc =>
      dsimp only at h
      split at h
      · obtain ⟨built, hbuilt, h⟩ := bind_eq_ok.mp h
        obtain rfl := pure_eq_ok.mp h
        obtain rfl := Option.some.inj hexpr
        exact hpair _ acc _ (hacc acc rfl) hbuilt
      · obtain ⟨built, hbuilt, h⟩ := bind_eq_ok.mp h
        obtain rfl := pure_eq_ok.mp h
        obtain rfl := Option.some.inj hexpr
        exact hpair _ acc _ (hacc acc rfl) hbuilt
  have hfold : ∀ (atoms : List Atom) (acc : Option ClauseExpr),
      (∀ atom ∈ atoms, c.AtomSound atom ∧ atom.placement = .right) →
      (∀ expr, acc = some expr → c.referencesDecideVar expr = false) →
      atoms.foldlM c.appendTerm acc = .ok (some expr) → c.referencesDecideVar expr = false := by
    intro atoms
    induction atoms with
    | nil =>
      intro acc _ hacc h
      exact hacc expr (pure_eq_ok.mp h)
    | cons atom atoms ih =>
      intro acc hatoms hacc h
      rw [List.foldlM_cons] at h
      obtain ⟨next, hnext, h⟩ := bind_eq_ok.mp h
      obtain ⟨hsound, hright⟩ := hatoms atom List.mem_cons_self
      exact ih next (fun a ha => hatoms a (List.mem_cons_of_mem _ ha)) (happend acc next atom hsound hright hacc hnext) h
  exact hfold atoms none hatoms (fun _ h => by cases h) h

theorem exists_buildAdditive {atoms : List Atom} {result : Option ClauseExpr}
    (h : c.buildAdditive atoms = .ok result) (hne : atoms ≠ []) : ∃ expr, result = some expr := by
  have happend : ∀ (acc next : Option ClauseExpr) (atom : Atom), c.appendTerm acc atom = .ok next → next.isSome := by
    intro acc next atom h
    obtain ⟨term, -, h⟩ := bind_eq_ok.mp h
    cases acc with
    | none =>
      dsimp only at h
      split at h
      · rw [← pure_eq_ok.mp h]
        rfl
      · obtain ⟨built, -, h⟩ := bind_eq_ok.mp h
        rw [← pure_eq_ok.mp h]
        rfl
    | some acc =>
      dsimp only at h
      split at h
      · obtain ⟨built, -, h⟩ := bind_eq_ok.mp h
        rw [← pure_eq_ok.mp h]
        rfl
      · obtain ⟨built, -, h⟩ := bind_eq_ok.mp h
        rw [← pure_eq_ok.mp h]
        rfl
  have hfold : ∀ (atoms : List Atom) (acc : Option ClauseExpr), atoms.foldlM c.appendTerm acc = .ok result →
      acc.isSome ∨ atoms ≠ [] → result.isSome := by
    intro atoms
    induction atoms with
    | nil =>
      intro acc h hor
      rw [← pure_eq_ok.mp h]
      exact hor.resolve_right fun hne => hne rfl
    | cons atom atoms ih =>
      intro acc h _
      rw [List.foldlM_cons] at h
      obtain ⟨next, hnext, h⟩ := bind_eq_ok.mp h
      exact ih next h (.inl (happend acc next atom hnext))
  exact Option.isSome_iff_exists.mp (hfold atoms none h (.inr hne))

/-! ## Canonical comparisons -/

/-- The form the verifier asks for: decisions on the left, none on the right, and on the left only terms
that reference one. -/
structure IsCanonical (c : DecideCanonicalizer) (comparison : ClauseComparison) : Prop where
  left : c.referencesDecideVar comparison.left = true
  right : c.referencesDecideVar comparison.right = false
  leftTerms : ∀ atoms, c.decompose .constraint comparison.left 1 = .ok atoms → hasPlacement atoms .right = false

theorem IsCanonical.finalize {comparison : ClauseComparison} (h : c.IsCanonical comparison) :
    c.IsCanonical (c.finalizeBoundProvenance comparison) := by
  have hleft : (c.finalizeBoundProvenance comparison).left = comparison.left := by
    unfold finalizeBoundProvenance
    dsimp only
    split <;> rfl
  have hright : c.referencesDecideVar (c.finalizeBoundProvenance comparison).right =
      c.referencesDecideVar comparison.right := by
    unfold finalizeBoundProvenance referencesDecideVar
    dsimp only
    split
    · rw [referencesDecide_setAlias, referencesDecide_setAlias]
    · rw [referencesDecide_setAlias]
  exact ⟨hleft.symm ▸ h.left, hright.trans h.right, hleft.symm ▸ h.leftTerms⟩

theorem hasPlacement_eq_false {atoms : List Atom} {placement : Placement} :
    hasPlacement atoms placement = false ↔ ∀ atom ∈ atoms, atom.placement ≠ placement := by
  simp [hasPlacement]

theorem atoms_partition {leftAtoms rightAtoms : List Atom} (hleft : ∀ atom ∈ leftAtoms, c.AtomSound atom)
    (hright : ∀ atom ∈ rightAtoms, c.AtomSound atom) :
    (∀ atom ∈ (partitionAtoms leftAtoms rightAtoms).1, c.AtomSound atom ∧ atom.placement = .left) ∧
      ∀ atom ∈ (partitionAtoms leftAtoms rightAtoms).2, c.AtomSound atom ∧ atom.placement = .right := by
  have hstay : ∀ (atoms : List Atom) (placement : Placement), (∀ atom ∈ atoms, c.AtomSound atom) →
      ∀ atom ∈ atoms.filter (·.placement == placement), c.AtomSound atom ∧ atom.placement = placement := by
    intro atoms placement hatoms atom hmem
    obtain ⟨hmem, hplacement⟩ := List.mem_filter.mp hmem
    exact ⟨hatoms atom hmem, by simpa using hplacement⟩
  have hcross : ∀ (atoms : List Atom) (placement : Placement), (∀ atom ∈ atoms, c.AtomSound atom) →
      ∀ atom ∈ (atoms.filter (·.placement == placement)).map Atom.cross,
        c.AtomSound atom ∧ atom.placement = placement := by
    intro atoms placement hatoms atom hmem
    obtain ⟨original, horiginal, rfl⟩ := List.mem_map.mp hmem
    obtain ⟨hsound, hplacement⟩ := hstay atoms placement hatoms original horiginal
    exact ⟨hsound.cross, hplacement⟩
  refine ⟨fun atom hmem => ?_, fun atom hmem => ?_⟩
  · rcases List.mem_append.mp hmem with hmem | hmem
    · exact hstay leftAtoms .left hleft atom hmem
    · exact hcross rightAtoms .left hright atom hmem
  · rcases List.mem_append.mp hmem with hmem | hmem
    · exact hcross leftAtoms .right hleft atom hmem
    · exact hstay rightAtoms .right hright atom hmem

theorem exists_of_mem_recast {sign : ℤˣ} {atoms read : List Atom} (h : List.Forall₂ (Recast sign) atoms read)
    {atom : Atom} (hmem : atom ∈ read) : ∃ original ∈ atoms, Recast sign original atom := by
  induction h with
  | nil => cases hmem
  | cons hatom _ ih =>
    rcases List.mem_cons.mp hmem with rfl | hmem
    · exact ⟨_, List.mem_cons_self, hatom⟩
    · obtain ⟨original, horiginal, hrecast⟩ := ih hmem
      exact ⟨original, List.mem_cons_of_mem _ horiginal, hrecast⟩

theorem ReadsAs.hasPlacement_right {expr : ClauseExpr} {atoms : List Atom} (h : c.ReadsAs expr atoms)
    (hleft : ∀ atom ∈ atoms, atom.placement = .left) {clause : ClauseKind} {sign : ℤˣ} {read : List Atom}
    (hread : c.decompose clause expr sign = .ok read) : hasPlacement read .right = false := by
  obtain ⟨read', hread', hrecast⟩ := h.2 clause sign
  obtain rfl : read' = read := Except.ok.inj (hread'.symm.trans hread)
  rw [hasPlacement_eq_false]
  intro atom hmem
  obtain ⟨original, horiginal, hatom⟩ := exists_of_mem_recast hrecast hmem
  rw [hatom.placement_eq, hleft original horiginal]
  exact Placement.noConfusion

/-- A comparison with a decision on its left comes out canonical. -/
theorem isCanonical_canonicalizeOriented {comparison result : ClauseComparison}
    (hdecision : c.referencesDecideVar comparison.left = true) (h : c.canonicalizeOriented comparison = .ok result) :
    c.IsCanonical result := by
  obtain ⟨leftAtoms, rightAtoms, hleft, hright, h⟩ := canonicalizeOriented_eq_ok h
  obtain ⟨hsoundLeft, hplaceLeft⟩ := atomSound_decompose hleft
  obtain ⟨hsoundRight, hplaceRight⟩ := atomSound_decompose hright
  rw [hdecision] at hplaceLeft
  rcases h with ⟨hcanonical, rfl⟩ | ⟨-, left, right, hbuiltLeft, hbuiltRight, rfl⟩
  · simp only [isCanonicalPair, Bool.and_eq_true, Bool.not_eq_true'] at hcanonical
    obtain ⟨⟨hnoLeft, hnoRight⟩, -⟩ := hcanonical
    refine IsCanonical.finalize ⟨hdecision, hplaceRight.symm.trans hnoLeft, fun atoms hatoms => ?_⟩
    obtain rfl : leftAtoms = atoms := Except.ok.inj (hleft.symm.trans hatoms)
    exact hnoRight
  · obtain ⟨hnewLeft, hnewRight⟩ := atoms_partition hsoundLeft hsoundRight
    have hreads : ∀ expr, left = some expr → c.ReadsAs expr (partitionAtoms leftAtoms rightAtoms).1 := by
      rintro expr rfl
      exact readsAs_buildAdditive hnewLeft hbuiltLeft
    obtain ⟨newLeft, rfl⟩ : ∃ newLeft, left = some newLeft := by
      obtain ⟨atom, hmem, hplacement⟩ := List.any_eq_true.mp hplaceLeft
      exact exists_buildAdditive hbuiltLeft (List.append_ne_nil_of_left_ne_nil
        (List.ne_nil_of_mem (List.mem_filter.mpr ⟨hmem, hplacement⟩)) _)
    refine IsCanonical.finalize ⟨(hreads newLeft rfl).1, ?_, fun atoms hatoms =>
      (hreads newLeft rfl).hasPlacement_right (fun atom hmem => (hnewLeft atom hmem).2) hatoms⟩
    cases right with
    | none => rfl
    | some newRight => exact decisionFree_buildAdditive hnewRight hbuiltRight

/-- A comparison that references a decision comes out canonical. -/
theorem isCanonical_canonicalizeComparison {comparison result : ClauseComparison}
    (hdecision : c.referencesDecideVar comparison.left = true ∨ c.referencesDecideVar comparison.right = true)
    (h : c.canonicalizeComparison comparison = .ok result) : c.IsCanonical result := by
  obtain ⟨leftAtoms, hleft, h⟩ := bind_eq_ok.mp h
  obtain ⟨rightAtoms, hright, h⟩ := bind_eq_ok.mp h
  obtain ⟨-, hplaceLeft⟩ := atomSound_decompose hleft
  obtain ⟨-, hplaceRight⟩ := atomSound_decompose hright
  split at h
  · rename_i hhas
    exact isCanonical_canonicalizeOriented (hplaceLeft.symm.trans hhas) h
  · rename_i hnone
    have hnoLeft : c.referencesDecideVar comparison.left = false := by
      rw [← hplaceLeft]
      simpa using hnone
    have hrightDecision : c.referencesDecideVar comparison.right = true := by
      rcases hdecision with hd | hd
      · rw [hnoLeft] at hd
        cases hd
      · exact hd
    rw [if_pos (hplaceRight.trans hrightDecision)] at h
    have hswapped : c.referencesDecideVar comparison.swapped.left = true := hrightDecision
    exact isCanonical_canonicalizeOriented hswapped h

/-! ## What validation leaves -/

/-- Nothing is taken off an expression without a scalable part, so nothing can be refused about it. -/
theorem peelFactors_of_not_scalable {clause : ClauseKind} {expr : ClauseExpr} (h : c.isScalable expr = false) :
    ∃ term, c.peelFactors clause expr = .ok { term := term } := by
  fun_induction c.peelFactors clause expr with
  | case1 nodeAlias targetType child hdecide ih =>
    refine ih ?_
    rw [← h, isScalable, isScalable, containsReducer_cast, referencesDecideVar, referencesDecideVar,
      referencesDecide_cast]
  | case2 nodeAlias targetType child hdecide => exact ⟨_, rfl⟩
  | case3 nodeAlias isVolatile a b hscale ih =>
    rw [Bool.and_eq_true] at hscale
    rw [isScalable_function List.mem_cons_self hscale.1] at h
    cases h
  | case4 nodeAlias isVolatile a b hscale hscale' ih =>
    rw [Bool.and_eq_true] at hscale'
    rw [isScalable_function (List.mem_cons_of_mem _ List.mem_cons_self) hscale'.1] at h
    cases h
  | case5 nodeAlias isVolatile a b hscale hscale' => exact ⟨_, rfl⟩
  | case6 nodeAlias isVolatile a b hscale ih =>
    rw [Bool.and_eq_true] at hscale
    rw [isScalable_function List.mem_cons_self hscale.1] at h
    cases h
  | case7 nodeAlias isVolatile a b hscale => exact ⟨_, rfl⟩
  | case8 expr h₁ h₂ h₃ => exact ⟨_, rfl⟩

theorem atomOf_of_not_scalable {clause : ClauseKind} {sign : ℤˣ} {expr : ClauseExpr} (h : c.isScalable expr = false) :
    ∃ atoms, c.atomOf clause sign expr = .ok atoms := by
  obtain ⟨term, hterm⟩ : ∃ term, c.peelFactors clause expr = .ok { term := term } := peelFactors_of_not_scalable h
  refine ⟨[⟨sign, expr, c.classify expr, none, false⟩], ?_⟩
  rw [atomOf, peelScale, hterm]
  rfl

theorem isScalable_of_arg {nodeAlias : NodeAlias} {isVolatile : Bool} {kind : FunctionKind} {args : List ClauseExpr}
    (h : c.isScalable (.function nodeAlias isVolatile kind args) = false) {arg : ClauseExpr} (hmem : arg ∈ args) :
    c.isScalable arg = false := by
  cases harg : c.isScalable arg with
  | false => rfl
  | true =>
    rw [isScalable_function hmem harg] at h
    cases h

/-- A side without a reducer over decisions always splits. -/
theorem decompose_of_not_scalable {clause : ClauseKind} {expr : ClauseExpr} {sign : ℤˣ}
    (h : c.isScalable expr = false) : ∃ atoms, c.decompose clause expr sign = .ok atoms := by
  fun_induction c.decompose clause expr sign with
  | case1 nodeAlias isVolatile a b sign iha ihb =>
    obtain ⟨left, hleft⟩ := iha (isScalable_of_arg h List.mem_cons_self)
    obtain ⟨right, hright⟩ := ihb (isScalable_of_arg h (List.mem_cons_of_mem _ List.mem_cons_self))
    refine ⟨left ++ right, ?_⟩
    rw [hleft, hright]
    rfl
  | case2 nodeAlias isVolatile a b sign iha ihb =>
    obtain ⟨left, hleft⟩ := iha (isScalable_of_arg h List.mem_cons_self)
    obtain ⟨right, hright⟩ := ihb (isScalable_of_arg h (List.mem_cons_of_mem _ List.mem_cons_self))
    refine ⟨left ++ right, ?_⟩
    rw [hleft, hright]
    rfl
  | case3 nodeAlias isVolatile a sign ih => exact ih (isScalable_of_arg h List.mem_cons_self)
  | case4 nodeAlias targetType child sign hdecide ih =>
    refine ih ?_
    rw [← h, isScalable, isScalable, containsReducer_cast, referencesDecideVar, referencesDecideVar,
      referencesDecide_cast]
  | case5 nodeAlias targetType child sign hdecide => exact atomOf_of_not_scalable h
  | case6 expr sign h₁ h₂ h₃ h₄ => exact atomOf_of_not_scalable h

/-- A canonical comparison that was validated passes the verifier. -/
theorem verifyCanonicalComparison_of_isCanonical {comparison : ClauseComparison} (h : c.IsCanonical comparison)
    {u : Unit} (hvalid : c.validateCanonicalComparison comparison = .ok u) :
    c.verifyCanonicalComparison comparison = .ok () := by
  obtain ⟨found, hfound, hvalid⟩ := bind_eq_ok.mp hvalid
  have hne : found ≠ .invalid := by
    rintro rfl
    obtain ⟨atoms, -, hvalid⟩ := bind_eq_ok.mp hvalid
    exact throw_ne_ok hvalid
  obtain ⟨rightAtoms, hright⟩ : ∃ rightAtoms, c.decompose .constraint comparison.right 1 = .ok rightAtoms :=
    decompose_of_not_scalable (by rw [isScalable, h.right, Bool.and_false])
  obtain ⟨leftAtoms, hleft⟩ : ∃ leftAtoms, c.decompose .constraint comparison.left 1 = .ok leftAtoms := by
    cases hreducer : comparison.left.containsReducer with
    | false => exact decompose_of_not_scalable (by rw [isScalable, hreducer, Bool.false_and])
    | true =>
      rw [classifyCanonicalComparison, if_neg (by rw [h.right]; exact Bool.false_ne_true),
        if_neg (by rw [hreducer]; simp)] at hfound
      obtain ⟨atoms, hatoms, -⟩ := bind_eq_ok.mp hfound
      exact ⟨atoms, hatoms⟩
  have hplaceRight : hasPlacement rightAtoms .left = false :=
    (atomSound_decompose hright).2.trans h.right
  unfold verifyCanonicalComparison
  rw [if_neg (by rw [h.left]; simp), if_neg (by rw [h.right]; simp), hleft, hright]
  change (if hasPlacement leftAtoms .right then _ else if hasPlacement rightAtoms .left then _ else _) = _
  rw [if_neg (by rw [h.leftTerms leftAtoms hleft]; simp), if_neg (by rw [hplaceRight]; simp), hfound]
  change (if found == .invalid then _ else _) = _
  rw [if_neg (by simpa using hne)]
  rfl

end DecideCanonicalizer

mutual

/-- A SUCH THAT tree as binding leaves it: conjunctions of comparisons that each reference a decision, a
WHEN with its one condition and a PER with some column. -/
def ClauseTree.AsksDecisions (c : DecideCanonicalizer) : ClauseTree → Prop
  | .comparison a => c.referencesDecideVar a.left = true ∨ c.referencesDecideVar a.right = true
  | .conjunction _ isAnd children => isAnd = true ∧ ClauseTree.AllAskDecisions c children
  | .wrapper _ isAnd kind tree metadata =>
    isAnd = true ∧ (kind = .when → metadata.length = 1) ∧ (kind = .per → metadata ≠ []) ∧
      ClauseTree.AsksDecisions c tree
  | .leaf _ => True

/-- Each of several. -/
def ClauseTree.AllAskDecisions (c : DecideCanonicalizer) : List ClauseTree → Prop
  | [] => True
  | tree :: trees => ClauseTree.AsksDecisions c tree ∧ ClauseTree.AllAskDecisions c trees

end

namespace DecideCanonicalizer

variable {c : DecideCanonicalizer}

theorem verifyCanonicalTree_of_validated (tree : ClauseTree) :
    ∀ result u, tree.AsksDecisions c → c.canonicalizeTreeInternal tree = .ok result →
      c.validateCanonicalTree result = .ok u → c.verifyCanonicalTree result = .ok () := by
  induction tree using ClauseTree.treeInduction with
  | hcomparison written =>
    intro result u hasks h hvalid
    rw [canonicalizeTreeInternal] at h
    obtain ⟨canonical, hcanonical, h⟩ := bind_eq_ok.mp h
    obtain rfl := pure_eq_ok.mp h
    rw [ClauseTree.AsksDecisions] at hasks
    rw [validateCanonicalTree] at hvalid
    rw [verifyCanonicalTree]
    exact verifyCanonicalComparison_of_isCanonical (isCanonical_canonicalizeComparison hasks hcanonical) hvalid
  | hconjunction nodeAlias isAnd children ih =>
    intro result u hasks h hvalid
    rw [canonicalizeTreeInternal] at h
    obtain ⟨results, hresults, hpure⟩ := bind_eq_ok.mp h
    clear h
    obtain rfl := pure_eq_ok.mp hpure
    clear hpure
    rw [ClauseTree.AsksDecisions] at hasks
    obtain ⟨hand, hall⟩ := hasks
    rw [validateCanonicalTree] at hvalid
    rw [verifyCanonicalTree, if_pos hand]
    clear hand
    induction children generalizing results u with
    | nil =>
      rw [canonicalizeTreesInternal] at hresults
      cases hresults
      rw [verifyCanonicalTrees]
    | cons child children ihchildren =>
      rw [canonicalizeTreesInternal] at hresults
      obtain ⟨first, hfirst, hresults⟩ := bind_eq_ok.mp hresults
      obtain ⟨others, hothers, hresults⟩ := bind_eq_ok.mp hresults
      obtain rfl := pure_eq_ok.mp hresults
      rw [ClauseTree.AllAskDecisions] at hall
      rw [validateCanonicalTrees] at hvalid
      obtain ⟨v, hvalidFirst, hvalid⟩ := bind_eq_ok.mp hvalid
      rw [verifyCanonicalTrees, ih child List.mem_cons_self first v hall.1 hfirst hvalidFirst]
      exact ihchildren (fun other hmem => ih other (List.mem_cons_of_mem _ hmem)) u others hothers hvalid hall.2
  | hwrapper nodeAlias isAnd kind tree metadata ih =>
    intro result u hasks h hvalid
    rw [canonicalizeTreeInternal] at h
    obtain ⟨canonical, hcanonical, h⟩ := bind_eq_ok.mp h
    obtain rfl := pure_eq_ok.mp h
    rw [ClauseTree.AsksDecisions] at hasks
    obtain ⟨hand, hwhen, hper, hasks⟩ := hasks
    cases kind with
    | «when» =>
      rw [validateCanonicalTree] at hvalid
      rw [verifyCanonicalTree, if_neg (by rw [hand]; simp), if_neg (by rw [hwhen rfl]; simp)]
      exact ih canonical u hasks hcanonical hvalid
    | per =>
      rw [validateCanonicalTree] at hvalid
      obtain ⟨found, hfound, hvalid⟩ := bind_eq_ok.mp hvalid
      have haggregate : ¬ (found != .aggregate) = true := by
        intro hne
        rw [if_pos hne] at hvalid
        exact throw_ne_ok hvalid
      rw [if_neg haggregate] at hvalid
      rw [verifyCanonicalTree, if_neg (by rw [hand]; simp), if_neg (by simpa using hper rfl), hfound]
      change (if (found != .aggregate) = true then _ else _) = _
      rw [if_neg haggregate]
      exact ih canonical u hasks hcanonical hvalid
  | hleaf expr =>
    intro result u _ h _
    rw [canonicalizeTreeInternal] at h
    cases h
    rw [verifyCanonicalTree]

/-- `(3 - SUM(x) * 2 <= s + SUM(w)) PER r`, and `4 >= x`. -/
def perRegionTree : ClauseTree :=
  .conjunction {} true [.wrapper {} true .per mixedSidesTree [.columnRef {} 1 1],
    .comparison { type := .ge, left := .constant {} (some 4), right := .columnRef {} 7 0 }]

theorem asksDecisions_perRegionTree : perRegionTree.AsksDecisions doubleFactorCanonicalizer := by
  rw [perRegionTree, ClauseTree.AsksDecisions, ClauseTree.AllAskDecisions, ClauseTree.AllAskDecisions,
    ClauseTree.AllAskDecisions, ClauseTree.AsksDecisions, ClauseTree.AsksDecisions, mixedSidesTree,
    ClauseTree.AsksDecisions]
  exact ⟨rfl, ⟨rfl, (fun h => by cases h), fun _ => List.cons_ne_nil _ _, .inl rfl⟩, .inr rfl, trivial⟩

end DecideCanonicalizer

end Decidb
