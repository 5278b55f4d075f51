import Decidb.Planner.Proofs.CanonicalClassProofs

/-!
# The terms of a reduced constraint are read back

The left side of a reduced constraint is walked down to its terms once it is canonical. Every term that holds
a reducer is the bare reducer or the reducer with one factor, in one of the two spellings that are matched;
the factor has no decision in it.
-/

namespace Decidb

open ClauseExpr

/-- Whether `ExtractAggregateConstraintTerms` walks no further down. -/
def ClauseExpr.isTermBoundary (decideIndex : Nat) : ClauseExpr → Bool
  | .function _ _ .plus _ => false
  | .function _ _ .minus [_, _] => false
  | .function _ _ .minus [_] => false
  | .cast nodeAlias targetType child => !(ClauseExpr.cast nodeAlias targetType child).referencesDecide decideIndex
  | _ => true

/-- The terms that `ExtractAggregateConstraintTerms` walks down to. -/
inductive ClauseExpr.WalksTo (decideIndex : Nat) (term : ClauseExpr) : ClauseExpr → Prop
  | here (h : term.isTermBoundary decideIndex = true) : term.WalksTo decideIndex term
  | plus {nodeAlias : NodeAlias} {isVolatile : Bool} {children : List ClauseExpr} {child : ClauseExpr}
      (hmem : child ∈ children) (h : term.WalksTo decideIndex child) :
      term.WalksTo decideIndex (.function nodeAlias isVolatile .plus children)
  | minus {nodeAlias : NodeAlias} {isVolatile : Bool} {a b child : ClauseExpr} (hmem : child ∈ [a, b])
      (h : term.WalksTo decideIndex child) : term.WalksTo decideIndex (.function nodeAlias isVolatile .minus [a, b])
  | negate {nodeAlias : NodeAlias} {isVolatile : Bool} {child : ClauseExpr} (h : term.WalksTo decideIndex child) :
      term.WalksTo decideIndex (.function nodeAlias isVolatile .minus [child])
  | cast {nodeAlias : NodeAlias} {targetType : String} {child : ClauseExpr}
      (hdecide : (ClauseExpr.cast nodeAlias targetType child).referencesDecide decideIndex = true)
      (h : term.WalksTo decideIndex child) : term.WalksTo decideIndex (.cast nodeAlias targetType child)

theorem ClauseExpr.WalksTo.containsReducer {d : Nat} {term expr : ClauseExpr} (h : term.WalksTo d expr)
    (hterm : term.containsReducer = true) : expr.containsReducer = true := by
  induction h with
  | here => exact hterm
  | plus hmem _ ih =>
    rw [containsReducer_function]
    exact List.any_eq_true.mpr ⟨_, hmem, ih⟩
  | minus hmem _ ih =>
    rw [containsReducer_function]
    exact List.any_eq_true.mpr ⟨_, hmem, ih⟩
  | negate _ ih =>
    rw [containsReducer_function]
    exact List.any_eq_true.mpr ⟨_, List.mem_singleton.mpr rfl, ih⟩
  | cast _ _ ih => rwa [containsReducer_cast]

theorem ClauseExpr.WalksTo.of_castArgument {d : Nat} {term expr : ClauseExpr} {cast : Option String}
    (hdecide : expr.referencesDecide d = true) (h : term.WalksTo d (castArgument cast expr)) : term.WalksTo d expr := by
  cases cast with
  | none => exact h
  | some targetType =>
    rw [castArgument] at h
    cases h with
    | here hboundary =>
      rw [isTermBoundary, referencesDecide_cast, hdecide] at hboundary
      cases hboundary
    | cast _ h => exact h

theorem ClauseExpr.containsReducer_of_isAggregate {expr : ClauseExpr} (h : expr.isAggregate = true) :
    expr.containsReducer = true := by
  obtain ⟨nodeAlias, name, children, rest, rfl⟩ := isAggregate_iff.mp h
  rw [containsReducer, anyNode]
  rfl

theorem ClauseExpr.containsReducer_unwrapDecideCasts (d : Nat) (expr : ClauseExpr) :
    (expr.unwrapDecideCasts d).containsReducer = expr.containsReducer := by
  fun_induction unwrapDecideCasts d expr with
  | case1 nodeAlias targetType child h ih => rw [ih, containsReducer_cast]
  | case2 nodeAlias targetType child h => rfl
  | case3 expr h => rfl

theorem ClauseExpr.unwrapDecideCasts_function (d : Nat) (nodeAlias : NodeAlias) (isVolatile : Bool)
    (kind : FunctionKind) (args : List ClauseExpr) :
    (function nodeAlias isVolatile kind args).unwrapDecideCasts d = .function nodeAlias isVolatile kind args := rfl

theorem ClauseExpr.unwrapDecideCasts_castArgument {d : Nat} {expr : ClauseExpr} (cast : Option String)
    (hdecide : expr.referencesDecide d = true) :
    (castArgument cast expr).unwrapDecideCasts d = expr.unwrapDecideCasts d := by
  cases cast with
  | none => rfl
  | some targetType => rw [castArgument, unwrapDecideCasts, referencesDecide_cast, if_pos hdecide]

/-- What a match stands for. -/
def ScaledAggregateMatch.value (found : ScaledAggregateMatch) (env : ClauseEnv) (decideIndex row : Nat) : Option ℚ :=
  if found.divides then
    env.functionValue .divide row [env.eval decideIndex found.aggregate row, env.eval decideIndex found.scale row]
  else env.functionValue .times row [env.eval decideIndex found.scale row, env.eval decideIndex found.aggregate row]

/-- A match is worth what was matched. -/
theorem eval_tryMatchScaledAggregate (env : ClauseEnv) {d : Nat} {term : ClauseExpr} {found : ScaledAggregateMatch}
    (h : tryMatchScaledAggregate d term = some found) (row : Nat) : env.eval d term row = found.value env d row := by
  unfold tryMatchScaledAggregate at h
  rw [← env.eval_unwrapDecideCasts]
  split at h
  · rename_i nodeAlias isVolatile scale inner hroot
    split at h
    · cases h
      rw [hroot, env.eval_function, ScaledAggregateMatch.value, env.eval_unwrapDecideCasts]
      rfl
    · cases h
  · rename_i nodeAlias isVolatile inner scale hroot
    split at h
    · cases h
      rw [hroot, env.eval_function, ScaledAggregateMatch.value, env.eval_unwrapDecideCasts]
      rfl
    · cases h
  · cases h

namespace DecideCanonicalizer

variable {c : DecideCanonicalizer}

/-- A term that is read back: a bare reducer over a decision, or one that is matched with its factor. -/
def ReadsBack (c : DecideCanonicalizer) (term : ClauseExpr) : Prop :=
  (term.isAggregate = true ∧ c.referencesDecideVar term = true) ∨
    ∃ found, tryMatchScaledAggregate c.decideIndex term = some found ∧ found.aggregate.isAggregate = true ∧
      c.referencesDecideVar found.aggregate = true ∧ c.IsFactor found.scale ∧
      ∀ (env : ClauseEnv) (row : Nat), env.eval c.decideIndex term row = found.value env c.decideIndex row

theorem ReadsBack.of_match {term : ClauseExpr} {found : ScaledAggregateMatch}
    (h : tryMatchScaledAggregate c.decideIndex term = some found) (haggregate : found.aggregate.isAggregate = true)
    (hdecide : c.referencesDecideVar found.aggregate = true) (hscale : c.IsFactor found.scale) : c.ReadsBack term :=
  .inr ⟨found, h, haggregate, hdecide, hscale, fun env row => eval_tryMatchScaledAggregate env h row⟩

/-- Every term with a reducer in it is read back. -/
def TermsReadBack (c : DecideCanonicalizer) (expr : ClauseExpr) : Prop :=
  ∀ term : ClauseExpr, term.WalksTo c.decideIndex expr → term.containsReducer = true → c.ReadsBack term

theorem TermsReadBack.castArgument {expr : ClauseExpr} (h : c.TermsReadBack expr)
    (hdecide : c.referencesDecideVar expr = true) (cast : Option String) : c.TermsReadBack (castArgument cast expr) :=
  fun term hwalk => h term (hwalk.of_castArgument hdecide)

theorem TermsReadBack.plus {a b : ClauseExpr} (ha : c.TermsReadBack a) (hb : c.TermsReadBack b)
    (nodeAlias : NodeAlias) (isVolatile : Bool) :
    c.TermsReadBack (.function nodeAlias isVolatile .plus [a, b]) := by
  intro term hwalk
  cases hwalk with
  | here hboundary => cases hboundary
  | plus hmem hwalk =>
    rcases List.mem_pair.mp hmem with rfl | rfl
    · exact ha term hwalk
    · exact hb term hwalk

theorem TermsReadBack.minus {a b : ClauseExpr} (ha : c.TermsReadBack a) (hb : c.TermsReadBack b)
    (nodeAlias : NodeAlias) (isVolatile : Bool) :
    c.TermsReadBack (.function nodeAlias isVolatile .minus [a, b]) := by
  intro term hwalk
  cases hwalk with
  | here hboundary => cases hboundary
  | minus hmem hwalk =>
    rcases List.mem_pair.mp hmem with rfl | rfl
    · exact ha term hwalk
    · exact hb term hwalk

theorem TermsReadBack.negate {a : ClauseExpr} (ha : c.TermsReadBack a) (nodeAlias : NodeAlias) (isVolatile : Bool) :
    c.TermsReadBack (.function nodeAlias isVolatile .minus [a]) := by
  intro term hwalk
  cases hwalk with
  | here hboundary => cases hboundary
  | negate hwalk => exact ha term hwalk

/-! ## A side that is kept -/

/-- A term boundary without a factor is kept as it is. -/
theorem atomOf_bare {clause : ClauseKind} {sign : ℤˣ} {expr : ClauseExpr} {atoms : List Atom}
    (h : c.atomOf clause sign expr = .ok atoms) (hscale : ∀ atom ∈ atoms, atom.scale = none) :
    ∃ atom ∈ atoms, atom.expr = expr := by
  obtain ⟨peeled, hpeeled, h⟩ := bind_eq_ok.mp h
  obtain rfl := pure_eq_ok.mp h
  refine ⟨_, List.mem_singleton.mpr rfl, ?_⟩
  have hnone := hscale _ (List.mem_singleton.mpr rfl)
  obtain ⟨factors, hfactors, hpeeled⟩ := bind_eq_ok.mp hpeeled
  obtain ⟨-, hall, -, -⟩ := peelsTo_peelFactors hfactors
  split at hpeeled
  · obtain rfl := pure_eq_ok.mp hpeeled
    rfl
  · rename_i hne
    obtain ⟨composed, hcomposed, hpeeled⟩ := bind_eq_ok.mp hpeeled
    obtain rfl := pure_eq_ok.mp hpeeled
    obtain ⟨hm, hv⟩ := List.append_eq_nil_iff.mp ((isFactor_composeScale hcomposed hall).1 hnone)
    exact absurd (by rw [hm, hv]; rfl) hne

theorem termsReadBack_atomOf {clause : ClauseKind} {sign : ℤˣ} {expr : ClauseExpr} {atoms : List Atom}
    (h : c.atomOf clause sign expr = .ok atoms) (hreduced : ∀ atom ∈ atoms, c.isReducedTerm atom = true)
    (hscale : ∀ atom ∈ atoms, atom.scale = none)
    (hcast : ∀ nodeAlias targetType child, expr = .cast nodeAlias targetType child →
      c.referencesDecideVar expr = false) : c.TermsReadBack expr := by
  intro term hwalk hterm
  obtain ⟨atom, hmem, rfl⟩ := atomOf_bare h hscale
  have hatom := hreduced atom hmem
  rw [isReducedTerm, Bool.and_eq_true, if_pos (hwalk.containsReducer hterm), Bool.and_eq_true] at hatom
  obtain ⟨-, haggregate, hdecide⟩ := hatom
  have hunwrap : atom.expr.unwrapDecideCasts c.decideIndex = atom.expr := by
    cases hexpr : atom.expr with
    | cast nodeAlias targetType child =>
      have hfree := hcast nodeAlias targetType child hexpr
      rw [hexpr, referencesDecideVar] at hfree
      rw [unwrapDecideCasts, if_neg (by rw [hfree]; exact Bool.false_ne_true)]
    | columnRef nodeAlias tableIndex columnIndex => rfl
    | constant nodeAlias value => rfl
    | subquery nodeAlias id isScalar isCorrelated children => rfl
    | function nodeAlias isVolatile kind children => rfl
    | aggregate nodeAlias name children rest => rfl
    | other nodeAlias name neverFolds children => rfl
  rw [hunwrap] at haggregate hdecide
  -- a reducer is a term of its own
  have hself : term = atom.expr := by
    obtain ⟨nodeAlias, name, children, rest, hexpr⟩ := isAggregate_iff.mp haggregate
    rw [hexpr] at hwalk ⊢
    cases hwalk
    rfl
  rw [hself]
  exact .inl ⟨haggregate, hdecide⟩

/-- A side that has no factor to move is read back as it stands. -/
theorem termsReadBack_decompose {clause : ClauseKind} {expr : ClauseExpr} {sign : ℤˣ} {atoms : List Atom}
    (h : c.decompose clause expr sign = .ok atoms) (hreduced : ∀ atom ∈ atoms, c.isReducedTerm atom = true)
    (hscale : ∀ atom ∈ atoms, atom.scale = none) : c.TermsReadBack expr := by
  fun_induction c.decompose clause expr sign generalizing atoms with
  | case1 nodeAlias isVolatile a b sign iha ihb =>
    obtain ⟨left, hleft, h⟩ := bind_eq_ok.mp h
    obtain ⟨right, hright, h⟩ := bind_eq_ok.mp h
    obtain rfl := pure_eq_ok.mp h
    exact (iha hleft (fun atom hmem => hreduced atom (List.mem_append_left _ hmem))
      fun atom hmem => hscale atom (List.mem_append_left _ hmem)).plus
      (ihb hright (fun atom hmem => hreduced atom (List.mem_append_right _ hmem))
        fun atom hmem => hscale atom (List.mem_append_right _ hmem)) _ _
  | case2 nodeAlias isVolatile a b sign iha ihb =>
    obtain ⟨left, hleft, h⟩ := bind_eq_ok.mp h
    obtain ⟨right, hright, h⟩ := bind_eq_ok.mp h
    obtain rfl := pure_eq_ok.mp h
    exact (iha hleft (fun atom hmem => hreduced atom (List.mem_append_left _ hmem))
      fun atom hmem => hscale atom (List.mem_append_left _ hmem)).minus
      (ihb hright (fun atom hmem => hreduced atom (List.mem_append_right _ hmem))
        fun atom hmem => hscale atom (List.mem_append_right _ hmem)) _ _
  | case3 nodeAlias isVolatile a sign ih => exact (ih h hreduced hscale).negate _ _
  | case4 nodeAlias targetType child sign hdecide ih =>
    intro term hwalk
    cases hwalk with
    | here hboundary =>
      rw [referencesDecideVar] at hdecide
      rw [isTermBoundary, hdecide] at hboundary
      cases hboundary
    | cast _ hwalk => exact ih h hreduced hscale term hwalk
  | case5 nodeAlias targetType child sign hdecide =>
    exact termsReadBack_atomOf h hreduced hscale fun _ _ _ _ => by simpa using hdecide
  | case6 expr sign h₁ h₂ h₃ h₄ =>
    exact termsReadBack_atomOf h hreduced hscale fun nodeAlias targetType child hexpr =>
      absurd hexpr (h₄ nodeAlias targetType child)

/-! ## A side that is built -/

theorem isReducedTerm_congr {atom read : Atom} (hexpr : read.expr = atom.expr)
    (hplacement : read.placement = atom.placement) : c.isReducedTerm read = c.isReducedTerm atom := by
  rw [isReducedTerm, isReducedTerm, hexpr, hplacement]

/-- The bare term of an atom, on its own. -/
theorem termsReadBack_of_bare {atom : Atom} (hsound : c.AtomSound atom) (hreduced : c.isReducedTerm atom = true)
    (hscale : atom.scale = none) : c.TermsReadBack atom.expr := by
  obtain ⟨-, hbare⟩ := hsound.bare hscale
  have hpeel : c.peelScale .constraint atom.expr = .ok (atom.expr, none, false) := by
    rw [peelScale, hsound.stops]
    rfl
  have hatom : c.decompose .constraint atom.expr 1 = .ok [⟨1, atom.expr, c.classify atom.expr, none, false⟩] := by
    rw [hbare, atomOf, hpeel]
    rfl
  have hread : c.isReducedTerm ⟨1, atom.expr, c.classify atom.expr, none, false⟩ = c.isReducedTerm atom :=
    isReducedTerm_congr rfl hsound.placement_eq.symm
  exact termsReadBack_decompose hatom (List.forall_mem_singleton.mpr (hread.trans hreduced))
    (List.forall_mem_singleton.mpr rfl)

/-- The factor goes back on a reducer in one of the two spellings that are matched. -/
theorem termsReadBack_rescale {atom : Atom} {term : ClauseExpr} (hsound : c.AtomSound atom)
    (hreduced : c.isReducedTerm atom = true) (h : c.rescale atom = .ok term) : c.TermsReadBack term := by
  unfold rescale at h
  cases hscale : atom.scale with
  | none =>
    rw [hscale] at h
    obtain rfl : atom.expr = term := Except.ok.inj h
    exact termsReadBack_of_bare hsound hreduced hscale
  | some scale =>
    rw [hscale] at h
    dsimp only at h
    obtain ⟨hfactor, hscalable⟩ := hsound.scaled scale hscale
    obtain ⟨hreducer, hdecide⟩ := isScalable_iff.mp hscalable
    rw [isReducedTerm, Bool.and_eq_true, if_pos hreducer, Bool.and_eq_true] at hreduced
    obtain ⟨-, haggregate, hroot⟩ := hreduced
    have hnot : ∀ cast, ((castArgument cast scale).unwrapDecideCasts c.decideIndex).isAggregate = false := by
      intro cast
      rw [Bool.eq_false_iff]
      intro hisAggregate
      have hcontains := containsReducer_of_isAggregate hisAggregate
      rw [containsReducer_unwrapDecideCasts, (hfactor.castArgument cast).reducerFree] at hcontains
      cases hcontains
    split at h
    · obtain ⟨castTerm, castScale, rfl⟩ := bindOp_pair h
      intro found hwalk hfound
      obtain rfl : found = _ := by
        cases hwalk
        rfl
      have hmatch : tryMatchScaledAggregate c.decideIndex
          (.function {} false .divide [castArgument castTerm atom.expr, castArgument castScale scale]) =
          some ⟨atom.expr.unwrapDecideCasts c.decideIndex, castArgument castScale scale, true⟩ := by
        rw [tryMatchScaledAggregate, unwrapDecideCasts_function]
        dsimp only
        rw [unwrapDecideCasts_castArgument castTerm hdecide, haggregate, hnot castScale]
        rfl
      exact ReadsBack.of_match hmatch haggregate hroot (hfactor.castArgument castScale)
    · obtain ⟨castScale, castTerm, rfl⟩ := bindOp_pair h
      intro found hwalk hfound
      obtain rfl : found = _ := by
        cases hwalk
        rfl
      have hmatch : tryMatchScaledAggregate c.decideIndex
          (.function {} false .times [castArgument castScale scale, castArgument castTerm atom.expr]) =
          some ⟨atom.expr.unwrapDecideCasts c.decideIndex, castArgument castScale scale, false⟩ := by
        rw [tryMatchScaledAggregate, unwrapDecideCasts_function]
        dsimp only
        rw [unwrapDecideCasts_castArgument castTerm hdecide, haggregate, hnot castScale]
        rfl
      exact ReadsBack.of_match hmatch haggregate hroot (hfactor.castArgument castScale)

theorem termsReadBack_appendTerm {acc next : Option ClauseExpr} {atom : Atom}
    (hacc : ∀ expr, acc = some expr → c.TermsReadBack expr ∧ c.referencesDecideVar expr = true)
    (hsound : c.AtomSound atom) (hleft : atom.placement = .left) (hreduced : c.isReducedTerm atom = true)
    (h : c.appendTerm acc atom = .ok next) :
    ∀ expr, next = some expr → c.TermsReadBack expr ∧ c.referencesDecideVar expr = true := by
  obtain ⟨term, hterm, h⟩ := bind_eq_ok.mp h
  have hback := termsReadBack_rescale hsound hreduced hterm
  have hdecide := (readsAs_rescale hsound hleft hterm).1
  intro expr hexpr
  cases acc with
  | none =>
    dsimp only at h
    split at h
    · obtain rfl := pure_eq_ok.mp h
      obtain rfl := Option.some.inj hexpr
      exact ⟨hback, hdecide⟩
    · obtain ⟨built, hbuilt, h⟩ := bind_eq_ok.mp h
      obtain rfl := pure_eq_ok.mp h
      obtain rfl := Option.some.inj hexpr
      obtain ⟨cast, rfl⟩ := bindOp_single hbuilt
      refine ⟨(hback.castArgument hdecide cast).negate _ _, ?_⟩
      rw [referencesDecideVar, referencesDecide_function]
      exact List.any_eq_true.mpr ⟨_, List.mem_cons_self, (referencesDecideVar_castArgument cast term).trans hdecide⟩
  | some acc =>
    obtain ⟨hbackAcc, hdecideAcc⟩ := hacc acc rfl
    have href : ∀ kind castAcc castTerm, c.referencesDecideVar
        (.function {} false kind [castArgument castAcc acc, castArgument castTerm term]) = true := by
      intro kind castAcc castTerm
      rw [referencesDecideVar, referencesDecide_function]
      exact List.any_eq_true.mpr
        ⟨_, List.mem_cons_self, (referencesDecideVar_castArgument castAcc acc).trans hdecideAcc⟩
    dsimp only at h
    split at h
    · obtain ⟨built, hbuilt, h⟩ := bind_eq_ok.mp h
      obtain rfl := pure_eq_ok.mp h
      obtain rfl := Option.some.inj hexpr
      obtain ⟨castAcc, castTerm, rfl⟩ := bindOp_pair hbuilt
      exact ⟨(hbackAcc.castArgument hdecideAcc castAcc).plus (hback.castArgument hdecide castTerm) _ _,
        href _ castAcc castTerm⟩
    · obtain ⟨built, hbuilt, h⟩ := bind_eq_ok.mp h
      obtain rfl := pure_eq_ok.mp h
      obtain rfl := Option.some.inj hexpr
      obtain ⟨castAcc, castTerm, rfl⟩ := bindOp_pair hbuilt
      exact ⟨(hbackAcc.castArgument hdecideAcc castAcc).minus (hback.castArgument hdecide castTerm) _ _,
        href _ castAcc castTerm⟩

theorem termsReadBack_buildAdditive (atoms : List Atom) : ∀ acc : Option ClauseExpr, ∀ expr : ClauseExpr,
    (∀ atom ∈ atoms, (c.AtomSound atom ∧ atom.placement = .left) ∧ c.isReducedTerm atom = true) →
      (∀ expr, acc = some expr → c.TermsReadBack expr ∧ c.referencesDecideVar expr = true) →
        atoms.foldlM c.appendTerm acc = .ok (some expr) → c.TermsReadBack expr := by
  induction atoms with
  | nil =>
    intro acc expr _ hacc h
    exact (hacc expr (pure_eq_ok.mp h)).1
  | cons atom atoms ih =>
    intro acc expr hatoms hacc h
    rw [List.foldlM_cons] at h
    obtain ⟨next, hnext, h⟩ := bind_eq_ok.mp h
    obtain ⟨⟨hsound, hleft⟩, hreduced⟩ := hatoms atom List.mem_cons_self
    exact ih next expr (fun other hmem => hatoms other (List.mem_cons_of_mem _ hmem))
      (termsReadBack_appendTerm hacc hsound hleft hreduced hnext) h

/-! ## A canonical comparison -/

theorem left_finalizeBoundProvenance (comparison : ClauseComparison) :
    (c.finalizeBoundProvenance comparison).left = comparison.left := by
  unfold finalizeBoundProvenance
  dsimp only
  split <;> rfl

theorem exists_recast_of_mem {sign : ℤˣ} {atoms read : List Atom} (h : List.Forall₂ (Recast sign) atoms read)
    {atom : Atom} (hmem : atom ∈ atoms) : ∃ other ∈ read, Recast sign atom other := by
  induction h with
  | nil => cases hmem
  | cons hatom _ ih =>
    rcases List.mem_cons.mp hmem with rfl | hmem
    · exact ⟨_, List.mem_cons_self, hatom⟩
    · obtain ⟨other, hother, hrecast⟩ := ih hmem
      exact ⟨other, List.mem_cons_of_mem _ hother, hrecast⟩

theorem termsReadBack_canonicalizeOriented {comparison result : ClauseComparison}
    (hdecision : c.referencesDecideVar comparison.left = true) (h : c.canonicalizeOriented comparison = .ok result)
    (hclass : c.classifyCanonicalComparison result = .ok .aggregate) : c.TermsReadBack result.left := by
  obtain ⟨leftAtoms, rightAtoms, hleft, hright, h⟩ := canonicalizeOriented_eq_ok h
  obtain ⟨hsoundLeft, hplaceLeft⟩ := atomSound_decompose hleft
  obtain ⟨hsoundRight, -⟩ := atomSound_decompose hright
  rw [hdecision] at hplaceLeft
  obtain ⟨read, hread, hreduced⟩ := reduced_of_aggregate hclass
  rcases h with ⟨hcanonical, rfl⟩ | ⟨-, left, right, hbuiltLeft, hbuiltRight, rfl⟩
  · rw [left_finalizeBoundProvenance] at hread ⊢
    obtain rfl : leftAtoms = read := Except.ok.inj (hleft.symm.trans hread)
    simp only [isCanonicalPair, Bool.and_eq_true, Bool.not_eq_true'] at hcanonical
    refine termsReadBack_decompose hleft hreduced fun atom hmem => ?_
    have hnone := List.any_eq_false.mp hcanonical.2 atom hmem
    simpa using hnone
  · obtain ⟨hnewLeft, -⟩ := atoms_partition hsoundLeft hsoundRight
    obtain ⟨newLeft, rfl⟩ : ∃ newLeft, left = some newLeft := by
      obtain ⟨atom, hmem, hplacement⟩ := List.any_eq_true.mp hplaceLeft
      exact exists_buildAdditive hbuiltLeft (List.append_ne_nil_of_left_ne_nil
        (List.ne_nil_of_mem (List.mem_filter.mpr ⟨hmem, hplacement⟩)) _)
    rw [left_finalizeBoundProvenance] at hread ⊢
    obtain ⟨read', hread', hrecast⟩ := (readsAs_buildAdditive hnewLeft hbuiltLeft).2 .constraint 1
    obtain rfl : read' = read := Except.ok.inj (hread'.symm.trans hread)
    refine termsReadBack_buildAdditive _ none newLeft (fun atom hmem => ⟨hnewLeft atom hmem, ?_⟩)
      (fun _ hnone => by cases hnone) hbuiltLeft
    obtain ⟨other, hother, hatom⟩ := exists_recast_of_mem hrecast hmem
    rw [← isReducedTerm_congr hatom.expr_eq hatom.placement_eq]
    exact hreduced other hother

theorem termsReadBack_canonicalizeComparison {comparison result : ClauseComparison}
    (h : c.canonicalizeComparison comparison = .ok result)
    (hclass : c.classifyCanonicalComparison result = .ok .aggregate) : c.TermsReadBack result.left := by
  obtain ⟨leftAtoms, hleft, h⟩ := bind_eq_ok.mp h
  obtain ⟨rightAtoms, hright, h⟩ := bind_eq_ok.mp h
  obtain ⟨-, hplaceLeft⟩ := atomSound_decompose hleft
  obtain ⟨-, hplaceRight⟩ := atomSound_decompose hright
  split at h
  · rename_i hhas
    exact termsReadBack_canonicalizeOriented (hplaceLeft.symm.trans hhas) h hclass
  · rename_i hnone
    split at h
    · rename_i hhas
      have hswapped : c.referencesDecideVar comparison.swapped.left = true := hplaceRight.symm.trans hhas
      exact termsReadBack_canonicalizeOriented hswapped h hclass
    · -- no decision anywhere, so nothing on the left may stand beside a reducer
      obtain rfl := pure_eq_ok.mp h
      obtain ⟨read, hread, hreduced⟩ := reduced_of_aggregate hclass
      obtain rfl : leftAtoms = read := Except.ok.inj (hleft.symm.trans hread)
      refine termsReadBack_decompose hleft hreduced fun atom hmem => ?_
      have hatom := hreduced atom hmem
      rw [isReducedTerm, Bool.and_eq_true] at hatom
      exact absurd (List.any_eq_true.mpr ⟨atom, hmem, hatom.1⟩) hnone

end DecideCanonicalizer

/-! ## Trees -/

theorem ClauseTree.each_and {P Q : Bool → ClauseComparison → Prop} (tree : ClauseTree) : ∀ underPer,
    tree.Each P underPer → tree.Each Q underPer → tree.Each (fun underPer a => P underPer a ∧ Q underPer a) underPer := by
  induction tree using ClauseTree.treeInduction with
  | hcomparison a =>
    intro underPer hP hQ
    rw [ClauseTree.Each] at hP hQ ⊢
    exact ⟨hP, hQ⟩
  | hconjunction nodeAlias isAnd children ih =>
    intro underPer hP hQ
    rw [ClauseTree.Each, ClauseTree.eachAll_iff] at hP hQ ⊢
    exact fun child hmem => ih child hmem underPer (hP child hmem) (hQ child hmem)
  | hwrapper nodeAlias isAnd kind tree metadata ih =>
    intro underPer hP hQ
    rw [ClauseTree.Each] at hP hQ ⊢
    exact ih _ hP hQ
  | hleaf expr =>
    intro underPer _ _
    rw [ClauseTree.Each]
    trivial

namespace DecideCanonicalizer

variable {c : DecideCanonicalizer}

theorem each_canonicalizeTreeInternal (tree : ClauseTree) : ∀ underPer result,
    c.canonicalizeTreeInternal tree = .ok result →
      result.Each (fun _ a => ∃ written, c.canonicalizeComparison written = .ok a) underPer := by
  induction tree using ClauseTree.treeInduction with
  | hcomparison written =>
    intro underPer result h
    rw [canonicalizeTreeInternal] at h
    obtain ⟨canonical, hcanonical, h⟩ := bind_eq_ok.mp h
    obtain rfl := pure_eq_ok.mp h
    rw [ClauseTree.Each]
    exact ⟨written, hcanonical⟩
  | hconjunction nodeAlias isAnd children ih =>
    intro underPer result h
    rw [canonicalizeTreeInternal] at h
    obtain ⟨results, hresults, hpure⟩ := bind_eq_ok.mp h
    clear h
    obtain rfl := pure_eq_ok.mp hpure
    clear hpure
    rw [ClauseTree.Each, ClauseTree.eachAll_iff]
    induction children generalizing results with
    | nil =>
      rw [canonicalizeTreesInternal] at hresults
      cases hresults
      exact fun _ hmem => absurd hmem List.not_mem_nil
    | cons child children ihchildren =>
      rw [canonicalizeTreesInternal] at hresults
      obtain ⟨first, hfirst, hresults⟩ := bind_eq_ok.mp hresults
      obtain ⟨others, hothers, hresults⟩ := bind_eq_ok.mp hresults
      obtain rfl := pure_eq_ok.mp hresults
      exact List.forall_mem_cons.mpr ⟨ih child List.mem_cons_self underPer first hfirst,
        ihchildren (fun other hmem => ih other (List.mem_cons_of_mem _ hmem)) others hothers⟩
  | hwrapper nodeAlias isAnd kind tree metadata ih =>
    intro underPer result h
    rw [canonicalizeTreeInternal] at h
    obtain ⟨canonical, hcanonical, h⟩ := bind_eq_ok.mp h
    obtain rfl := pure_eq_ok.mp h
    rw [ClauseTree.Each]
    exact ih _ canonical hcanonical
  | hleaf expr =>
    intro underPer result h
    rw [canonicalizeTreeInternal] at h
    cases h
    rw [ClauseTree.Each]
    trivial

/-- In a tree that is accepted, wherever it has a reducer or a PER, the terms the left side is walked down to
are read back: a factor on a reducer is met in a spelling that is matched, and has no decision in it. -/
theorem canonicalizeTree_readBack (c : DecideCanonicalizer) (constraints result : ClauseTree)
    (h : c.canonicalizeTree constraints = .ok result) :
    result.Each (fun underPer a =>
      underPer = true ∨ a.left.containsReducer = true ∨ a.right.containsReducer = true →
        ∀ term : ClauseExpr, term.WalksTo c.decideIndex a.left → term.containsReducer = true →
          c.ReadsBack term) false := by
  obtain ⟨hinternal, hvalid⟩ := canonicalizeTree_eq_ok h
  have hclassified : result.Each c.IsClassified false :=
    each_isClassified result false (fun hunder => by cases hunder) hvalid
  refine ClauseTree.each_mono (fun underPer a ha => fun hreduced => ?_) result false
    (ClauseTree.each_and result false hclassified (each_canonicalizeTreeInternal constraints false result hinternal))
  obtain ⟨hclass, written, hwritten⟩ := ha
  exact termsReadBack_canonicalizeComparison hwritten (hclass.reduced hreduced)

theorem canonicalizeTree_readBack_perRegion :
    ∃ result, doubleFactorCanonicalizer.canonicalizeTree perRegionTree = .ok result ∧
      result.Each (fun underPer a =>
        underPer = true ∨ a.left.containsReducer = true ∨ a.right.containsReducer = true →
          ∀ term : ClauseExpr, term.WalksTo 7 a.left → term.containsReducer = true →
            doubleFactorCanonicalizer.ReadsBack term) false := by
  have hok : (doubleFactorCanonicalizer.canonicalizeTree perRegionTree).isOk = true := by decide +kernel
  cases h : doubleFactorCanonicalizer.canonicalizeTree perRegionTree with
  | error e =>
    rw [h] at hok
    cases hok
  | ok result =>
    exact ⟨result, rfl, canonicalizeTree_readBack doubleFactorCanonicalizer perRegionTree result h⟩

end DecideCanonicalizer

end Decidb
