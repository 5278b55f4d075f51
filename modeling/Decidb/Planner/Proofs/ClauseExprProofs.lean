import Decidb.Planner.Canonicalizer
import Decidb.Relational.StrictFold

/-!
# The terms of a clause

Every step of the canonical form keeps the value of a side at every row: the atoms of a side add up to
it, a factor taken off a reducer is the factor the reducer had, and what is built of some atoms is their
sum.
-/

namespace Decidb

open ClauseExpr

/-! ## Fallible steps -/

/-- A sequence that went through went through at every step. -/
theorem bind_eq_ok {ε α β : Type} {x : Except ε α} {f : α → Except ε β} {b : β} :
    (x >>= f) = .ok b ↔ ∃ a, x = .ok a ∧ f a = .ok b := by
  cases x with
  | error e => exact ⟨fun h => (nomatch h), fun h => by obtain ⟨a, ha, -⟩ := h; cases ha⟩
  | ok a => exact ⟨fun h => ⟨a, rfl, h⟩, fun h => by obtain ⟨a', ha, hf⟩ := h; cases ha; exact hf⟩

theorem pure_eq_ok {ε α : Type} {a b : α} : (pure a : Except ε α) = .ok b ↔ a = b :=
  ⟨fun h => by cases h; rfl, fun h => by rw [h]; rfl⟩

theorem throw_ne_ok {ε α : Type} {e : ε} {b : α} : (throw e : Except ε α) ≠ .ok b := fun h => by cases h

/-! ## Expressions -/

namespace ClauseExpr

theorem anyNodeOf_eq (p : ClauseExpr → Bool) (children : List ClauseExpr) :
    anyNodeOf p children = children.any (anyNode p) := by
  induction children with
  | nil => rfl
  | cons child children ih => rw [anyNodeOf, ih, List.any_cons]

theorem allFoldable_eq (children : List ClauseExpr) : allFoldable children = children.all isFoldable := by
  induction children with
  | nil => rfl
  | cons child children ih => rw [allFoldable, ih, List.all_cons]

@[simp] theorem referencesDecide_cast (d : Nat) (nodeAlias : NodeAlias) (targetType : String) (child : ClauseExpr) :
    (cast nodeAlias targetType child).referencesDecide d = child.referencesDecide d := by
  rw [referencesDecide, anyNode]
  rfl

@[simp] theorem containsReducer_cast (nodeAlias : NodeAlias) (targetType : String) (child : ClauseExpr) :
    (cast nodeAlias targetType child).containsReducer = child.containsReducer := by
  rw [containsReducer, anyNode]
  rfl

@[simp] theorem referencesDecide_function (d : Nat) (nodeAlias : NodeAlias) (isVolatile : Bool) (kind : FunctionKind)
    (args : List ClauseExpr) :
    (function nodeAlias isVolatile kind args).referencesDecide d = args.any (referencesDecide d) := by
  rw [referencesDecide, anyNode, anyNodeOf_eq]
  rfl

@[simp] theorem containsReducer_function (nodeAlias : NodeAlias) (isVolatile : Bool) (kind : FunctionKind)
    (args : List ClauseExpr) :
    (function nodeAlias isVolatile kind args).containsReducer = args.any containsReducer := by
  rw [containsReducer, anyNode, anyNodeOf_eq]
  rfl

theorem isAggregate_iff {expr : ClauseExpr} :
    expr.isAggregate = true ↔ ∃ nodeAlias name children rest, expr = .aggregate nodeAlias name children rest := by
  constructor
  · intro h
    cases expr with
    | aggregate nodeAlias name children rest => exact ⟨nodeAlias, name, children, rest, rfl⟩
    | columnRef nodeAlias tableIndex columnIndex => cases h
    | constant nodeAlias value => cases h
    | subquery nodeAlias id isScalar isCorrelated children => cases h
    | cast nodeAlias targetType child => cases h
    | function nodeAlias isVolatile kind children => cases h
    | other nodeAlias name neverFolds children => cases h
  · rintro ⟨nodeAlias, name, children, rest, rfl⟩
    rfl

@[simp] theorem children_setAlias (newAlias : NodeAlias) (expr : ClauseExpr) :
    (expr.setAlias newAlias).children = expr.children := by
  cases expr <;> rfl

@[simp] theorem getAlias_setAlias (newAlias : NodeAlias) (expr : ClauseExpr) :
    (expr.setAlias newAlias).getAlias = newAlias := by
  cases expr <;> rfl

@[simp] theorem setAlias_setAlias (newAlias otherAlias : NodeAlias) (expr : ClauseExpr) :
    (expr.setAlias newAlias).setAlias otherAlias = expr.setAlias otherAlias := by
  cases expr <;> rfl

@[simp] theorem setAlias_getAlias (expr : ClauseExpr) : expr.setAlias expr.getAlias = expr := by
  cases expr <;> rfl

@[simp] theorem referencesDecide_setAlias (d : Nat) (newAlias : NodeAlias) (expr : ClauseExpr) :
    (expr.setAlias newAlias).referencesDecide d = expr.referencesDecide d := by
  cases expr <;> rfl

@[simp] theorem containsReducer_setAlias (newAlias : NodeAlias) (expr : ClauseExpr) :
    (expr.setAlias newAlias).containsReducer = expr.containsReducer := by
  cases expr <;> rfl

@[simp] theorem isFoldable_setAlias (newAlias : NodeAlias) (expr : ClauseExpr) :
    (expr.setAlias newAlias).isFoldable = expr.isFoldable := by
  cases expr <;> rfl

end ClauseExpr

/-! ## Values -/

namespace ClauseEnv

variable (env : ClauseEnv) (d : Nat)

theorem evalAll_eq (children : List ClauseExpr) : env.evalAll d children = children.map (env.eval d) := by
  induction children with
  | nil => rfl
  | cons child children ih => rw [evalAll, ih, List.map_cons]

theorem eval_function (nodeAlias : NodeAlias) (isVolatile : Bool) (kind : FunctionKind) (args : List ClauseExpr)
    (row : Nat) :
    env.eval d (.function nodeAlias isVolatile kind args) row =
      env.functionValue kind row (args.map fun arg => env.eval d arg row) := by
  rw [eval, evalAll_eq]
  dsimp only
  rw [List.map_map]
  rfl

/-- A cast over a decision changes nothing. -/
theorem eval_cast_of_referencesDecide {nodeAlias : NodeAlias} {targetType : String} {child : ClauseExpr}
    (h : child.referencesDecide d = true) :
    env.eval d (.cast nodeAlias targetType child) = env.eval d child := by
  rw [eval, if_pos h]

theorem eval_cast_of_not {nodeAlias : NodeAlias} {targetType : String} {child : ClauseExpr}
    (h : child.referencesDecide d = false) (row : Nat) :
    env.eval d (.cast nodeAlias targetType child) row = (env.eval d child row).bind (env.convert targetType) := by
  rw [eval, if_neg (by rw [h]; exact Bool.false_ne_true)]

@[simp] theorem eval_setAlias (newAlias : NodeAlias) (expr : ClauseExpr) :
    env.eval d (expr.setAlias newAlias) = env.eval d expr := by
  cases expr with
  | columnRef nodeAlias tableIndex columnIndex => rw [setAlias, eval, eval]
  | constant nodeAlias value => rw [setAlias, eval, eval]
  | subquery nodeAlias id isScalar isCorrelated args => rw [setAlias, eval, eval]
  | cast nodeAlias targetType child => rw [setAlias, eval, eval]
  | function nodeAlias isVolatile kind args => rw [setAlias, eval, eval]
  | aggregate nodeAlias name args rest => rw [setAlias, eval, eval]
  | other nodeAlias name neverFolds args => rw [setAlias, eval, eval]

theorem eval_unwrapDecideCasts (expr : ClauseExpr) :
    env.eval d (expr.unwrapDecideCasts d) = env.eval d expr := by
  fun_induction unwrapDecideCasts d expr with
  | case1 nodeAlias targetType child h ih =>
    rw [referencesDecide_cast] at h
    rw [ih, eval_cast_of_referencesDecide env d h]
  | case2 nodeAlias targetType child h => rfl
  | case3 expr h => rfl

end ClauseEnv

/-! ## The casts of the binder -/

namespace DecideCanonicalizer

variable (c : DecideCanonicalizer)

/-- The casts the function binder gives arguments keep the values those take: they widen. -/
def BinderWidens (env : ClauseEnv) : Prop :=
  ∀ kind children casts, c.context.bindScalarFunction kind children = .ok casts →
    ∀ i child targetType, children[i]? = some child → casts i = some targetType →
      ∀ row value, env.eval c.decideIndex child row = some value → env.convert targetType value = some value

variable {c} {env : ClauseEnv}

theorem eval_castArgument {child : ClauseExpr} {cast : Option String}
    (h : ∀ targetType, cast = some targetType → ∀ row value, env.eval c.decideIndex child row = some value →
      env.convert targetType value = some value) (row : Nat) :
    env.eval c.decideIndex (castArgument cast child) row = env.eval c.decideIndex child row := by
  cases cast with
  | none => rfl
  | some targetType =>
    rw [castArgument]
    by_cases hdecide : child.referencesDecide c.decideIndex = true
    · rw [env.eval_cast_of_referencesDecide _ hdecide]
    · rw [env.eval_cast_of_not _ (by simpa using hdecide)]
      cases hvalue : env.eval c.decideIndex child row with
      | none => rfl
      | some value => exact h targetType rfl row value hvalue

theorem bindOp_eq_ok {kind : FunctionKind} {children : List ClauseExpr} {result : ClauseExpr}
    (h : c.bindOp kind children = .ok result) :
    ∃ casts, c.context.bindScalarFunction kind children = .ok casts ∧
      result = .function {} false kind (children.mapIdx fun i child => castArgument (casts i) child) := by
  unfold bindOp at h
  split at h
  · rename_i casts hbind
    exact ⟨casts, hbind, by cases h; rfl⟩
  · cases h

/-- A function that was bound has the value of its operation at the arguments it was bound to. -/
theorem eval_bindOp (hwidens : c.BinderWidens env) {kind : FunctionKind} {children : List ClauseExpr}
    {result : ClauseExpr} (h : c.bindOp kind children = .ok result) (row : Nat) :
    env.eval c.decideIndex result row =
      env.functionValue kind row (children.map fun child => env.eval c.decideIndex child row) := by
  obtain ⟨casts, hbind, rfl⟩ := bindOp_eq_ok h
  rw [env.eval_function]
  congr 1
  apply List.ext_getElem?
  intro i
  rw [List.getElem?_map, List.getElem?_mapIdx, List.getElem?_map]
  cases hchild : children[i]? with
  | none => rfl
  | some child =>
    exact congrArg some (eval_castArgument
      (fun targetType htype => hwidens kind children casts hbind i child targetType hchild htype) row)

/-! ## Factors -/

/-- The value of a term under factors. -/
def scaledValue (multiplier term divisor : Option ℚ) : Option ℚ :=
  multiplier.bind fun m => term.bind fun t => divisor.bind fun v => quotientValue (m * t) v

theorem scaledValue_mul (multiplier term divisor factor : Option ℚ) :
    Option.map₂ (· * ·) (scaledValue multiplier term divisor) factor =
      scaledValue (Option.map₂ (· * ·) factor multiplier) term divisor := by
  rcases multiplier with _ | m <;> rcases term with _ | t <;> rcases divisor with _ | v <;>
    rcases factor with _ | f <;> try rfl
  · simp only [scaledValue, Option.bind_some, Option.map₂_none_right]
    rfl
  · simp only [scaledValue, Option.bind_some, Option.map₂_some_some, quotientValue]
    by_cases hv : v = 0
    · rw [if_pos hv, if_pos hv]
      rfl
    · rw [if_neg hv, if_neg hv, Option.map₂_some_some]
      congr 1
      ring

theorem scaledValue_div (multiplier term divisor factor : Option ℚ) :
    ((scaledValue multiplier term divisor).bind fun a => factor.bind fun f => quotientValue a f) =
      scaledValue multiplier term (Option.map₂ (· * ·) factor divisor) := by
  rcases multiplier with _ | m <;> rcases term with _ | t <;> rcases divisor with _ | v <;>
    rcases factor with _ | f <;> try rfl
  · simp only [scaledValue, Option.bind_some, Option.map₂_none_left, Option.bind_none]
    cases quotientValue (m * t) v <;> rfl
  · simp only [scaledValue, Option.bind_some, Option.map₂_some_some, quotientValue]
    by_cases hv : v = 0
    · rw [if_pos hv, if_pos (by rw [hv, mul_zero]), Option.bind_none]
    · rw [if_neg hv, Option.bind_some]
      by_cases hf : f = 0
      · rw [if_pos hf, if_pos (by rw [hf, zero_mul])]
      · rw [if_neg hf, if_neg (mul_ne_zero hf hv), div_div, mul_comm v f]

/-- The value of a product of expressions. -/
def factorsValue (c : DecideCanonicalizer) (env : ClauseEnv) (row : Nat) (factors : List ClauseExpr) : Option ℚ :=
  strictFold (· * ·) 1 (factors.map fun factor => env.eval c.decideIndex factor row)

/-- The factors taken off a term give back what it was. -/
theorem eval_peelFactors {clause : ClauseKind} {expr : ClauseExpr} {peeled : PeeledFactors}
    (h : c.peelFactors clause expr = .ok peeled) (row : Nat) :
    scaledValue (factorsValue c env row peeled.multipliers) (env.eval c.decideIndex peeled.term row)
      (factorsValue c env row peeled.divisors) = env.eval c.decideIndex expr row := by
  have hbare : ∀ value : Option ℚ, scaledValue (some 1) value (some 1) = value := by
    intro value
    cases value with
    | none => rfl
    | some v => simp [scaledValue, quotientValue]
  fun_induction c.peelFactors clause expr generalizing peeled with
  | case1 nodeAlias targetType child hdecide ih =>
    rw [ih h, env.eval_cast_of_referencesDecide]
    simpa [referencesDecideVar] using hdecide
  | case2 nodeAlias targetType child hdecide =>
    cases h
    exact hbare _
  | case3 nodeAlias isVolatile a b hscale ih =>
    obtain ⟨u, -, h⟩ := bind_eq_ok.mp h
    obtain ⟨inner, hinner, h⟩ := bind_eq_ok.mp h
    obtain rfl := pure_eq_ok.mp h
    rw [env.eval_function, List.map_cons, List.map_cons, List.map_nil, ← ih hinner]
    exact (scaledValue_mul _ _ _ _).symm
  | case4 nodeAlias isVolatile a b hscale hscale' ih =>
    obtain ⟨u, -, h⟩ := bind_eq_ok.mp h
    obtain ⟨inner, hinner, h⟩ := bind_eq_ok.mp h
    obtain rfl := pure_eq_ok.mp h
    rw [env.eval_function, List.map_cons, List.map_cons, List.map_nil, ← ih hinner]
    exact ((Option.map₂_comm mul_comm).trans (scaledValue_mul _ _ _ _)).symm
  | case5 nodeAlias isVolatile a b hscale hscale' =>
    cases h
    exact hbare _
  | case6 nodeAlias isVolatile a b hscale ih =>
    obtain ⟨u, -, h⟩ := bind_eq_ok.mp h
    obtain ⟨inner, hinner, h⟩ := bind_eq_ok.mp h
    obtain rfl := pure_eq_ok.mp h
    rw [env.eval_function, List.map_cons, List.map_cons, List.map_nil, ← ih hinner]
    exact (scaledValue_div _ _ _ _).symm
  | case7 nodeAlias isVolatile a b hscale =>
    cases h
    exact hbare _
  | case8 expr h₁ h₂ h₃ =>
    cases h
    exact hbare _

end DecideCanonicalizer

end Decidb
