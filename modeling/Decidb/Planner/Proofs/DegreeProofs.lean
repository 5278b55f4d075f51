import Decidb.Planner.DegreeMeaning

/-!
# The degree gate

The walk counts the degree of every expression in which no count wraps and nothing is hidden from it
(`degree_walkDegree`); what it then accepts holds no refused shape, and is a polynomial of that degree.
-/

namespace Decidb

open MvPolynomial

namespace BoundExpr

/-! ## Lists of children -/

section Equations

-- Derives the equations of the walks once, before the lemmas that rewrite with them.
attribute [local simp] unboundedDegree unboundedDegrees walkDegree walkDegrees

end Equations

theorem anyContainsDecision_eq (children : List BoundExpr) :
    anyContainsDecision children = children.any containsDecision := by
  induction children with
  | nil => rfl
  | cons child children ih => rw [anyContainsDecision, ih, List.any_cons]

theorem unboundedDegrees_eq (children : List BoundExpr) :
    unboundedDegrees children = children.map unboundedDegree := by
  induction children with
  | nil => rfl
  | cons child children ih => rw [unboundedDegrees, ih, List.map_cons]

theorem values_eq (row : DataRow) (x : Nat → ℚ) (children : List BoundExpr) :
    values row x children = children.map (value row x) := by
  induction children with
  | nil => rfl
  | cons child children ih => rw [values, ih, List.map_cons]

theorem walkDegrees_eq (undefinedCast : DoubleValue → Nat) (children : List BoundExpr) :
    walkDegrees undefinedCast children = children.map (walkDegree undefinedCast) := by
  induction children with
  | nil => rfl
  | cons child children ih => rw [walkDegrees, ih, List.map_cons]

theorem sizeOf_lt_of_mem_children {child expr : BoundExpr} (h : child ∈ expr.children) :
    sizeOf child < sizeOf expr := by
  cases expr with
  | decision column => cases h
  | data column => cases h
  | constant value => cases h
  | cast inner =>
    obtain rfl := List.mem_singleton.mp h
    simp
  | aggregate name children rest =>
    rcases List.mem_append.mp h with h | h
    · have := List.sizeOf_lt_of_mem h
      simp only [aggregate.sizeOf_spec]
      omega
    · have := List.sizeOf_lt_of_mem h
      simp only [aggregate.sizeOf_spec]
      omega
  | conjunction isWrapper children =>
    have : sizeOf child < sizeOf children := List.sizeOf_lt_of_mem h
    simp only [conjunction.sizeOf_spec]
    omega
  | function kind children =>
    have : sizeOf child < sizeOf children := List.sizeOf_lt_of_mem h
    simp only [function.sizeOf_spec]
    omega
  | other name children =>
    have : sizeOf child < sizeOf children := List.sizeOf_lt_of_mem h
    simp only [other.sizeOf_spec]
    omega

/-- Induction over the children of a node. -/
theorem childInduction {motive : BoundExpr → Prop}
    (node : ∀ expr : BoundExpr, (∀ child ∈ expr.children, motive child) → motive expr) (expr : BoundExpr) :
    motive expr :=
  node expr fun child h =>
    have := sizeOf_lt_of_mem_children h
    childInduction node child
termination_by sizeOf expr

theorem mem_children_of_mem_terms {child expr : BoundExpr} (h : child ∈ expr.terms) :
    child ∈ expr.children := by
  unfold terms at h
  split at h
  all_goals simp_all [children]

/-- Induction over the terms of a node. -/
theorem termInduction {motive : BoundExpr → Prop}
    (node : ∀ expr : BoundExpr, (∀ child ∈ expr.terms, motive child) → motive expr) (expr : BoundExpr) :
    motive expr :=
  childInduction (fun expr ih => node expr fun child h => ih child (mem_children_of_mem_terms h)) expr

theorem containsDecision_of_mem_children {child expr : BoundExpr} (hchild : child ∈ expr.children)
    (h : child.containsDecision = true) : expr.containsDecision = true := by
  have hany : ∀ children : List BoundExpr, child ∈ children → anyContainsDecision children = true := by
    intro children hmem
    rw [anyContainsDecision_eq]
    exact List.any_eq_true.mpr ⟨child, hmem, h⟩
  cases expr with
  | decision column => rfl
  | data column => cases hchild
  | constant value => cases hchild
  | cast inner =>
    obtain rfl := List.mem_singleton.mp hchild
    exact h
  | aggregate name children rest =>
    rw [containsDecision, Bool.or_eq_true]
    exact (List.mem_append.mp hchild).imp (hany _) (hany _)
  | conjunction isWrapper children => exact hany children hchild
  | function kind children => exact hany children hchild
  | other name children => exact hany children hchild

theorem Part.trans {a b c : BoundExpr} (h : a.Part b) (h' : b.Part c) : a.Part c := by
  induction h' with
  | self => exact h
  | term hchild _ ih => exact .term hchild ih

theorem Part.containsDecision {part expr : BoundExpr} (h : part.Part expr)
    (hpart : part.containsDecision = true) : expr.containsDecision = true := by
  induction h with
  | self => exact hpart
  | term hchild _ ih => exact containsDecision_of_mem_children (mem_children_of_mem_terms hchild) ih

theorem RefusedShape.containsDecision {expr : BoundExpr} (h : expr.RefusedShape) :
    expr.containsDecision = true := by
  unfold RefusedShape at h
  split at h
  · exact h
  · rw [BoundExpr.containsDecision, anyContainsDecision, anyContainsDecision, h, Bool.true_or, Bool.or_true]
  · exact h
  · exact h.2
  · exact h
  · exact h
  · exact h
  · cases h

theorem Bears.containsDecision {expr : BoundExpr} {column : Nat} (h : expr.Bears column) :
    expr.containsDecision = true :=
  Part.containsDecision h rfl

/-! ## The shapes of a node -/

/-- A node the walk does not look into: it is refused if it holds a decision. -/
structure Unread (expr : BoundExpr) : Prop where
  terms_eq : expr.terms = []
  refusedShape_iff : expr.RefusedShape ↔ anyContainsDecision expr.children = true
  containsDecision_eq : expr.containsDecision = anyContainsDecision expr.children
  unboundedDegree_eq : expr.unboundedDegree = if anyContainsDecision expr.children = true then 3 else 0
  walkDegree_eq : ∀ undefinedCast, walkDegree undefinedCast expr =
    walkUnclassifiable (anyContainsDecision expr.children)
  not_conjunction : ∀ children, expr ≠ .conjunction false children
  not_power : ∀ base exponent, expr ≠ .function .power [base, exponent]
  not_times : ∀ children, expr ≠ .function .times children

/-- A node by what the walk does with it. -/
inductive Shape : BoundExpr → Prop
  | decision (column : Nat) : Shape (.decision column)
  | data (column : Nat) : Shape (.data column)
  | constant (value : Option DoubleValue) : Shape (.constant value)
  | cast (child : BoundExpr) : Shape (.cast child)
  | aggregate (name : String) (children rest : List BoundExpr) : Shape (.aggregate name children rest)
  | wrapper (children : List BoundExpr) : Shape (.conjunction true children)
  | conjunction (children : List BoundExpr) : Shape (.conjunction false children)
  | additive (kind : FunctionKind) (children : List BoundExpr) (h : kind = .plus ∨ kind = .minus ∨ kind = .abs) :
      Shape (.function kind children)
  | times (children : List BoundExpr) : Shape (.function .times children)
  | quotient (numerator divisor : BoundExpr) : Shape (.function .divide [numerator, divisor])
  | power (base exponent : BoundExpr) : Shape (.function .power [base, exponent])
  | unread (expr : BoundExpr) (h : expr.Unread) : Shape expr

/-- A function node is unread once it has no terms and is refused with any decision. -/
theorem unread_function {kind : FunctionKind} {children : List BoundExpr}
    (hterms : (BoundExpr.function kind children).terms = [])
    (hrefused : (BoundExpr.function kind children).RefusedShape ↔ anyContainsDecision children = true)
    (hdegree : unboundedFunction kind children (unboundedDegrees children) = 0)
    (hwalk : ∀ undefinedCast, walkFunction undefinedCast kind children (walkDegrees undefinedCast children) =
      walkUnclassifiable (anyContainsDecision children))
    (hpower : ∀ base exponent, BoundExpr.function kind children ≠ .function .power [base, exponent])
    (htimes : ∀ args, BoundExpr.function kind children ≠ .function .times args) :
    (BoundExpr.function kind children).Unread where
  terms_eq := hterms
  refusedShape_iff := hrefused
  containsDecision_eq := by rw [containsDecision]; rfl
  unboundedDegree_eq := by
    rw [unboundedDegree, hdegree]
    exact if_congr hrefused rfl rfl
  walkDegree_eq undefinedCast := by
    rw [walkDegree]
    exact hwalk undefinedCast
  not_conjunction children := by simp
  not_power := hpower
  not_times := htimes

theorem shape (expr : BoundExpr) : Shape expr := by
  cases expr with
  | decision column => exact .decision column
  | data column => exact .data column
  | constant value => exact .constant value
  | cast child => exact .cast child
  | aggregate name children rest => exact .aggregate name children rest
  | conjunction isWrapper children =>
    cases isWrapper with
    | true => exact .wrapper children
    | false => exact .conjunction children
  | other name children =>
    exact .unread _
      { terms_eq := rfl
        refusedShape_iff := Iff.rfl
        containsDecision_eq := by rw [containsDecision]; rfl
        unboundedDegree_eq := by rw [unboundedDegree]; rfl
        walkDegree_eq := fun undefinedCast => by rw [walkDegree]; rfl
        not_conjunction := fun children => by simp
        not_power := fun base exponent => by simp
        not_times := fun children => by simp }
  | function kind children =>
    cases kind with
    | plus => exact .additive _ _ (.inl rfl)
    | minus => exact .additive _ _ (.inr (.inl rfl))
    | abs => exact .additive _ _ (.inr (.inr rfl))
    | times => exact .times children
    | named name =>
      exact .unread _ (unread_function rfl Iff.rfl rfl (fun _ => rfl) (by simp) (by simp))
    | divide =>
      rcases children with _ | ⟨a, _ | ⟨b, _ | ⟨c, rest⟩⟩⟩
      · exact .unread _ (unread_function rfl Iff.rfl rfl (fun _ => rfl) (by simp) (by simp))
      · exact .unread _ (unread_function rfl Iff.rfl rfl (fun _ => rfl) (by simp) (by simp))
      · exact .quotient a b
      · exact .unread _ (unread_function rfl Iff.rfl rfl (fun _ => rfl) (by simp) (by simp))
    | power =>
      rcases children with _ | ⟨a, _ | ⟨b, _ | ⟨c, rest⟩⟩⟩
      · exact .unread _ (unread_function rfl Iff.rfl rfl (fun _ => rfl) (by simp) (by simp))
      · exact .unread _ (unread_function rfl Iff.rfl rfl (fun _ => rfl) (by simp) (by simp))
      · exact .power a b
      · exact .unread _ (unread_function rfl Iff.rfl rfl (fun _ => rfl) (by simp) (by simp))

/-! ## Degrees in whole numbers -/

theorem foldl_max_le {l : List Nat} {a n : Nat} : l.foldl max a ≤ n ↔ a ≤ n ∧ ∀ d ∈ l, d ≤ n := by
  induction l generalizing a with
  | nil => simp
  | cons d l ih =>
    rw [List.foldl_cons, ih, max_le_iff]
    simp [and_assoc]

theorem le_foldl_max {l : List Nat} {d : Nat} (h : d ∈ l) : d ≤ l.foldl max 0 :=
  (foldl_max_le.mp (le_refl _)).2 d h

theorem unboundedDegree_additive {kind : FunctionKind} (h : kind = .plus ∨ kind = .minus ∨ kind = .abs)
    (children : List BoundExpr) :
    (function kind children).unboundedDegree = (children.map unboundedDegree).foldl max 0 := by
  rcases h with rfl | rfl | rfl <;>
    rw [unboundedDegree, if_neg (by simp [RefusedShape]), unboundedDegrees_eq] <;> rfl

theorem terms_additive {kind : FunctionKind} (h : kind = .plus ∨ kind = .minus ∨ kind = .abs)
    (children : List BoundExpr) : (function kind children).terms = children := by
  rcases h with rfl | rfl | rfl <;> rfl

theorem unboundedDegree_aggregate (name : String) (children rest : List BoundExpr) :
    (aggregate name children rest).unboundedDegree = (children.map unboundedDegree).foldl max 0 := by
  rw [unboundedDegree, unboundedDegrees_eq]

theorem unboundedDegree_times (children : List BoundExpr) :
    (function .times children).unboundedDegree = (children.map unboundedDegree).sum := by
  rw [unboundedDegree, if_neg (by simp [RefusedShape]), unboundedDegrees_eq]
  rfl

theorem unboundedDegree_quotient (a b : BoundExpr) :
    (function .divide [a, b]).unboundedDegree = if b.containsDecision = true then 3 else a.unboundedDegree := by
  rw [unboundedDegree]
  rfl

theorem unboundedDegree_power (a b : BoundExpr) :
    (function .power [a, b]).unboundedDegree =
      if (function .power [a, b]).RefusedShape then 3 else a.unboundedDegree * b.naturalExponent.getD 0 := by
  rw [unboundedDegree]
  rfl

theorem unboundedDegree_wrapper (child : BoundExpr) (children : List BoundExpr) :
    (conjunction true (child :: children)).unboundedDegree = child.unboundedDegree := by
  rw [unboundedDegree, if_pos rfl, unboundedDegrees]
  rfl

theorem unboundedDegree_conjunction (children : List BoundExpr) :
    (conjunction false children).unboundedDegree = if anyContainsDecision children = true then 3 else 0 := by
  rw [unboundedDegree, if_neg (by simp)]

theorem refusedShape_power {a b : BoundExpr} : (function .power [a, b]).RefusedShape ↔
    b.naturalExponent = none ∧ anyContainsDecision [a, b] = true := Iff.rfl

theorem anyContainsDecision_pair {a b : BoundExpr} :
    anyContainsDecision [a, b] = (a.containsDecision || b.containsDecision) := by
  rw [anyContainsDecision, anyContainsDecision, anyContainsDecision, Bool.or_false]

theorem containsDecision_false_of_children {child expr : BoundExpr} (hchild : child ∈ expr.children)
    (h : expr.containsDecision = false) : child.containsDecision = false := by
  by_contra hc
  rw [Bool.not_eq_false] at hc
  rw [containsDecision_of_mem_children hchild hc] at h
  cases h

theorem not_refusedShape_of_data {expr : BoundExpr} (h : expr.containsDecision = false) :
    ¬ expr.RefusedShape := by
  intro hr
  rw [hr.containsDecision] at h
  cases h

/-- An expression without a decision has no degree. -/
theorem unboundedDegree_of_data {expr : BoundExpr} (h : expr.containsDecision = false) :
    expr.unboundedDegree = 0 := by
  induction expr using termInduction with
  | node expr ih =>
    have hterm : ∀ child ∈ expr.terms, child.unboundedDegree = 0 := fun child hchild =>
      ih child hchild (containsDecision_false_of_children (mem_children_of_mem_terms hchild) h)
    have hmax : ∀ children : List BoundExpr, (∀ child ∈ children, child ∈ expr.terms) →
        (children.map unboundedDegree).foldl max 0 = 0 := by
      intro children hsub
      refine Nat.le_zero.mp (foldl_max_le.mpr ⟨le_refl 0, ?_⟩)
      intro d hd
      obtain ⟨child, hchild, rfl⟩ := List.mem_map.mp hd
      exact (hterm child (hsub child hchild)).le
    cases expr.shape with
    | decision column => cases h
    | data column => rfl
    | constant value => rfl
    | cast child => exact hterm child (List.mem_singleton_self child)
    | aggregate name children rest =>
      rw [unboundedDegree_aggregate]
      exact hmax children fun child hchild => hchild
    | wrapper children =>
      cases children with
      | nil => rfl
      | cons child children =>
        rw [unboundedDegree_wrapper]
        exact hterm child (List.mem_singleton_self child)
    | conjunction children =>
      rw [unboundedDegree_conjunction, show anyContainsDecision children = false from h, if_neg (by simp)]
    | additive kind children hkind =>
      rw [unboundedDegree_additive hkind]
      exact hmax children fun child hchild => by rw [terms_additive hkind]; exact hchild
    | times children =>
      rw [unboundedDegree_times, List.sum_eq_zero]
      intro d hd
      obtain ⟨child, hchild, rfl⟩ := List.mem_map.mp hd
      exact hterm child hchild
    | quotient a b =>
      rw [unboundedDegree_quotient, if_neg (show ¬ b.containsDecision = true from fun hb =>
        not_refusedShape_of_data h hb)]
      exact hterm a (List.mem_singleton_self a)
    | power a b =>
      rw [unboundedDegree_power, if_neg (not_refusedShape_of_data h), hterm a (List.mem_singleton_self a),
        Nat.zero_mul]
    | unread expr hunread =>
      rw [hunread.unboundedDegree_eq, ← hunread.containsDecision_eq, h, if_neg (by simp)]

/-! ## The walk counts degrees -/

theorem degree_foldl_absorbAdditive (walks : List DegreeWalk) (walk : DegreeWalk) :
    (walks.foldl absorbAdditive walk).degree = (walks.map (·.degree)).foldl max walk.degree := by
  induction walks generalizing walk with
  | nil => rfl
  | cons w walks ih =>
    rw [List.foldl_cons, ih, List.map_cons, List.foldl_cons]
    rfl

theorem foldl_add_mod (walks : List DegreeWalk) (degree : Nat) :
    walks.foldl (fun degree walk => (degree + walk.degree) % idxRange) (degree % idxRange) =
      (degree + (walks.map (·.degree)).sum) % idxRange := by
  induction walks generalizing degree with
  | nil => rfl
  | cons walk walks ih =>
    rw [List.foldl_cons, Nat.mod_add_mod, ih, List.map_cons, List.sum_cons, Nat.add_assoc]

theorem degree_walkMultiplication (walks : List DegreeWalk) :
    (walkMultiplication walks).degree = (walks.map (·.degree)).sum % idxRange := by
  have h := foldl_add_mod walks 0
  rw [Nat.zero_add] at h
  exact h

theorem walkDegree_additive {kind : FunctionKind} (h : kind = .plus ∨ kind = .minus ∨ kind = .abs)
    (undefinedCast : DoubleValue → Nat) (children : List BoundExpr) :
    walkDegree undefinedCast (function kind children) =
      (children.map (walkDegree undefinedCast)).foldl absorbAdditive {} := by
  rw [walkDegree, walkDegrees_eq]
  rcases h with rfl | rfl | rfl <;> rfl

theorem walkDegree_aggregate (undefinedCast : DoubleValue → Nat) (name : String)
    (children rest : List BoundExpr) :
    walkDegree undefinedCast (aggregate name children rest) =
      (children.map (walkDegree undefinedCast)).foldl absorbAdditive {} := by
  rw [walkDegree, walkDegrees_eq]

theorem walkDegree_times (undefinedCast : DoubleValue → Nat) (children : List BoundExpr) :
    walkDegree undefinedCast (function .times children) =
      walkMultiplication (children.map (walkDegree undefinedCast)) := by
  rw [walkDegree, walkDegrees_eq]
  rfl

theorem walkDegree_wrapper (undefinedCast : DoubleValue → Nat) (child : BoundExpr)
    (children : List BoundExpr) :
    walkDegree undefinedCast (conjunction true (child :: children)) = walkDegree undefinedCast child := by
  rw [walkDegree, if_pos rfl, walkDegrees]
  rfl

theorem walkDegree_conjunction (undefinedCast : DoubleValue → Nat) (children : List BoundExpr) :
    walkDegree undefinedCast (conjunction false children) = {} := by
  rw [walkDegree, if_neg (by simp)]

theorem walkDegree_quotient (undefinedCast : DoubleValue → Nat) (a b : BoundExpr) :
    walkDegree undefinedCast (function .divide [a, b]) =
      if b.containsDecision = true then { degree := unclassifiableDegree } else walkDegree undefinedCast a := by
  rw [walkDegree]
  rfl

theorem walkDegree_power (undefinedCast : DoubleValue → Nat) (a b : BoundExpr) :
    walkDegree undefinedCast (function .power [a, b]) =
      match b.constantExponent with
      | some value =>
        if value.isWhole then walkPower undefinedCast (walkDegree undefinedCast a) value
        else walkUnclassifiable (anyContainsDecision [a, b])
      | none => walkUnclassifiable (anyContainsDecision [a, b]) := by
  rw [walkDegree]
  rfl

/-- What the exponent of a power is for the walk. -/
theorem exponent_cases (b : BoundExpr) :
    (∃ n : Nat, b.constantExponent = some (.finite n) ∧ b.naturalExponent = some n) ∨
      (b.constantExponent = some .infinite ∧ b.naturalExponent = none) ∨
      (b.naturalExponent = none ∧ ∀ undefinedCast a, walkDegree undefinedCast (function .power [a, b]) =
        walkUnclassifiable (anyContainsDecision [a, b])) := by
  cases hexp : b.constantExponent with
  | none =>
    refine .inr (.inr ⟨by rw [naturalExponent, hexp], ?_⟩)
    intro undefinedCast a
    rw [walkDegree_power, hexp]
  | some value =>
    cases value with
    | infinite => exact .inr (.inl ⟨rfl, by rw [naturalExponent, hexp]⟩)
    | finite value =>
      by_cases hwhole : 0 ≤ value ∧ value.den = 1
      · left
        have hval : ((value.num.toNat : Nat) : ℚ) = value := by
          have hnum : ((value.num.toNat : Nat) : Int) = value.num := Int.toNat_of_nonneg (Rat.num_nonneg.mpr hwhole.1)
          have hq : ((value.num : Int) : ℚ) = value := Rat.den_eq_one_iff value |>.mp hwhole.2
          rw [← Int.cast_natCast, hnum, hq]
        refine ⟨value.num.toNat, by rw [hval], ?_⟩
        rw [naturalExponent, hexp]
        exact if_pos hwhole
      · refine .inr (.inr ⟨by rw [naturalExponent, hexp]; exact if_neg hwhole, ?_⟩)
        intro undefinedCast a
        have hnot : ¬ (DoubleValue.finite value).isWhole = true := by
          unfold DoubleValue.isWhole
          rw [Bool.and_eq_true, decide_eq_true_iff, decide_eq_true_iff]
          exact hwhole
        rw [walkDegree_power, hexp]
        exact if_neg hnot

theorem walkDegree_power_natural (undefinedCast : DoubleValue → Nat) (a : BoundExpr) {b : BoundExpr} {n : Nat}
    (h : b.constantExponent = some (.finite n)) :
    walkDegree undefinedCast (function .power [a, b]) =
      walkPower undefinedCast (walkDegree undefinedCast a) (.finite n) := by
  rw [walkDegree_power, h]
  exact if_pos (by simp [DoubleValue.isWhole])

theorem walkDegree_power_infinite (undefinedCast : DoubleValue → Nat) (a : BoundExpr) {b : BoundExpr}
    (h : b.constantExponent = some .infinite) :
    walkDegree undefinedCast (function .power [a, b]) =
      walkPower undefinedCast (walkDegree undefinedCast a) .infinite := by
  rw [walkDegree_power, h]
  rfl

theorem exponentIndex_natural {undefinedCast : DoubleValue → Nat} {n : Nat} (h : n < idxRange) :
    exponentIndex undefinedCast (.finite n) = n := by
  unfold exponentIndex
  dsimp only
  rw [if_pos (by exact_mod_cast h)]
  simp

theorem counts_of_term {child expr : BoundExpr} (hchild : child ∈ expr.terms)
    (h : ∀ part : BoundExpr, part.Part expr → part.Counts) :
    ∀ part : BoundExpr, part.Part child → part.Counts :=
  fun part hpart => h part (.term hchild hpart)

/-- **Where every part counts, the walk gives the degree.** -/
theorem degree_walkDegree (undefinedCast : DoubleValue → Nat) {expr : BoundExpr}
    (h : ∀ part : BoundExpr, part.Part expr → part.Counts) :
    (walkDegree undefinedCast expr).degree = expr.unboundedDegree := by
  induction expr using termInduction with
  | node expr ih =>
    have hself := h expr .self
    have hterm : ∀ child ∈ expr.terms, (walkDegree undefinedCast child).degree = child.unboundedDegree :=
      fun child hchild => ih child hchild (counts_of_term hchild h)
    have hmap : ∀ children : List BoundExpr, (∀ child ∈ children, child ∈ expr.terms) →
        (children.map (walkDegree undefinedCast)).map (·.degree) = children.map unboundedDegree := by
      intro children hsub
      rw [List.map_map]
      exact List.map_congr_left fun child hchild => hterm child (hsub child hchild)
    cases expr.shape with
    | decision column => rfl
    | data column => rfl
    | constant value => rfl
    | cast child => exact hterm child (List.mem_singleton_self child)
    | aggregate name children rest =>
      rw [walkDegree_aggregate, degree_foldl_absorbAdditive, unboundedDegree_aggregate,
        hmap children fun child hchild => hchild]
    | wrapper children =>
      cases children with
      | nil => rfl
      | cons child children =>
        rw [walkDegree_wrapper, unboundedDegree_wrapper]
        exact hterm child (List.mem_singleton_self child)
    | conjunction children =>
      rw [walkDegree_conjunction, unboundedDegree_conjunction, hself.conjunction children rfl, if_neg (by simp)]
    | additive kind children hkind =>
      rw [walkDegree_additive hkind, degree_foldl_absorbAdditive, unboundedDegree_additive hkind,
        hmap children fun child hchild => by rw [terms_additive hkind]; exact hchild]
    | times children =>
      have hlt := hself.degree_lt
      rw [unboundedDegree_times] at hlt
      rw [walkDegree_times, degree_walkMultiplication, hmap children fun child hchild => hchild,
        unboundedDegree_times, Nat.mod_eq_of_lt hlt]
    | quotient a b =>
      rw [walkDegree_quotient, unboundedDegree_quotient]
      split
      · rfl
      · exact hterm a (List.mem_singleton_self a)
    | power a b =>
      have hlt := hself.degree_lt
      have ha := hterm a (List.mem_singleton_self a)
      have hdata : ¬ (function .power [a, b]).RefusedShape → b.naturalExponent = none →
          anyContainsDecision [a, b] = false := by
        intro hr hnat
        by_contra hc
        exact hr ⟨hnat, Bool.not_eq_false _ ▸ hc⟩
      rw [unboundedDegree_power] at hlt ⊢
      rcases exponent_cases b with ⟨n, hexp, hnat⟩ | ⟨hexp, hnat⟩ | ⟨hnat, hwalk⟩
      · have hr : ¬ (function .power [a, b]).RefusedShape := by
          intro hr
          rw [hr.1] at hnat
          cases hnat
        rw [if_neg hr, hnat, Option.getD_some] at hlt ⊢
        rw [walkDegree_power_natural undefinedCast a hexp]
        change (walkDegree undefinedCast a).degree * exponentIndex undefinedCast (.finite n) % idxRange = _
        rw [ha]
        by_cases hzero : a.unboundedDegree = 0
        · rw [hzero, Nat.zero_mul, Nat.zero_mul, Nat.zero_mod]
        · have hn : n < idxRange :=
            lt_of_le_of_lt (Nat.le_mul_of_pos_left n (Nat.pos_of_ne_zero hzero)) hlt
          rw [exponentIndex_natural hn, Nat.mod_eq_of_lt hlt]
      · have hany := hself.infinite a b rfl hexp
        have hzero : a.unboundedDegree = 0 := by
          rw [anyContainsDecision_pair, Bool.or_eq_false_iff] at hany
          exact unboundedDegree_of_data hany.1
        rw [walkDegree_power_infinite undefinedCast a hexp, if_neg (by
          rw [refusedShape_power, hany]
          simp), hzero, Nat.zero_mul]
        change (walkDegree undefinedCast a).degree * _ % idxRange = 0
        rw [ha, hzero, Nat.zero_mul, Nat.zero_mod]
      · rw [hwalk undefinedCast a]
        by_cases hr : (function .power [a, b]).RefusedShape
        · rw [if_pos hr, hr.2]
          rfl
        · rw [if_neg hr, hdata hr hnat, hnat]
          rfl
    | unread expr hunread =>
      rw [hunread.walkDegree_eq, hunread.unboundedDegree_eq]
      rfl

end BoundExpr

end Decidb
