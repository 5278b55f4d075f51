import Decidb.Planner.Proofs.DegreePolynomialProofs

/-!
# What the degree gate accepts

Among the expressions it accepts, the gate is sound for those in which no degree wraps and no zero exponent
hides a refused shape or a square (`gateSound_iff`).
-/

namespace Decidb

namespace BoundExpr

/-! ## A refused shape shows in the degree -/

theorem three_le_of_refusedShape {expr : BoundExpr} (h : expr.RefusedShape) : 3 ≤ expr.unboundedDegree := by
  cases expr.shape with
  | decision column => cases h
  | data column => cases h
  | constant value => cases h
  | cast child => cases h
  | aggregate name children rest => cases h
  | wrapper children => cases h
  | conjunction children => rw [unboundedDegree_conjunction, if_pos (show anyContainsDecision children = true from h)]
  | additive kind children hkind => rcases hkind with rfl | rfl | rfl <;> cases h
  | times children => cases h
  | quotient a b => rw [unboundedDegree_quotient, if_pos (show b.containsDecision = true from h)]
  | power a b => rw [unboundedDegree_power, if_pos h]
  | unread expr hunread => rw [hunread.unboundedDegree_eq, if_pos (hunread.refusedShape_iff.mp h)]

/-- A refused shape stays in the degree, but under an exponent of zero. -/
theorem three_le_of_part {part expr : BoundExpr} (h : part.Part expr) (hrefused : part.RefusedShape)
    (hzero : ∀ base exponent : BoundExpr, (BoundExpr.function .power [base, exponent]).Part expr →
      exponent.naturalExponent = some 0 → ∀ p : BoundExpr, p.Part base → ¬ p.RefusedShape) :
    3 ≤ expr.unboundedDegree := by
  induction h with
  | self => exact three_le_of_refusedShape hrefused
  | @term child expr hchild hpart ih =>
    have hle := ih fun base exponent hp => hzero base exponent (.term hchild hp)
    have hmax : ∀ children : List BoundExpr, child ∈ children →
        3 ≤ (children.map unboundedDegree).foldl max 0 := fun children hmem =>
      hle.trans (le_foldl_max (List.mem_map.mpr ⟨child, hmem, rfl⟩))
    cases expr.shape with
    | decision column => cases hchild
    | data column => cases hchild
    | constant value => cases hchild
    | cast inner =>
      obtain rfl := List.mem_singleton.mp hchild
      exact hle
    | aggregate name children rest =>
      rw [unboundedDegree_aggregate]
      exact hmax children hchild
    | wrapper children =>
      cases children with
      | nil => cases hchild
      | cons first children =>
        obtain rfl := List.mem_singleton.mp hchild
        rw [unboundedDegree_wrapper]
        exact hle
    | conjunction children => cases hchild
    | additive kind children hkind =>
      rw [terms_additive hkind] at hchild
      rw [unboundedDegree_additive hkind]
      exact hmax children hchild
    | times children =>
      rw [unboundedDegree_times]
      exact hle.trans (List.le_sum_of_mem (List.mem_map.mpr ⟨child, hchild, rfl⟩))
    | quotient a b =>
      obtain rfl := List.mem_singleton.mp hchild
      rw [unboundedDegree_quotient]
      split
      · exact le_refl 3
      · exact hle
    | power a b =>
      obtain rfl := List.mem_singleton.mp hchild
      rw [unboundedDegree_power]
      split
      · exact le_refl 3
      · rename_i hself
        cases hnat : b.naturalExponent with
        | none =>
          have hcontains := hpart.containsDecision hrefused.containsDecision
          exact absurd ⟨hnat, by rw [anyContainsDecision_pair, hcontains, Bool.true_or]⟩ hself
        | some k =>
          cases k with
          | zero => exact absurd hrefused (hzero _ b .self hnat part hpart)
          | succ k => exact hle.trans (Nat.le_mul_of_pos_right _ (Nat.succ_pos k))
    | unread expr hunread =>
      rw [hunread.terms_eq] at hchild
      cases hchild

/-! ## Decisions and squares of the walk -/

theorem bears_iff {expr : BoundExpr} {column : Nat} :
    expr.Bears column ↔ expr = .decision column ∨ ∃ child ∈ expr.terms, child.Bears column := by
  constructor
  · intro h
    cases h with
    | self => exact .inl rfl
    | term hchild h => exact .inr ⟨_, hchild, h⟩
  · rintro (rfl | ⟨child, hchild, h⟩)
    · exact .self
    · exact .term hchild h

theorem mem_vars_foldl_absorbAdditive (walks : List DegreeWalk) (walk : DegreeWalk) (column : Nat) :
    column ∈ (walks.foldl absorbAdditive walk).vars ↔
      column ∈ walk.vars ∨ ∃ w ∈ walks, column ∈ w.vars := by
  induction walks generalizing walk with
  | nil => simp
  | cons w walks ih =>
    rw [List.foldl_cons, ih]
    simp [absorbAdditive, or_assoc]

theorem mem_vars_foldl_union (walks : List DegreeWalk) (vars : Finset Nat) (column : Nat) :
    column ∈ walks.foldl (fun vars walk => vars ∪ walk.vars) vars ↔
      column ∈ vars ∨ ∃ w ∈ walks, column ∈ w.vars := by
  induction walks generalizing vars with
  | nil => simp
  | cons w walks ih =>
    rw [List.foldl_cons, ih]
    simp [or_assoc]

theorem mem_vars_walkUnclassifiable {holds : Bool} {column : Nat} :
    ¬ column ∈ (walkUnclassifiable holds).vars := Finset.notMem_empty column

/-- The walk collects the decisions of the terms. -/
theorem mem_vars_walkDegree (undefinedCast : DoubleValue → Nat) {expr : BoundExpr}
    (h : ∀ part : BoundExpr, part.Part expr → ¬ part.RefusedShape) (column : Nat) :
    column ∈ (walkDegree undefinedCast expr).vars ↔ expr.Bears column := by
  induction expr using termInduction with
  | node expr ih =>
    have hself := h expr .self
    have hterm : ∀ child ∈ expr.terms,
        (column ∈ (walkDegree undefinedCast child).vars ↔ child.Bears column) :=
      fun child hchild => ih child hchild fun part hpart => h part (.term hchild hpart)
    have hany : ∀ children : List BoundExpr, (∀ child ∈ children, child ∈ expr.terms) →
        ((∃ w ∈ children.map (walkDegree undefinedCast), column ∈ w.vars) ↔
          ∃ child ∈ children, child.Bears column) := by
      intro children hsub
      simp only [List.mem_map, exists_exists_and_eq_and]
      exact exists_congr fun child => and_congr_right fun hchild => hterm child (hsub child hchild)
    rw [bears_iff]
    cases expr.shape with
    | decision c =>
      rw [walkDegree]
      simp [terms, eq_comm]
    | data c =>
      rw [walkDegree]
      simp [terms]
    | constant value =>
      rw [walkDegree]
      simp [terms]
    | cast child =>
      rw [walkDegree, hterm child (List.mem_singleton_self child)]
      simp [terms]
    | aggregate name children rest =>
      rw [walkDegree_aggregate, mem_vars_foldl_absorbAdditive, hany children fun child hchild => hchild]
      simp [terms]
    | wrapper children =>
      cases children with
      | nil => simp [terms, walkDegree, walkDegrees]
      | cons child children =>
        rw [walkDegree_wrapper, hterm child (List.mem_singleton_self child)]
        simp [terms]
    | conjunction children =>
      rw [walkDegree_conjunction]
      simp [terms]
    | additive kind children hkind =>
      rw [walkDegree_additive hkind, mem_vars_foldl_absorbAdditive,
        hany children fun child hchild => by rw [terms_additive hkind]; exact hchild, terms_additive hkind]
      simp
    | times children =>
      rw [walkDegree_times]
      change column ∈ (children.map (walkDegree undefinedCast)).foldl (fun vars walk => vars ∪ walk.vars) ∅ ↔ _
      rw [mem_vars_foldl_union, hany children fun child hchild => hchild]
      simp [terms]
    | quotient a b =>
      rw [walkDegree_quotient, if_neg (show ¬ b.containsDecision = true from hself),
        hterm a (List.mem_singleton_self a)]
      simp [terms]
    | power a b =>
      have ha := hterm a (List.mem_singleton_self a)
      have hbase : (∃ child ∈ (function .power [a, b]).terms, child.Bears column) ↔ a.Bears column := by
        simp [terms]
      rw [hbase]
      rcases exponent_cases b with ⟨n, hexp, -⟩ | ⟨hexp, -⟩ | ⟨hnat, hwalk⟩
      · rw [walkDegree_power_natural undefinedCast a hexp]
        change column ∈ (walkDegree undefinedCast a).vars ↔ _
        rw [ha]
        simp
      · rw [walkDegree_power_infinite undefinedCast a hexp]
        change column ∈ (walkDegree undefinedCast a).vars ↔ _
        rw [ha]
        simp
      · rw [hwalk undefinedCast a]
        refine iff_of_false mem_vars_walkUnclassifiable ?_
        rintro (heq | hbears)
        · cases heq
        · exact hself ⟨hnat, by rw [anyContainsDecision_pair, hbears.containsDecision, Bool.true_or]⟩
    | unread expr hunread =>
      rw [hunread.walkDegree_eq, hunread.terms_eq]
      refine iff_of_false mem_vars_walkUnclassifiable ?_
      rintro (rfl | ⟨child, hchild, -⟩)
      · exact hself (hunread.refusedShape_iff.mpr (hunread.containsDecision_eq ▸ rfl))
      · cases hchild

theorem isQuadraticForm_foldl_absorbAdditive (walks : List DegreeWalk) (walk : DegreeWalk) :
    (walks.foldl absorbAdditive walk).isQuadraticForm = true ↔
      walk.isQuadraticForm = true ∨ ∃ w ∈ walks, w.isQuadraticForm = true := by
  induction walks generalizing walk with
  | nil => simp
  | cons w walks ih =>
    rw [List.foldl_cons, ih]
    simp [absorbAdditive, or_assoc]

theorem factorsShare_iff (walks : List DegreeWalk) :
    factorsShare walks = true ↔ ¬ walks.Pairwise fun a b =>
      ¬ (1 ≤ a.degree ∧ 1 ≤ b.degree ∧ ∃ column, column ∈ a.vars ∧ column ∈ b.vars) := by
  induction walks with
  | nil => simp [factorsShare]
  | cons walk walks ih =>
    rw [factorsShare, Bool.or_eq_true, ih, List.pairwise_cons, not_and_or]
    refine or_congr ?_ Iff.rfl
    rw [Bool.and_eq_true, List.any_eq_true]
    push Not
    simp only [bne_iff_ne, ne_eq, Bool.and_eq_true, decide_eq_true_eq, Nat.one_le_iff_ne_zero]
    constructor
    · rintro ⟨hwalk, other, hmem, hother, v, hv, hv'⟩
      exact ⟨other, hmem, hwalk, hother, v, hv, hv'⟩
    · rintro ⟨other, hmem, hwalk, hother, v, hv, hv'⟩
      exact ⟨hwalk, other, hmem, hother, v, hv, hv'⟩

theorem seenSquare_iff {expr : BoundExpr} (hpower : ∀ args, expr ≠ .function .power args)
    (htimes : ∀ args, expr ≠ .function .times args) :
    expr.SeenSquare ↔ ∃ child ∈ expr.terms, child.SeenSquare := by
  constructor
  · intro h
    cases h with
    | square htwo hbase => exact absurd rfl (hpower _)
    | product hdegree hshare => exact absurd rfl (htimes _)
    | base hbase h => exact absurd rfl (hpower _)
    | term hchild _ h => exact ⟨_, hchild, h⟩
  · rintro ⟨child, hchild, h⟩
    exact .term hchild hpower h

theorem seenSquare_times {children : List BoundExpr} : (function .times children).SeenSquare ↔
    (∃ child ∈ children, child.SeenSquare) ∨ ((function .times children).unboundedDegree = 2 ∧
      ¬ children.Pairwise fun a b => ¬ (1 ≤ a.unboundedDegree ∧ 1 ≤ b.unboundedDegree ∧
        ∃ column, a.Bears column ∧ b.Bears column)) := by
  constructor
  · intro h
    cases h with
    | product hdegree hshare => exact .inr ⟨hdegree, hshare⟩
    | term hchild _ h => exact .inl ⟨_, hchild, h⟩
  · rintro (⟨child, hchild, h⟩ | ⟨hdegree, hshare⟩)
    · exact .term hchild (by simp) h
    · exact .product hdegree hshare

theorem seenSquare_power {a b : BoundExpr} : (function .power [a, b]).SeenSquare ↔
    1 ≤ a.unboundedDegree ∧ (b.constantExponent = some (.finite 2) ∨ a.SeenSquare) := by
  constructor
  · intro h
    cases h with
    | square htwo hbase => exact ⟨hbase, .inl htwo⟩
    | base hbase h => exact ⟨hbase, .inr h⟩
    | term hchild hpower h => exact absurd rfl (hpower _)
  · rintro ⟨hbase, htwo | h⟩
    · exact .square htwo hbase
    · exact .base hbase h

theorem Unread.not_seenSquare {expr : BoundExpr} (h : expr.Unread) : ¬ expr.SeenSquare := by
  intro hseen
  cases hseen with
  | square htwo hbase => exact h.not_power _ _ rfl
  | product hdegree hshare => exact h.not_times _ rfl
  | base hbase hseen => exact h.not_power _ _ rfl
  | term hchild _ hseen =>
    rw [h.terms_eq] at hchild
    cases hchild

/-- **The flag of the walk is a square that is seen.** -/
theorem isQuadraticForm_walkDegree (undefinedCast : DoubleValue → Nat) {expr : BoundExpr}
    (hcounts : ∀ part : BoundExpr, part.Part expr → part.Counts)
    (hrefused : ∀ part : BoundExpr, part.Part expr → ¬ part.RefusedShape) :
    (walkDegree undefinedCast expr).isQuadraticForm = true ↔ expr.SeenSquare := by
  induction expr using termInduction with
  | node expr ih =>
    have hself := hrefused expr .self
    have hterm : ∀ child ∈ expr.terms,
        ((walkDegree undefinedCast child).isQuadraticForm = true ↔ child.SeenSquare) :=
      fun child hchild => ih child hchild (counts_of_term hchild hcounts)
        fun part hpart => hrefused part (.term hchild hpart)
    have hdegree : ∀ child ∈ expr.terms,
        (walkDegree undefinedCast child).degree = child.unboundedDegree :=
      fun child hchild => degree_walkDegree undefinedCast (counts_of_term hchild hcounts)
    have hany : ∀ children : List BoundExpr, (∀ child ∈ children, child ∈ expr.terms) →
        ((∃ w ∈ children.map (walkDegree undefinedCast), w.isQuadraticForm = true) ↔
          ∃ child ∈ children, child.SeenSquare) := by
      intro children hsub
      simp only [List.mem_map, exists_exists_and_eq_and]
      exact exists_congr fun child => and_congr_right fun hchild => hterm child (hsub child hchild)
    have hleaf : expr.terms = [] → (∀ args, expr ≠ .function .power args) →
        (∀ args, expr ≠ .function .times args) → ¬ expr.SeenSquare := by
      intro hterms hpower htimes
      rw [seenSquare_iff hpower htimes, hterms]
      simp
    cases expr.shape with
    | decision c => exact iff_of_false Bool.false_ne_true (hleaf rfl (by simp) (by simp))
    | data c => exact iff_of_false Bool.false_ne_true (hleaf rfl (by simp) (by simp))
    | constant value => exact iff_of_false Bool.false_ne_true (hleaf rfl (by simp) (by simp))
    | cast child =>
      rw [seenSquare_iff (by simp) (by simp), walkDegree, hterm child (List.mem_singleton_self child)]
      simp [terms]
    | aggregate name children rest =>
      rw [walkDegree_aggregate, isQuadraticForm_foldl_absorbAdditive, hany children fun child hchild => hchild,
        seenSquare_iff (by simp) (by simp)]
      simp [terms]
    | wrapper children =>
      rw [seenSquare_iff (by simp) (by simp)]
      cases children with
      | nil => simp [terms, walkDegree, walkDegrees]
      | cons child children =>
        rw [walkDegree_wrapper, hterm child (List.mem_singleton_self child)]
        simp [terms]
    | conjunction children =>
      rw [walkDegree_conjunction]
      exact iff_of_false Bool.false_ne_true (hleaf rfl (by simp) (by simp))
    | additive kind children hkind =>
      rw [walkDegree_additive hkind, isQuadraticForm_foldl_absorbAdditive,
        hany children fun child hchild => by rw [terms_additive hkind]; exact hchild,
        seenSquare_iff (by rcases hkind with rfl | rfl | rfl <;> simp)
          (by rcases hkind with rfl | rfl | rfl <;> simp), terms_additive hkind]
      simp
    | times children =>
      have hsum := degree_walkDegree undefinedCast hcounts
      have hshare : factorsShare (children.map (walkDegree undefinedCast)) = true ↔
          ¬ children.Pairwise fun a b => ¬ (1 ≤ a.unboundedDegree ∧ 1 ≤ b.unboundedDegree ∧
            ∃ column, a.Bears column ∧ b.Bears column) := by
        rw [factorsShare_iff, List.pairwise_map]
        refine not_congr (List.Pairwise.iff_of_mem fun {a b} ha hb => ?_)
        have hvars : ∀ child ∈ children, ∀ column,
            (column ∈ (walkDegree undefinedCast child).vars ↔ child.Bears column) :=
          fun child hchild => mem_vars_walkDegree undefinedCast
            fun part hpart => hrefused part (.term hchild hpart)
        simp only [hdegree a ha, hdegree b hb, hvars a ha, hvars b hb]
      rw [walkDegree_times] at hsum ⊢
      rw [seenSquare_times, ← hany children fun child hchild => hchild, ← hshare, ← hsum]
      change (_ || ((walkMultiplication _).degree == 2 && _)) = true ↔ _
      rw [Bool.or_eq_true, Bool.and_eq_true, beq_iff_eq, List.any_eq_true]
    | quotient a b =>
      rw [seenSquare_iff (by simp) (by simp), walkDegree_quotient,
        if_neg (show ¬ b.containsDecision = true from hself), hterm a (List.mem_singleton_self a)]
      simp [terms]
    | power a b =>
      have ha := hterm a (List.mem_singleton_self a)
      have hdeg := hdegree a (List.mem_singleton_self a)
      have hpower : ∀ exponent, (walkPower undefinedCast (walkDegree undefinedCast a) exponent).isQuadraticForm = true ↔
          1 ≤ a.unboundedDegree ∧ (exponent = .finite 2 ∨ a.SeenSquare) := by
        intro exponent
        change (decide (1 ≤ (walkDegree undefinedCast a).degree) &&
          (exponent == .finite 2 || (walkDegree undefinedCast a).isQuadraticForm)) = true ↔ _
        rw [Bool.and_eq_true, Bool.or_eq_true, decide_eq_true_iff, beq_iff_eq, hdeg, ha]
      have hzero : b.naturalExponent = none → a.unboundedDegree = 0 := by
        intro hnat
        refine unboundedDegree_of_data ?_
        by_contra hc
        rw [Bool.not_eq_false] at hc
        exact hself ⟨hnat, by rw [anyContainsDecision_pair, hc, Bool.true_or]⟩
      rw [seenSquare_power]
      rcases exponent_cases b with ⟨n, hexp, -⟩ | ⟨hexp, hnat⟩ | ⟨hnat, hwalk⟩
      · rw [walkDegree_power_natural undefinedCast a hexp, hpower, hexp, Option.some_inj]
      · rw [walkDegree_power_infinite undefinedCast a hexp, hpower, hexp, Option.some_inj]
      · rw [hwalk undefinedCast a, hzero hnat]
        exact iff_of_false Bool.false_ne_true (fun h => absurd h.1 (by omega))
    | unread expr hunread =>
      rw [hunread.walkDegree_eq]
      exact iff_of_false Bool.false_ne_true hunread.not_seenSquare

end BoundExpr

/-! ## The gate -/

open BoundExpr

theorem GateSound.counts {undefinedCast : DoubleValue → Nat} {expr : BoundExpr}
    (h : GateSound undefinedCast expr) (part : BoundExpr) (hpart : part.Part expr) : part.Counts where
  degree_lt := (h.refused part hpart).2
  conjunction := by
    rintro children rfl
    exact Bool.not_eq_true _ ▸ (h.refused _ hpart).1
  infinite := by
    rintro base exponent rfl hinfinite
    by_contra hc
    refine (h.refused _ hpart).1 ⟨?_, Bool.not_eq_false _ ▸ hc⟩
    rw [naturalExponent, hinfinite]

/-- **The degree gate is sound exactly where it counts.** For every expression it accepts: the expression is a
polynomial of the reported degree, holds no shape that is to be refused and is told apart if it is bilinear,
if and only if no degree of a part leaves the range of `idx_t`, no exponent of zero stands over a refused
shape, no truth value and no infinite exponent holds a decision, and no square is hidden. -/
theorem gateSound_iff (undefinedCast : DoubleValue → Nat) (expr : BoundExpr)
    (haccepted : (decideExpressionDegree undefinedCast expr).isSupported = true) :
    GateSound undefinedCast expr ↔ expr.Counted := by
  have hle : (walkDegree undefinedCast expr).degree ≤ 2 := of_decide_eq_true haccepted
  constructor
  · intro h
    have hdegree := degree_walkDegree undefinedCast h.counts
    refine { counts := h.counts, zero_power := ?_, seen := ?_ }
    · intro base exponent hpower _ part hpart
      have hbase : base.Part (.function .power [base, exponent]) :=
        .term (List.mem_singleton_self base) .self
      exact (h.refused part ((hpart.trans hbase).trans hpower)).1
    · rintro htwo ⟨part, hpart, hsquare⟩
      rw [← isQuadraticForm_walkDegree undefinedCast h.counts fun p hp => (h.refused p hp).1]
      by_contra hflag
      have hnone := h.quadratic (hdegree.trans htwo) (Bool.not_eq_true _ ▸ hflag) part hpart
      exact hsquare.elim hnone.1 hnone.2
  · intro h
    have hdegree := degree_walkDegree undefinedCast h.counts
    have hrefused : ∀ part : BoundExpr, part.Part expr → ¬ part.RefusedShape := by
      intro part hpart hshape
      have hthree := three_le_of_part hpart hshape h.zero_power
      omega
    refine { polynomial := ?_, refused := ?_, quadratic := ?_ }
    · intro row
      change PolynomialValue (fun x => expr.value row x) (walkDegree undefinedCast expr).degree
      rw [hdegree]
      exact polynomialValue hrefused
    · exact fun part hpart => ⟨hrefused part hpart, (h.counts part hpart).degree_lt⟩
    · intro htwo hflag part hpart
      have hnot : ¬ expr.SeenSquare := by
        rw [← isQuadraticForm_walkDegree undefinedCast h.counts hrefused]
        rw [show (walkDegree undefinedCast expr).isQuadraticForm = false from hflag]
        exact Bool.false_ne_true
      have hseen := fun hsquare => h.seen (hdegree.symm.trans htwo) ⟨part, hpart, hsquare⟩
      exact ⟨fun hshares => hnot (hseen (.inl hshares)), fun hsquares => hnot (hseen (.inr hsquares))⟩

/-- A bilinear term over a scaled decision: `x * (y / 2)`. -/
def bilinearHalf : BoundExpr :=
  .function .times [.decision 0, .function .divide [.decision 1, .constant (some (.finite 2))]]

theorem gateSound_iff_bilinearHalf : GateSound (fun _ => 0) bilinearHalf ↔ bilinearHalf.Counted :=
  gateSound_iff _ _ (by decide)

/-- `POWER(… POWER(x, 2) …, 2)`, nested. -/
def nestedSquares : Nat → BoundExpr
  | 0 => .decision 0
  | n + 1 => .function .power [nestedSquares n, .cast (.constant (some (.finite 2)))]

theorem value_nestedSquares (row : DataRow) (x : Nat → ℚ) (n : Nat) :
    (nestedSquares n).value row x = some (x 0 ^ 2 ^ n) := by
  induction n with
  | zero =>
    rw [pow_zero, pow_one]
    rfl
  | succ n ih =>
    change ((nestedSquares n).value row x).bind (fun base =>
      (some (2 : ℚ)).bind fun exponent => row.power base exponent) = _
    rw [ih, Option.bind_some, Option.bind_some, DataRow.power, if_pos (by decide), pow_succ, pow_mul]
    rfl

theorem degree_nestedSquares (undefinedCast : DoubleValue → Nat) (n : Nat) :
    (walkDegree undefinedCast (nestedSquares n)).degree = 2 ^ n % idxRange := by
  induction n with
  | zero => rfl
  | succ n ih =>
    have hexp : (BoundExpr.cast (.constant (some (.finite 2)))).constantExponent =
        some (.finite ((2 : Nat) : ℚ)) := rfl
    rw [nestedSquares, walkDegree_power_natural undefinedCast _ hexp]
    change (walkDegree undefinedCast (nestedSquares n)).degree * exponentIndex undefinedCast _ % idxRange = _
    rw [exponentIndex_natural (by decide), ih, Nat.mod_mul_mod, pow_succ]

/-- Sixty-five squares, one in the other, have degree zero for the gate. -/
theorem gateSound_fails : ¬ ∀ (undefinedCast : DoubleValue → Nat) (expr : BoundExpr),
    (decideExpressionDegree undefinedCast expr).isSupported = true → GateSound undefinedCast expr := by
  intro h
  have hdegree := degree_nestedSquares (fun _ => 0) 65
  have haccepted : (decideExpressionDegree (fun _ => 0) (nestedSquares 65)).isSupported = true := by
    refine decide_eq_true ?_
    change (walkDegree (fun _ => 0) (nestedSquares 65)).degree ≤ 2
    rw [hdegree]
    decide
  obtain ⟨p, hp, hvalue⟩ := (h _ _ haccepted).polynomial ⟨fun _ => none, fun _ _ => none⟩
  have hp' : p.totalDegree ≤ 2 ^ 65 % idxRange := hdegree ▸ hp
  have hconst := MvPolynomial.totalDegree_eq_zero_iff_eq_C.mp (Nat.le_zero.mp hp')
  -- A polynomial of degree zero has one value, the nested squares have two.
  have hzero := hvalue (fun _ => 0) _ (value_nestedSquares _ _ 65)
  have hone := hvalue (fun _ => 1) _ (value_nestedSquares _ _ 65)
  rw [hconst, MvPolynomial.eval_C] at hzero hone
  rw [← hzero, zero_pow (by positivity), one_pow] at hone
  exact absurd hone one_ne_zero

end Decidb
