import Decidb.Planner.Proofs.DegreeProofs
import Mathlib.Algebra.MvPolynomial.CommRing

/-!
# An expression without a refused shape is a polynomial

Row by row: what holds no decision is a constant of the row, a sum has the larger degree of its terms, a
product the sum and a power the multiple.
-/

namespace Decidb

open MvPolynomial

/-- A value that, where it is defined, is a polynomial of the decisions of at most this degree. -/
def PolynomialValue (f : (Nat → ℚ) → Option ℚ) (degree : Nat) : Prop :=
  ∃ p : MvPolynomial Nat ℚ, p.totalDegree ≤ degree ∧
    ∀ (x : Nat → ℚ) (value : ℚ), f x = some value → value = eval x p

namespace PolynomialValue

variable {f g : (Nat → ℚ) → Option ℚ} {d e : Nat}

theorem mono (h : PolynomialValue f d) (hle : d ≤ e) : PolynomialValue f e := by
  obtain ⟨p, hdeg, hval⟩ := h
  exact ⟨p, hdeg.trans hle, hval⟩

theorem const (value : Option ℚ) (h : ∀ x, f x = value) : PolynomialValue f d := by
  refine ⟨C (value.getD 0), by rw [totalDegree_C]; exact Nat.zero_le d, ?_⟩
  intro x q hq
  rw [h x] at hq
  rw [hq, eval_C]
  rfl

theorem add (hf : PolynomialValue f d) (hg : PolynomialValue g e) :
    PolynomialValue (fun x => Option.map₂ (· + ·) (f x) (g x)) (max d e) := by
  obtain ⟨p, hp, hpval⟩ := hf
  obtain ⟨q, hq, hqval⟩ := hg
  refine ⟨p + q, (totalDegree_add p q).trans (max_le_max hp hq), ?_⟩
  intro x value hvalue
  obtain ⟨a, b, ha, hb, rfl⟩ := Option.map₂_eq_some_iff.mp hvalue
  rw [eval_add, ← hpval x a ha, ← hqval x b hb]

theorem sub (hf : PolynomialValue f d) (hg : PolynomialValue g e) :
    PolynomialValue (fun x => Option.map₂ (· - ·) (f x) (g x)) (max d e) := by
  obtain ⟨p, hp, hpval⟩ := hf
  obtain ⟨q, hq, hqval⟩ := hg
  refine ⟨p - q, (totalDegree_sub p q).trans (max_le_max hp hq), ?_⟩
  intro x value hvalue
  obtain ⟨a, b, ha, hb, rfl⟩ := Option.map₂_eq_some_iff.mp hvalue
  rw [map_sub, ← hpval x a ha, ← hqval x b hb]

theorem neg (hf : PolynomialValue f d) : PolynomialValue (fun x => (f x).map (- ·)) d := by
  obtain ⟨p, hp, hpval⟩ := hf
  refine ⟨-p, by rw [totalDegree_neg]; exact hp, ?_⟩
  intro x value hvalue
  obtain ⟨a, ha, rfl⟩ := Option.map_eq_some_iff.mp hvalue
  rw [map_neg, ← hpval x a ha]

theorem mul (hf : PolynomialValue f d) (hg : PolynomialValue g e) :
    PolynomialValue (fun x => Option.map₂ (· * ·) (f x) (g x)) (d + e) := by
  obtain ⟨p, hp, hpval⟩ := hf
  obtain ⟨q, hq, hqval⟩ := hg
  refine ⟨p * q, (totalDegree_mul p q).trans (add_le_add hp hq), ?_⟩
  intro x value hvalue
  obtain ⟨a, b, ha, hb, rfl⟩ := Option.map₂_eq_some_iff.mp hvalue
  rw [eval_mul, ← hpval x a ha, ← hqval x b hb]

theorem pow (hf : PolynomialValue f d) (n : Nat) :
    PolynomialValue (fun x => (f x).map (· ^ n)) (d * n) := by
  obtain ⟨p, hp, hpval⟩ := hf
  refine ⟨p ^ n, (totalDegree_pow p n).trans ?_, ?_⟩
  · rw [Nat.mul_comm d n]
    exact Nat.mul_le_mul_left n hp
  · intro x value hvalue
    obtain ⟨a, ha, rfl⟩ := Option.map_eq_some_iff.mp hvalue
    rw [eval_pow, ← hpval x a ha]

/-- A quotient by something that holds no decision. -/
theorem quotient (hf : PolynomialValue f d) {divisor : Option ℚ} (hg : ∀ x, g x = divisor) :
    PolynomialValue (fun x => (f x).bind fun a => (g x).bind fun b => Decidb.quotient a b) d := by
  obtain ⟨p, hp, hpval⟩ := hf
  refine ⟨C (divisor.getD 0)⁻¹ * p, ?_, ?_⟩
  · refine (totalDegree_mul _ _).trans ?_
    rw [totalDegree_C, Nat.zero_add]
    exact hp
  · intro x value hvalue
    obtain ⟨a, ha, hvalue⟩ := Option.bind_eq_some_iff.mp hvalue
    obtain ⟨b, hb, hvalue⟩ := Option.bind_eq_some_iff.mp hvalue
    rw [hg x] at hb
    unfold Decidb.quotient at hvalue
    split at hvalue
    · cases hvalue
    · cases hvalue
      rw [eval_mul, eval_C, ← hpval x a ha, hb, Option.getD_some, div_eq_mul_inv, mul_comm]

end PolynomialValue

namespace BoundExpr

variable {row : DataRow}

/-- An expression without a decision is a constant of the row. -/
theorem value_of_data {expr : BoundExpr} (h : expr.containsDecision = false) (x y : Nat → ℚ) :
    expr.value row x = expr.value row y := by
  induction expr using childInduction with
  | node expr ih =>
    have hchild : ∀ child ∈ expr.children, child.value row x = child.value row y := fun child hchild =>
      ih child hchild (containsDecision_false_of_children hchild h)
    have hmap : ∀ children : List BoundExpr, (∀ child ∈ children, child ∈ expr.children) →
        values row x children = values row y children := by
      intro children hsub
      rw [values_eq, values_eq]
      exact List.map_congr_left fun child hmem => hchild child (hsub child hmem)
    cases expr with
    | decision column => cases h
    | data column => rfl
    | constant value =>
      rcases value with _ | _ | _ <;> rfl
    | cast child => exact hchild child (List.mem_singleton_self child)
    | aggregate name children rest =>
      rw [value, value, hmap children fun child hmem => List.mem_append_left rest hmem]
    | conjunction isWrapper children => rw [value, value, hmap children fun child hmem => hmem]
    | function kind children => rw [value, value, hmap children fun child hmem => hmem]
    | other name children => rw [value, value, hmap children fun child hmem => hmem]

theorem polynomialValue_of_data {expr : BoundExpr} (h : expr.containsDecision = false) (degree : Nat) :
    PolynomialValue (fun x => expr.value row x) degree :=
  .const _ fun x => value_of_data h x 0

/-- A constant exponent is its value, through any casts. -/
theorem value_of_constantExponent {exponent : BoundExpr} {value : ℚ}
    (h : exponent.constantExponent = some (.finite value)) (x : Nat → ℚ) :
    exponent.value row x = some value := by
  induction exponent using childInduction with
  | node exponent ih =>
    cases exponent with
    | cast child => exact ih child (List.mem_singleton_self child) h
    | constant v =>
      rw [constantExponent] at h
      rw [h]
      rfl
    | decision column => cases h
    | data column => cases h
    | aggregate name children rest => cases h
    | conjunction isWrapper children => cases h
    | function kind children => cases h
    | other name children => cases h

theorem polynomialValue_sumValues {children : List BoundExpr}
    (h : ∀ child ∈ children, PolynomialValue (fun x => child.value row x) child.unboundedDegree) :
    PolynomialValue (fun x => sumValues (values row x children))
      ((children.map unboundedDegree).foldl max 0) := by
  have hbound : ∀ degree, (∀ child ∈ children, child.unboundedDegree ≤ degree) →
      PolynomialValue (fun x => sumValues (values row x children)) degree := by
    intro degree hle
    induction children with
    | nil => exact .const (some 0) fun x => rfl
    | cons child children ih =>
      have hrest := ih (fun c hc => h c (List.mem_cons_of_mem _ hc)) fun c hc => hle c (List.mem_cons_of_mem _ hc)
      have hadd := (h child List.mem_cons_self).add hrest
      exact hadd.mono (max_le (hle child List.mem_cons_self) (le_refl degree))
  exact hbound _ fun child hchild => le_foldl_max (List.mem_map.mpr ⟨child, hchild, rfl⟩)

theorem polynomialValue_productValues {children : List BoundExpr}
    (h : ∀ child ∈ children, PolynomialValue (fun x => child.value row x) child.unboundedDegree) :
    PolynomialValue (fun x => productValues (values row x children)) (children.map unboundedDegree).sum := by
  induction children with
  | nil => exact .const (some 1) fun x => rfl
  | cons child children ih =>
    have hrest := ih fun c hc => h c (List.mem_cons_of_mem _ hc)
    rw [List.map_cons, List.sum_cons]
    exact (h child List.mem_cons_self).mul hrest

theorem polynomialValue_minusValues {children : List BoundExpr}
    (h : ∀ child ∈ children, PolynomialValue (fun x => child.value row x) child.unboundedDegree) :
    PolynomialValue (fun x => minusValues (values row x children))
      ((children.map unboundedDegree).foldl max 0) := by
  cases children with
  | nil => exact .const (some 0) fun x => rfl
  | cons first rest =>
    have hfirst := h first List.mem_cons_self
    cases rest with
    | nil => exact hfirst.neg.mono (le_foldl_max List.mem_cons_self)
    | cons second rest =>
      have hrest : PolynomialValue (fun x => sumValues (values row x (second :: rest))) _ :=
        polynomialValue_sumValues fun c hc => h c (List.mem_cons_of_mem _ hc)
      refine (hfirst.sub hrest).mono (max_le (le_foldl_max List.mem_cons_self) ?_)
      refine foldl_max_le.mpr ⟨Nat.zero_le _, ?_⟩
      intro d hd
      exact le_foldl_max (List.mem_cons_of_mem _ hd)

/-- A reducer and a wrapper are read as their first child. -/
theorem polynomialValue_headD {children : List BoundExpr} {degree : Nat} {default : Option ℚ}
    (h : ∀ child ∈ children, PolynomialValue (fun x => child.value row x) child.unboundedDegree)
    (hdegree : ∀ child ∈ children.head?, child.unboundedDegree ≤ degree) :
    PolynomialValue (fun x => (values row x children).headD default) degree := by
  cases children with
  | nil => exact .const default fun x => rfl
  | cons child children => exact (h child List.mem_cons_self).mono (hdegree child rfl)

/-- **An expression with no refused shape in it is a polynomial of its degree.** -/
theorem polynomialValue {expr : BoundExpr} (h : ∀ part : BoundExpr, part.Part expr → ¬ part.RefusedShape) :
    PolynomialValue (fun x => expr.value row x) expr.unboundedDegree := by
  induction expr using termInduction with
  | node expr ih =>
    have hself := h expr .self
    have hterm : ∀ child ∈ expr.terms, PolynomialValue (fun x => child.value row x) child.unboundedDegree :=
      fun child hchild => ih child hchild fun part hpart => h part (.term hchild hpart)
    cases expr.shape with
    | decision column =>
      refine ⟨X column, (totalDegree_X column).le, ?_⟩
      intro x value hvalue
      cases hvalue
      rw [eval_X]
    | data column => exact .const (row.column column) fun x => rfl
    | constant value => exact polynomialValue_of_data rfl _
    | cast child => exact hterm child (List.mem_singleton_self child)
    | aggregate name children rest =>
      rw [unboundedDegree_aggregate]
      refine polynomialValue_headD hterm ?_
      intro child hchild
      exact le_foldl_max (List.mem_map.mpr ⟨child, List.mem_of_mem_head? hchild, rfl⟩)
    | wrapper children =>
      cases children with
      | nil => exact .const (row.apply "and" []) fun x => rfl
      | cons child children =>
        rw [unboundedDegree_wrapper]
        exact hterm child (List.mem_singleton_self child)
    | conjunction children => exact polynomialValue_of_data (Bool.not_eq_true _ ▸ hself) _
    | additive kind children hkind =>
      rw [terms_additive hkind] at hterm
      rw [unboundedDegree_additive hkind]
      rcases hkind with rfl | rfl | rfl
      · exact polynomialValue_sumValues hterm
      · exact polynomialValue_minusValues hterm
      · cases children with
        | nil => exact .const (row.apply "abs" []) fun x => rfl
        | cons child children =>
          exact (hterm child List.mem_cons_self).mono (le_foldl_max List.mem_cons_self)
    | times children =>
      rw [unboundedDegree_times]
      exact polynomialValue_productValues hterm
    | quotient a b =>
      have hb : b.containsDecision = false := Bool.not_eq_true _ ▸ hself
      rw [unboundedDegree_quotient, if_neg (show ¬ b.containsDecision = true from hself)]
      exact (hterm a (List.mem_singleton_self a)).quotient fun x => value_of_data hb x 0
    | power a b =>
      rw [unboundedDegree_power, if_neg hself]
      cases hnat : b.naturalExponent with
      | none =>
        have hany : anyContainsDecision [a, b] = false := by
          by_contra hc
          exact hself ⟨hnat, Bool.not_eq_false _ ▸ hc⟩
        exact polynomialValue_of_data (show (function .power [a, b]).containsDecision = false from hany) _
      | some k =>
        rcases exponent_cases b with ⟨n, hexp, hnat'⟩ | ⟨-, hnat'⟩ | ⟨hnat', -⟩
        · rw [hnat] at hnat'
          obtain rfl := Option.some.inj hnat'
          have hpow := (hterm a (List.mem_singleton_self a)).pow k
          have hvalue : (fun x => (function .power [a, b]).value row x) =
              fun x => (a.value row x).map (· ^ k) := by
            funext x
            change ((a.value row x).bind fun base => (b.value row x).bind fun exponent =>
              row.power base exponent) = _
            rw [value_of_constantExponent hexp]
            cases a.value row x with
            | none => rfl
            | some base =>
              rw [Option.bind_some, Option.bind_some, DataRow.power, if_pos (by simp)]
              simp
          rw [hvalue, Option.getD_some]
          exact hpow
        · rw [hnat] at hnat'
          cases hnat'
        · rw [hnat] at hnat'
          cases hnat'
    | unread expr hunread =>
      refine polynomialValue_of_data ?_ _
      rw [hunread.containsDecision_eq]
      by_contra hc
      exact hself (hunread.refusedShape_iff.mpr (Bool.not_eq_false _ ▸ hc))

end BoundExpr

end Decidb
