import Decidb.Linear.Form

/-!
# Directions

A linear form moved along a direction changes by a multiple of its value there. A row keeps holding
along every direction that meets the row with its bound read as zero.
-/

namespace Linear

variable {ι K : Type*}

/-- The value of a form along a direction. -/
theorem Form.eval_add_mul [CommSemiring K] (f : Form ι K) (a d : ι → K) (t : K) :
    Form.eval f (fun i => a i + t * d i) = Form.eval f a + t * Form.eval f d := by
  induction f with
  | nil => simp
  | cons e f ih =>
    rw [Form.eval_cons, Form.eval_cons, Form.eval_cons, ih]
    ring

@[simp] theorem Form.eval_zero [Semiring K] (f : Form ι K) : Form.eval f (fun _ => 0) = 0 := by
  induction f with
  | nil => rfl
  | cons e f ih => rw [Form.eval_cons, ih, mul_zero, zero_add]

variable [Field K] [LinearOrder K] [IsStrictOrderedRing K]

/-- Over the unit box a form is at most the sum of its absolute coefficients. -/
theorem Form.eval_le_sum_abs (f : Form ι K) (a : ι → K)
    (h : ∀ e ∈ f, 0 ≤ a e.1 ∧ a e.1 ≤ 1) : Form.eval f a ≤ (f.map fun e => |e.2|).sum := by
  induction f with
  | nil => simp
  | cons e f ih =>
    rw [Form.eval_cons, List.map_cons, List.sum_cons]
    obtain ⟨h0, h1⟩ := h e (by simp)
    have hterm : e.2 * a e.1 ≤ |e.2| :=
      calc e.2 * a e.1 ≤ |e.2| * a e.1 := mul_le_mul_of_nonneg_right (le_abs_self _) h0
        _ ≤ |e.2| * 1 := mul_le_mul_of_nonneg_left h1 (abs_nonneg _)
        _ = |e.2| := mul_one _
    exact add_le_add hterm (ih fun u hu => h u (by simp [hu]))

/-- A row that holds keeps holding along a direction that meets it with its bound read as zero,
whether the bound is finite or not. -/
theorem Sense.holds_add_mul {sense : Sense} {l e t : K} {rhs : WithBot (WithTop K)} (ht : 0 ≤ t)
    (h : sense.Holds (((l : K) : WithTop K) : WithBot (WithTop K)) rhs) (he : sense.Holds e 0) :
    sense.Holds (((l + t * e : K) : WithTop K) : WithBot (WithTop K)) rhs := by
  cases sense with
  | le =>
    have hle : l + t * e ≤ l := by
      have : t * e ≤ 0 := mul_nonpos_of_nonneg_of_nonpos ht he
      linarith
    refine le_trans ?_ h
    exact WithBot.coe_le_coe.mpr (WithTop.coe_le_coe.mpr hle)
  | ge =>
    have hle : l ≤ l + t * e := by
      have : 0 ≤ t * e := mul_nonneg ht he
      linarith
    refine le_trans h ?_
    exact WithBot.coe_le_coe.mpr (WithTop.coe_le_coe.mpr hle)
  | eq =>
    have heq : e = 0 := he
    rw [heq, mul_zero, add_zero]
    exact h

end Linear
