import Mathlib

/-!
# Sparse linear forms

A linear form is a list of `(column, coefficient)` entries. A column may occur more than once, as it
does in the rows a formulation emits before anything merges them.
-/

namespace Linear

/-! ## Numerals

Named, so that a numeral over an arbitrary field is one term wherever it is written. -/

instance two_atLeastTwo : Nat.AtLeastTwo 2 := ⟨le_rfl⟩

instance four_atLeastTwo : Nat.AtLeastTwo 4 := ⟨by decide⟩

instance ten_atLeastTwo : Nat.AtLeastTwo 10 := ⟨by decide⟩

variable {ι K : Type*}

/-- A sparse linear form over the columns `ι`. -/
abbrev Form (ι K : Type*) := List (ι × K)

namespace Form

section Eval

variable [Semiring K]

/-- The value of a form at an assignment of its columns. -/
def eval (f : Form ι K) (a : ι → K) : K := (f.map fun t => t.2 * a t.1).sum

@[simp] theorem eval_nil (a : ι → K) : eval [] a = 0 := by simp [eval]

@[simp] theorem eval_cons (t : ι × K) (f : Form ι K) (a : ι → K) :
    eval (t :: f) a = t.2 * a t.1 + eval f a := by simp [eval]

@[simp] theorem eval_append (f g : Form ι K) (a : ι → K) :
    eval (f ++ g) a = eval f a + eval g a := by simp [eval]

theorem eval_flatMap {α : Type*} (l : List α) (f : α → Form ι K) (a : ι → K) :
    eval (l.flatMap f) a = (l.map fun x => eval (f x) a).sum := by
  induction l with
  | nil => simp
  | cons x l ih => simp [ih]

/-- The value of a form depends only on the columns it mentions. -/
theorem eval_congr {f : Form ι K} {a b : ι → K} (h : ∀ t ∈ f, a t.1 = b t.1) :
    eval f a = eval f b := by
  induction f with
  | nil => simp
  | cons t f ih =>
    rw [eval_cons, eval_cons, h t (by simp), ih fun u hu => h u (by simp [hu])]

theorem eval_map_unit (cs : List ι) (a : ι → K) :
    eval (cs.map fun c => (c, (1 : K))) a = (cs.map a).sum := by
  induction cs with
  | nil => simp
  | cons c cs ih => simp [ih]

/-- Dropping entries whose coefficient is zero does not change the value. -/
theorem eval_filter_of_zero (p : ι × K → Bool) (f : Form ι K) (a : ι → K)
    (h : ∀ t ∈ f, p t = false → t.2 = 0) : eval (f.filter p) a = eval f a := by
  induction f with
  | nil => simp
  | cons t f ih =>
    have ih' := ih fun u hu => h u (by simp [hu])
    cases hp : p t with
    | true => rw [List.filter_cons_of_pos hp, eval_cons, eval_cons, ih']
    | false =>
      rw [List.filter_cons_of_neg (by simp [hp]), eval_cons, ih', h t (by simp) hp]
      simp

end Eval

section Add

variable [DecidableEq ι] [Semiring K]

/-- Add one entry, merging it into the entry of the same column when there is one. -/
def addColumn : Form ι K → ι → K → Form ι K
  | [], i, c => [(i, c)]
  | t :: f, i, c => if t.1 = i then (t.1, t.2 + c) :: f else t :: addColumn f i c

@[simp] theorem eval_addColumn (f : Form ι K) (i : ι) (c : K) (a : ι → K) :
    eval (addColumn f i c) a = eval f a + c * a i := by
  induction f with
  | nil => simp [addColumn]
  | cons t f ih =>
    by_cases h : t.1 = i
    · simp [addColumn, h, add_mul]; abel
    · simp [addColumn, h, ih, add_assoc]

/-- The columns of `addColumn` are the old ones and the new one. -/
theorem mem_addColumn {f : Form ι K} {i : ι} {c : K} {t : ι × K} (h : t ∈ addColumn f i c) :
    t.1 = i ∨ ∃ u ∈ f, u.1 = t.1 := by
  induction f with
  | nil =>
    simp only [addColumn, List.mem_singleton] at h
    exact Or.inl (by rw [h])
  | cons u f ih =>
    by_cases hu : u.1 = i
    · simp only [addColumn, hu, if_true, List.mem_cons] at h
      rcases h with rfl | h
      · exact Or.inl rfl
      · exact Or.inr ⟨t, List.mem_cons_of_mem _ h, rfl⟩
    · simp only [addColumn, hu, if_false, List.mem_cons] at h
      rcases h with rfl | h
      · exact Or.inr ⟨t, List.mem_cons_self, rfl⟩
      · rcases ih h with h' | ⟨v, hv, hvt⟩
        · exact Or.inl h'
        · exact Or.inr ⟨v, List.mem_cons_of_mem _ hv, hvt⟩

end Add

/-! ### The coefficient of one column -/

section Coefficient

variable [DecidableEq ι] [Semiring K]

/-- What the entries of one column add up to. -/
def coefficient (f : Form ι K) (i : ι) : K := ((f.filter fun t => t.1 = i).map (·.2)).sum

@[simp] theorem coefficient_nil (i : ι) : coefficient ([] : Form ι K) i = 0 := by simp [coefficient]

theorem coefficient_cons (t : ι × K) (f : Form ι K) (i : ι) :
    coefficient (t :: f) i = (if t.1 = i then t.2 else 0) + coefficient f i := by
  by_cases h : t.1 = i <;> simp [coefficient, h]

@[simp] theorem coefficient_append (f g : Form ι K) (i : ι) :
    coefficient (f ++ g) i = coefficient f i + coefficient g i := by simp [coefficient]

theorem coefficient_flatMap {α : Type*} (l : List α) (f : α → Form ι K) (i : ι) :
    coefficient (l.flatMap f) i = (l.map fun x => coefficient (f x) i).sum := by
  induction l with
  | nil => simp
  | cons x l ih => simp [ih]

/-- The entries a loop over rows makes of one term. -/
theorem coefficient_map {α : Type*} (l : List α) (col : α → ι) (coef : α → K) (i : ι) :
    coefficient (l.map fun x => (col x, coef x)) i =
      ((l.filter fun x => col x = i).map coef).sum := by
  induction l with
  | nil => simp
  | cons x l ih =>
    rw [List.map_cons, coefficient_cons, ih]
    by_cases h : col x = i <;> simp [h]

@[simp] theorem coefficient_addColumn (f : Form ι K) (j : ι) (k : K) (i : ι) :
    coefficient (addColumn f j k) i = coefficient f i + if j = i then k else 0 := by
  induction f with
  | nil => simp [addColumn, coefficient_cons]
  | cons t f ih =>
    by_cases hj : t.1 = j
    · subst hj
      by_cases hi : t.1 = i
      · simp only [addColumn, if_true, coefficient_cons, hi]
        abel
      · simp [addColumn, coefficient_cons, hi]
    · simp only [addColumn, hj, if_false, coefficient_cons, ih]
      abel

/-- Dropping entries whose coefficient is zero changes no column. -/
theorem coefficient_filter_of_zero (p : ι × K → Bool) (f : Form ι K) (i : ι)
    (h : ∀ t ∈ f, p t = false → t.2 = 0) : coefficient (f.filter p) i = coefficient f i := by
  induction f with
  | nil => simp
  | cons t f ih =>
    have ih' := ih fun u hu => h u (by simp [hu])
    cases hp : p t with
    | true => rw [List.filter_cons_of_pos hp, coefficient_cons, coefficient_cons, ih']
    | false =>
      rw [List.filter_cons_of_neg (by simp [hp]), coefficient_cons, ih', h t (by simp) hp]
      simp

theorem coefficient_perm {f g : Form ι K} (h : f.Perm g) (i : ι) :
    coefficient f i = coefficient g i :=
  ((h.filter _).map _).sum_eq

end Coefficient

end Form

/-! ## Rows -/

/-- The sense of a row. -/
inductive Sense where
  | le
  | ge
  | eq
  deriving DecidableEq, Repr

/-- What a sense asks of the two sides of a row. -/
def Sense.Holds [LE K] : Sense → K → K → Prop
  | .le, l, r => l ≤ r
  | .ge, l, r => r ≤ l
  | .eq, l, r => l = r

instance [LE K] [DecidableEq K] [DecidableRel (α := K) (· ≤ ·)] (s : Sense) (l r : K) :
    Decidable (s.Holds l r) := by
  cases s <;> unfold Sense.Holds <;> infer_instance

/-- One row `form sense rhs`. -/
structure Row (ι K : Type*) where
  form : Form ι K
  sense : Sense
  rhs : K
  deriving DecidableEq, Repr

/-- A row holds at an assignment. -/
def Row.Holds [Semiring K] [LE K] (r : Row ι K) (a : ι → K) : Prop :=
  r.sense.Holds (r.form.eval a) r.rhs

instance [Semiring K] [LE K] [DecidableEq K] [DecidableRel (α := K) (· ≤ ·)] (r : Row ι K)
    (a : ι → K) : Decidable (r.Holds a) :=
  inferInstanceAs (Decidable (r.sense.Holds _ _))

theorem Row.holds_congr [Semiring K] [LE K] {r : Row ι K} {a b : ι → K}
    (h : ∀ t ∈ r.form, a t.1 = b t.1) : r.Holds a ↔ r.Holds b := by
  unfold Row.Holds
  rw [Form.eval_congr h]

end Linear
