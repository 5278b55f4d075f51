import Mathlib.Data.Set.Basic
import Mathlib.Order.Basic

/-!
# Minimizing one measure after another

Among some alternatives the ones least by a first measure are kept, among those the ones least by a
second, and so on. Once one of the alternatives kept is known, the others are those that pay no more than
it by any measure, which is how a solver with one objective at a time is made to minimize several.
-/

namespace Linear

variable {α K : Type*}

/-- The alternatives least by each measure in turn. -/
def LexLeast [LE K] : List (α → K) → Set α → Set α
  | [], S => S
  | f :: fs, S => LexLeast fs {x ∈ S | ∀ y ∈ S, f x ≤ f y}

section

variable [LE K]

@[simp] theorem lexLeast_nil (S : Set α) : LexLeast ([] : List (α → K)) S = S := rfl

theorem lexLeast_subset (fs : List (α → K)) (S : Set α) : LexLeast fs S ⊆ S := by
  induction fs generalizing S with
  | nil => exact subset_rfl
  | cons f fs ih => exact (ih _).trans fun x hx => hx.1

theorem lexLeast_append (fs gs : List (α → K)) (S : Set α) :
    LexLeast (fs ++ gs) S = LexLeast gs (LexLeast fs S) := by
  induction fs generalizing S with
  | nil => rfl
  | cons f fs ih => exact ih _

/-- One more measure keeps what is least by it. -/
theorem mem_lexLeast_concat {fs : List (α → K)} {f : α → K} {S : Set α} {x : α} :
    x ∈ LexLeast (fs ++ [f]) S ↔ x ∈ LexLeast fs S ∧ ∀ y ∈ LexLeast fs S, f x ≤ f y := by
  rw [lexLeast_append]
  rfl

end

section

variable [PartialOrder K]

/-- The alternatives kept pay the same by every measure. -/
theorem eq_of_mem_lexLeast {fs : List (α → K)} {S : Set α} {x y : α} (hx : x ∈ LexLeast fs S)
    (hy : y ∈ LexLeast fs S) {f : α → K} (hf : f ∈ fs) : f x = f y := by
  induction fs generalizing S with
  | nil => exact absurd hf List.not_mem_nil
  | cons g fs ih =>
    rcases List.mem_cons.mp hf with rfl | hf
    · obtain ⟨hxS, hxle⟩ := lexLeast_subset fs _ hx
      obtain ⟨hyS, hyle⟩ := lexLeast_subset fs _ hy
      exact le_antisymm (hxle y hyS) (hyle x hxS)
    · exact ih hx hy hf

/-- What is kept is what pays no more than one alternative that is kept. -/
theorem mem_lexLeast_iff_le {fs : List (α → K)} {S : Set α} {x : α} (hx : x ∈ LexLeast fs S) {y : α} :
    y ∈ LexLeast fs S ↔ y ∈ S ∧ ∀ f ∈ fs, f y ≤ f x := by
  constructor
  · intro hy
    exact ⟨lexLeast_subset fs S hy, fun f hf => (eq_of_mem_lexLeast hy hx hf).le⟩
  · rintro ⟨hyS, hle⟩
    induction fs generalizing S with
    | nil => exact hyS
    | cons f fs ih =>
      refine ih hx ⟨hyS, fun z hz => ?_⟩ fun g hg => hle g (List.mem_cons_of_mem _ hg)
      have hleast := (lexLeast_subset fs _ hx).2
      exact (hle f List.mem_cons_self).trans (hleast z hz)

end

/-- The first measure is least among all alternatives, the second among those that tie in the first. -/
theorem mem_lexLeast_pair [LinearOrder K] {f g : α → K} {S : Set α} {x : α} :
    x ∈ LexLeast [f, g] S ↔ x ∈ S ∧ (∀ y ∈ S, f x ≤ f y) ∧ ∀ y ∈ S, f y ≤ f x → g x ≤ g y := by
  constructor
  · rintro ⟨⟨hxS, hf⟩, hg⟩
    exact ⟨hxS, hf, fun y hy hle => hg y ⟨hy, fun z hz => hle.trans (hf z hz)⟩⟩
  · rintro ⟨hxS, hf, hg⟩
    exact ⟨⟨hxS, hf⟩, fun y hy => hg y hy.1 (hy.2 x hxS)⟩

end Linear
