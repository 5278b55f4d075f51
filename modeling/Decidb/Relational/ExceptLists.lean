import Mathlib.Data.List.Basic
import Mathlib.Data.List.Forall2

/-!
# Lists of steps that may fail

A list is mapped by a step that may fail; the first failure is the result.
-/

namespace Relational

variable {ε α β : Type*} {f : α → Except ε β}

/-- Where no step fails, every element is mapped by its own step. -/
theorem forall₂_of_mapM {l : List α} {out : List β} (h : l.mapM f = .ok out) :
    List.Forall₂ (fun x y => f x = .ok y) l out := by
  induction l generalizing out with
  | nil =>
    cases h
    exact List.Forall₂.nil
  | cons x l ih =>
    rw [List.mapM_cons] at h
    cases hx : f x with
    | error e =>
      rw [hx] at h
      cases h
    | ok y =>
      cases hl : l.mapM f with
      | error e =>
        rw [hx, hl] at h
        cases h
      | ok ys =>
        rw [hx, hl] at h
        cases h
        exact List.Forall₂.cons hx (ih hl)

/-- The step of the element at a place. -/
theorem mapM_getElem? {l : List α} {out : List β} (h : l.mapM f = .ok out) {i : Nat} {x : α}
    (hx : l[i]? = some x) : ∃ y, out[i]? = some y ∧ f x = .ok y := by
  have h₂ := forall₂_of_mapM h
  clear h
  induction h₂ generalizing i with
  | nil => cases hx
  | @cons a b l out hab hrest ih =>
    cases i with
    | zero =>
      cases hx
      exact ⟨b, rfl, hab⟩
    | succ i =>
      rw [List.getElem?_cons_succ] at hx ⊢
      exact ih hx

/-- What a list is mapped to, each element has it from one of the list. -/
theorem exists_of_mem_mapM {l : List α} {out : List β} (h : l.mapM f = .ok out) {y : β}
    (hy : y ∈ out) : ∃ x ∈ l, f x = .ok y := by
  have h₂ := forall₂_of_mapM h
  clear h
  induction h₂ with
  | nil => cases hy
  | @cons a b l out hab _ ih =>
    rcases List.mem_cons.mp hy with rfl | hy
    · exact ⟨a, List.mem_cons_self, hab⟩
    · obtain ⟨x, hx, hxy⟩ := ih hy
      exact ⟨x, List.mem_cons_of_mem _ hx, hxy⟩

/-- A property of the elements is one of their images where each step carries it over. -/
theorem forall_mem_iff_of_mapM {P : α → Prop} {Q : β → Prop} {l : List α} {out : List β}
    (h : l.mapM f = .ok out) (hpq : ∀ x y, f x = .ok y → (P x ↔ Q y)) :
    (∀ x ∈ l, P x) ↔ ∀ y ∈ out, Q y := by
  have h₂ := forall₂_of_mapM h
  clear h
  induction h₂ with
  | nil => simp
  | cons hxy _ ih =>
    rw [List.forall_mem_cons, List.forall_mem_cons]
    exact and_congr (hpq _ _ hxy) ih

/-- The same where the steps carry the property over on the elements of the list. -/
theorem forall_mem_iff_of_mapM_mem {P : α → Prop} {Q : β → Prop} {l : List α} {out : List β}
    (h : l.mapM f = .ok out) (hpq : ∀ x ∈ l, ∀ y, f x = .ok y → (P x ↔ Q y)) :
    (∀ x ∈ l, P x) ↔ ∀ y ∈ out, Q y := by
  have h₂ := forall₂_of_mapM h
  clear h
  induction h₂ with
  | nil => simp
  | cons hxy _ ih =>
    rw [List.forall_mem_cons] at hpq ⊢
    rw [List.forall_mem_cons]
    exact and_congr (hpq.1 _ hxy) (ih hpq.2)

/-- What every step of a loop keeps, a loop that does not fail keeps. -/
theorem foldlM_keeps {σ : Type*} {step : σ → α → Except ε σ} {P : σ → Prop} {l : List α}
    (hstep : ∀ x ∈ l, ∀ s t, P s → step s x = .ok t → P t) {s t : σ} (hs : P s)
    (h : l.foldlM step s = .ok t) : P t := by
  induction l generalizing s with
  | nil =>
    obtain rfl : s = t := Except.ok.inj h
    exact hs
  | cons x l ih =>
    rw [List.foldlM_cons] at h
    cases hx : step s x with
    | error e =>
      rw [hx] at h
      cases h
    | ok v =>
      rw [hx] at h
      exact ih (fun y hy => hstep y (List.mem_cons_of_mem _ hy)) (hstep x List.mem_cons_self s v hs hx) h

theorem length_of_mapM {l : List α} {out : List β} (h : l.mapM f = .ok out) : out.length = l.length :=
  (forall₂_of_mapM h).length_eq.symm

/-- A list is mapped where no step fails, and only there. -/
theorem exists_mapM_ok_iff {l : List α} : (∃ out, l.mapM f = .ok out) ↔ ∀ x ∈ l, ∃ y, f x = .ok y := by
  constructor
  · rintro ⟨out, h⟩ x hx
    obtain ⟨i, hi⟩ := List.getElem?_of_mem hx
    obtain ⟨y, -, hy⟩ := mapM_getElem? h hi
    exact ⟨y, hy⟩
  · intro h
    induction l with
    | nil => exact ⟨[], rfl⟩
    | cons x l ih =>
      obtain ⟨y, hy⟩ := h x List.mem_cons_self
      obtain ⟨ys, hys⟩ := ih fun x' hx' => h x' (List.mem_cons_of_mem x hx')
      refine ⟨y :: ys, ?_⟩
      rw [List.mapM_cons, hy, hys]
      rfl

end Relational
