import Mathlib.Data.List.Sort
import Mathlib.Order.Interval.Finset.Nat

/-!
# Visiting combinations

A backtracking search visits the selections of `choose` positions out of a range one by one and may stop
at any of them. What it visits are the strictly increasing selections, each once.
-/

namespace Relational

variable {σ : Type*}

/-- Visit items until one stops the search. -/
def visitWhile {α : Type*} (visit : σ → α → σ × Bool) : List α → σ → σ × Bool
  | [], s => (s, true)
  | x :: xs, s =>
    let r := visit s x
    if r.2 then visitWhile visit xs r.1 else r

theorem visitWhile_append {α : Type*} (visit : σ → α → σ × Bool) (xs ys : List α) (s : σ) :
    visitWhile visit (xs ++ ys) s =
      if (visitWhile visit xs s).2 then visitWhile visit ys (visitWhile visit xs s).1
      else visitWhile visit xs s := by
  induction xs generalizing s with
  | nil => simp [visitWhile]
  | cons x xs ih =>
    simp only [List.cons_append, visitWhile]
    by_cases h : (visit s x).2
    · simp only [h, if_true]
      exact ih _
    · simp [h]

/-- A visitor that also writes down what it is called on. -/
def logging {α : Type*} (visit : σ → α → σ × Bool) (s : σ × List α) (x : α) : (σ × List α) × Bool :=
  (((visit s.1 x).1, s.2 ++ [x]), (visit s.1 x).2)

/-- A search that nothing stops calls its visitor on every item, once and in order. -/
theorem visitWhile_logging {α : Type*} (visit : σ → α → σ × Bool) (xs : List α) (s : σ) (log : List α)
    (h : (visitWhile visit xs s).2 = true) :
    visitWhile (logging visit) xs (s, log) = (((visitWhile visit xs s).1, log ++ xs), true) := by
  induction xs generalizing s log with
  | nil => simp [visitWhile]
  | cons x xs ih =>
    unfold visitWhile at h ⊢
    by_cases hx : (visit s x).2 = true
    · simp only [hx, if_true] at h
      simp only [logging, hx, if_true]
      rw [ih _ _ h, List.append_assoc, List.singleton_append]
    · simp only [hx, if_false, Bool.false_eq_true] at h

/-- Visit the selections that extend `current` by positions from `start` on, of which `remaining` are
left, until `choose` are selected. -/
def enumerateCombinations (visit : σ → List Nat → σ × Bool) (choose : Nat) :
    (remaining start : Nat) → List Nat → σ → σ × Bool
  | 0, _, current, s => if current.length = choose then visit s current else (s, true)
  | remaining + 1, start, current, s =>
    if current.length = choose then visit s current
    else if choose - current.length ≤ remaining + 1 then
      let r := enumerateCombinations visit choose remaining (start + 1) (current ++ [start]) s
      if r.2 then enumerateCombinations visit choose remaining (start + 1) current r.1 else r
    else (s, true)

/-- The selections, in visiting order. -/
def combinations (choose : Nat) : (remaining start : Nat) → List Nat → List (List Nat)
  | 0, _, current => if current.length = choose then [current] else []
  | remaining + 1, start, current =>
    if current.length = choose then [current]
    else if choose - current.length ≤ remaining + 1 then
      combinations choose remaining (start + 1) (current ++ [start]) ++
        combinations choose remaining (start + 1) current
    else []

/-- The search visits the selections in order, until one stops it. -/
theorem enumerateCombinations_eq (visit : σ → List Nat → σ × Bool) (choose remaining start : Nat)
    (current : List Nat) (s : σ) :
    enumerateCombinations visit choose remaining start current s =
      visitWhile visit (combinations choose remaining start current) s := by
  have hone : ∀ x s, visit s x = visitWhile visit [x] s := by
    intro x s
    unfold visitWhile
    by_cases h : (visit s x).2 <;> simp [h, visitWhile, Prod.ext_iff]
  induction remaining generalizing start current s with
  | zero =>
    unfold enumerateCombinations combinations
    by_cases hlen : current.length = choose
    · rw [if_pos hlen, if_pos hlen, hone]
    · rw [if_neg hlen, if_neg hlen]
      rfl
  | succ remaining ih =>
    unfold enumerateCombinations combinations
    by_cases hlen : current.length = choose
    · rw [if_pos hlen, if_pos hlen, hone]
    · rw [if_neg hlen, if_neg hlen]
      by_cases hroom : choose - current.length ≤ remaining + 1
      · rw [if_pos hroom, if_pos hroom, visitWhile_append]
        simp only [ih]
      · rw [if_neg hroom, if_neg hroom]
        rfl

/-- The selections are the extensions of `current` by an increasing list of positions in the range. -/
theorem mem_combinations {choose remaining start : Nat} {current l : List Nat}
    (hlen : current.length ≤ choose) :
    l ∈ combinations choose remaining start current ↔
      ∃ tail, l = current ++ tail ∧ tail.Pairwise (· < ·) ∧ tail.length = choose - current.length ∧
        ∀ i ∈ tail, start ≤ i ∧ i < start + remaining := by
  induction remaining generalizing start current with
  | zero =>
    unfold combinations
    by_cases h : current.length = choose
    · rw [if_pos h, List.mem_singleton]
      constructor
      · rintro rfl
        exact ⟨[], by simp, List.Pairwise.nil, by simp [h], by simp⟩
      · rintro ⟨tail, rfl, -, htail, -⟩
        have : tail = [] := List.eq_nil_of_length_eq_zero (by omega)
        simp [this]
    · rw [if_neg h]
      constructor
      · exact fun hl => absurd hl List.not_mem_nil
      · rintro ⟨tail, -, -, htail, hrange⟩
        obtain ⟨i, hi⟩ := List.exists_mem_of_length_pos (l := tail) (by omega)
        have := hrange i hi
        omega
  | succ remaining ih =>
    unfold combinations
    by_cases h : current.length = choose
    · rw [if_pos h, List.mem_singleton]
      constructor
      · rintro rfl
        exact ⟨[], by simp, List.Pairwise.nil, by simp [h], by simp⟩
      · rintro ⟨tail, rfl, -, htail, -⟩
        have : tail = [] := List.eq_nil_of_length_eq_zero (by omega)
        simp [this]
    · rw [if_neg h]
      have hlt : (current ++ [start]).length ≤ choose := by
        rw [List.length_append, List.length_singleton]
        omega
      by_cases hroom : choose - current.length ≤ remaining + 1
      · rw [if_pos hroom, List.mem_append, ih hlt, ih hlen]
        constructor
        · rintro (⟨tail, rfl, hsorted, htail, hrange⟩ | ⟨tail, rfl, hsorted, htail, hrange⟩)
          · refine ⟨start :: tail, by simp, ?_, ?_, ?_⟩
            · refine List.Pairwise.cons (fun i hi => ?_) hsorted
              have := hrange i hi
              omega
            · rw [List.length_append, List.length_singleton] at htail
              rw [List.length_cons, htail]
              omega
            · intro i hi
              rcases List.mem_cons.mp hi with rfl | hi
              · omega
              · have := hrange i hi
                omega
          · refine ⟨tail, rfl, hsorted, htail, fun i hi => ?_⟩
            have := hrange i hi
            omega
        · rintro ⟨tail, rfl, hsorted, htail, hrange⟩
          -- the first selected position is `start` or comes after it
          cases tail with
          | nil =>
            rw [List.length_nil] at htail
            omega
          | cons i tail =>
            obtain ⟨hfirst, hsorted'⟩ := List.pairwise_cons.mp hsorted
            by_cases hi : i = start
            · subst hi
              left
              refine ⟨tail, by simp, hsorted', ?_, fun j hj => ?_⟩
              · rw [List.length_append, List.length_singleton]
                rw [List.length_cons] at htail
                omega
              · have h1 := hfirst j hj
                have h2 := hrange j (List.mem_cons_of_mem _ hj)
                omega
            · right
              refine ⟨i :: tail, rfl, hsorted, htail, fun j hj => ?_⟩
              have h1 := hrange i List.mem_cons_self
              have h2 := hrange j hj
              rcases List.mem_cons.mp hj with rfl | hj'
              · omega
              · have h3 := hfirst j hj'
                omega
      · rw [if_neg hroom]
        constructor
        · exact fun hl => absurd hl List.not_mem_nil
        · -- more positions are wanted than are left
          rintro ⟨tail, -, hsorted, htail, hrange⟩
          have hsub : tail ⊆ (List.range' start (remaining + 1)) := fun i hi =>
            List.mem_range'_1.mpr (hrange i hi)
          have hle := (List.Pairwise.nodup hsorted).subperm hsub
          have := hle.length_le
          rw [List.length_range'] at this
          omega

/-- No selection is visited twice. -/
theorem nodup_combinations (choose remaining start : Nat) (current : List Nat)
    (hlen : current.length ≤ choose) : (combinations choose remaining start current).Nodup := by
  induction remaining generalizing start current with
  | zero =>
    unfold combinations
    split <;> simp
  | succ remaining ih =>
    unfold combinations
    split
    · simp
    · rename_i h
      have hlt : (current ++ [start]).length ≤ choose := by
        rw [List.length_append, List.length_singleton]
        omega
      split
      · refine List.Nodup.append (ih _ _ hlt) (ih _ _ hlen) fun l hl hl' => ?_
        -- one half selects `start`, the other only what comes after
        obtain ⟨tail, rfl, -, -, -⟩ := (mem_combinations hlt).mp hl
        obtain ⟨tail', heq, -, -, hrange⟩ := (mem_combinations hlen).mp hl'
        rw [List.append_assoc, List.append_cancel_left_eq] at heq
        have := hrange start (heq ▸ by simp)
        omega
      · simp

/-- The selections out of a whole range. -/
theorem mem_combinations_range {choose n : Nat} {l : List Nat} :
    l ∈ combinations choose n 0 [] ↔
      l.Pairwise (· < ·) ∧ l.length = choose ∧ ∀ i ∈ l, i < n := by
  rw [mem_combinations (Nat.zero_le _)]
  constructor
  · rintro ⟨tail, rfl, hsorted, htail, hrange⟩
    refine ⟨hsorted, by simpa using htail, fun i hi => ?_⟩
    have := hrange i hi
    omega
  · rintro ⟨hsorted, hl, hrange⟩
    exact ⟨l, rfl, hsorted, by simpa using hl, fun i hi => ⟨Nat.zero_le _, by simpa using hrange i hi⟩⟩

end Relational
