import Mathlib.Data.List.Dedup
import Mathlib.Data.List.Perm.Basic
import Mathlib.Logic.Equiv.Basic
import Mathlib.Order.Nat
import Mathlib.Order.Basic
import Mathlib.Data.Nat.Find

/-!
# The first row of every key

A scan over rows `0, …, n - 1` keeps a row if it is the first one with its key and skips rows without
one. Keeping the first of every key and then selecting counts every selected key once exactly if the
first row of a key is selected as soon as any of its rows is.
-/

namespace Relational

variable {κ : Type} [DecidableEq κ]

/-! ## The scan -/

/-- No earlier row has the key of `r`, and `r` has one. -/
def IsFirst (key : Nat → Option κ) (r : Nat) : Prop :=
  (key r).isSome ∧ ∀ i, i < r → key i ≠ key r

/-- What the scan carries: the keys met and the rows kept. -/
structure FirstScan (κ : Type) where
  seen : List κ := []
  kept : List Nat := []

/-- One row of the scan. -/
def FirstScan.row (key : Nat → Option κ) (scan : FirstScan κ) (r : Nat) : FirstScan κ :=
  match key r with
  | none => scan
  | some k => if k ∈ scan.seen then scan else ⟨k :: scan.seen, r :: scan.kept⟩

/-- The rows the scan keeps. -/
def firstRows (key : Nat → Option κ) (n : Nat) : List Nat :=
  ((List.range n).foldl (FirstScan.row key) {}).kept

/-- The scan has met the keys of the rows behind it, and kept the first row of each. -/
structure FirstScan.Covers (key : Nat → Option κ) (n : Nat) (scan : FirstScan κ) : Prop where
  seen : ∀ k, k ∈ scan.seen ↔ ∃ r, r < n ∧ key r = some k
  kept : ∀ r, r ∈ scan.kept ↔ r < n ∧ IsFirst key r

theorem FirstScan.Covers.row {key : Nat → Option κ} {n : Nat} {scan : FirstScan κ}
    (h : scan.Covers key n) : (scan.row key n).Covers key (n + 1) := by
  have hlt : ∀ (p : Nat → Prop), (∃ r, r < n + 1 ∧ p r) ↔ (∃ r, r < n ∧ p r) ∨ p n := by
    intro p
    constructor
    · rintro ⟨r, hr, hp⟩
      rcases Nat.lt_succ_iff_lt_or_eq.mp hr with h | rfl
      · exact Or.inl ⟨r, h, hp⟩
      · exact Or.inr hp
    · rintro (⟨r, hr, hp⟩ | hp)
      · exact ⟨r, Nat.lt_succ_of_lt hr, hp⟩
      · exact ⟨n, Nat.lt_succ_self n, hp⟩
  have hstay : ¬ IsFirst key n → ∀ r, (r < n + 1 ∧ IsFirst key r ↔ r < n ∧ IsFirst key r) := by
    intro hn r
    refine ⟨fun ⟨hr, hf⟩ => ⟨?_, hf⟩, fun ⟨hr, hf⟩ => ⟨Nat.lt_succ_of_lt hr, hf⟩⟩
    rcases Nat.lt_succ_iff_lt_or_eq.mp hr with h | rfl
    · exact h
    · exact absurd hf hn
  unfold FirstScan.row
  cases hkey : key n with
  | none =>
    refine ⟨fun k => ?_, fun r => ?_⟩
    · rw [hlt, h.seen, hkey]
      simp
    · rw [h.kept, hstay fun hf => by rw [IsFirst, hkey] at hf; cases hf.1]
  | some k =>
    by_cases hmem : k ∈ scan.seen
    · simp only [hmem, if_true]
      obtain ⟨i, hi, hik⟩ := (h.seen k).mp hmem
      refine ⟨fun k' => ?_, fun r => ?_⟩
      · rw [hlt, h.seen, hkey]
        refine ⟨Or.inl, fun hk' => hk'.elim id fun heq => ?_⟩
        obtain rfl := Option.some.inj heq
        exact ⟨i, hi, hik⟩
      · rw [h.kept, hstay fun hf => hf.2 i hi (hik.trans hkey.symm)]
    · simp only [hmem, if_false]
      have hfirst : IsFirst key n :=
        ⟨by rw [hkey]; rfl, fun i hi hik => hmem ((h.seen k).mpr ⟨i, hi, hik.trans hkey⟩)⟩
      refine ⟨fun k' => ?_, fun r => ?_⟩
      · rw [hlt, List.mem_cons, h.seen, hkey, Option.some.injEq, or_comm]
        exact or_congr_right eq_comm
      · rw [List.mem_cons, h.kept]
        constructor
        · rintro (rfl | ⟨hr, hf⟩)
          · exact ⟨Nat.lt_succ_self _, hfirst⟩
          · exact ⟨Nat.lt_succ_of_lt hr, hf⟩
        · rintro ⟨hr, hf⟩
          rcases Nat.lt_succ_iff_lt_or_eq.mp hr with h | rfl
          · exact Or.inr ⟨h, hf⟩
          · exact Or.inl rfl

theorem mem_firstRows {key : Nat → Option κ} {n r : Nat} :
    r ∈ firstRows key n ↔ r < n ∧ IsFirst key r := by
  have hcovers : ((List.range n).foldl (FirstScan.row key) {}).Covers key n := by
    induction n with
    | zero => exact ⟨fun k => by simp, fun r => by simp⟩
    | succ n ih =>
      rw [List.range_succ, List.foldl_append, List.foldl_cons, List.foldl_nil]
      exact ih.row
  exact hcovers.kept r

/-! ## First rows -/

omit [DecidableEq κ] in
theorem IsFirst.unique {key : Nat → Option κ} {r r' : Nat} (h : IsFirst key r)
    (h' : IsFirst key r') (hkey : key r = key r') : r = r' := by
  rcases Nat.lt_trichotomy r r' with hlt | heq | hlt
  · exact absurd hkey (h'.2 r hlt)
  · exact heq
  · exact absurd hkey.symm (h.2 r' hlt)

omit [DecidableEq κ] in
/-- Every key has a first row. -/
theorem exists_isFirst {key : Nat → Option κ} {r : Nat} (h : (key r).isSome) :
    ∃ f, f ≤ r ∧ IsFirst key f ∧ key f = key r := by
  classical
  have hex : ∃ f, key f = key r := ⟨r, rfl⟩
  refine ⟨Nat.find hex, Nat.find_min' hex rfl, ⟨?_, fun i hi heq => ?_⟩, Nat.find_spec hex⟩
  · rw [Nat.find_spec hex]
    exact h
  · exact Nat.find_min hex hi (heq.trans (Nat.find_spec hex))

omit [DecidableEq κ] in
/-- First rows depend on which rows share a key, not on the keys. -/
theorem isFirst_congr {κ' : Type} {key : Nat → Option κ} {key' : Nat → Option κ'} {n r : Nat}
    (hr : r < n) (hsome : ∀ i, i < n → ((key i).isSome ↔ (key' i).isSome))
    (hsame : ∀ i j, i < n → j < n → (key i).isSome → (key j).isSome → (key i = key j ↔ key' i = key' j)) :
    IsFirst key r ↔ IsFirst key' r := by
  unfold IsFirst
  rw [← hsome r hr]
  refine and_congr_right fun hs => forall_congr' fun i => forall_congr' fun hi => not_congr ?_
  have hin := lt_trans hi hr
  by_cases hsi : (key i).isSome
  · exact hsame i r hin hr hsi hs
  · refine iff_of_false (fun h => hsi (h ▸ hs)) fun h => hsi ?_
    rw [hsome i hin, h, ← hsome r hr]
    exact hs

/-! ## Selecting after the scan -/

/-- Where some row of a key is selected, its first row is. -/
def FirstSelected (key : Nat → Option κ) (selected : Nat → Bool) (n : Nat) : Prop :=
  ∀ r, r < n → selected r = true → ∀ f, IsFirst key f → key f = key r → selected f = true

/-- A key has all of its rows selected or none. -/
def AllOrNone (key : Nat → Option κ) (selected : Nat → Bool) (n : Nat) : Prop :=
  ∀ r r', r < n → r' < n → key r = key r' → selected r = true → selected r' = true

omit [DecidableEq κ] in
/-- **Of some rows told apart by their keys, the first rows name every one exactly if they are among
them.** -/
theorem first_perm_dedup_iff {ι : Type} [DecidableEq ι] {key : Nat → Option κ} {rows : List Nat}
    {keep : Nat → Bool} {ident : Nat → ι} (hnodup : rows.Nodup)
    (hkeep : ∀ r ∈ rows, keep r = true ↔ IsFirst key r) (hsome : ∀ r ∈ rows, (key r).isSome)
    (hkey : ∀ r ∈ rows, ∀ s ∈ rows, key r = key s ↔ ident r = ident s) :
    ((rows.filter keep).map ident).Perm (rows.map ident).dedup ↔
      ∀ r ∈ rows, ∀ f, IsFirst key f → key f = key r → f ∈ rows := by
  have hfirst : ∀ {r}, r ∈ rows.filter keep ↔ r ∈ rows ∧ IsFirst key r := by
    intro r
    rw [List.mem_filter]
    exact and_congr_right (hkeep r)
  have hnd : ((rows.filter keep).map ident).Nodup := by
    refine List.Nodup.map_on (fun r hr s hs heq => ?_) (hnodup.filter _)
    obtain ⟨hr, hfr⟩ := hfirst.mp hr
    obtain ⟨hs, hfs⟩ := hfirst.mp hs
    exact hfr.unique hfs ((hkey r hr s hs).mpr heq)
  rw [List.perm_ext_iff_of_nodup hnd (List.nodup_dedup _)]
  simp only [List.mem_map, List.mem_dedup]
  constructor
  · intro h r hr f hf hfr
    obtain ⟨s, hs, hsr⟩ := (h (ident r)).mpr ⟨r, hr, rfl⟩
    obtain ⟨hs, hfs⟩ := hfirst.mp hs
    rwa [hf.unique hfs (hfr.trans ((hkey s hs r hr).mpr hsr).symm)]
  · intro h k
    constructor
    · rintro ⟨r, hr, rfl⟩
      exact ⟨r, (hfirst.mp hr).1, rfl⟩
    · rintro ⟨r, hr, rfl⟩
      obtain ⟨f, -, hf, hfr⟩ := exists_isFirst (hsome r hr)
      have hmem := h r hr f hf hfr
      exact ⟨f, hfirst.mpr ⟨hmem, hf⟩, (hkey f hmem r hr).mp hfr⟩

omit [DecidableEq κ] in
/-- **Whatever order the rows come in, the first rows are selected exactly if every key has all of its
rows selected or none.** -/
theorem firstSelected_perm_iff {key : Nat → Option κ} {selected : Nat → Bool} {n : Nat}
    (hsel : ∀ r, selected r = true → (key r).isSome) :
    (∀ σ : Equiv.Perm Nat, (∀ r, σ r < n ↔ r < n) → FirstSelected (key ∘ σ) (selected ∘ σ) n) ↔
      AllOrNone key selected n := by
  constructor
  · intro h r r' hr hr' hkey hsr
    -- deliver `r'` first
    have hσ : ∀ i, Equiv.swap 0 r' i < n ↔ i < n := by
      intro i
      by_cases h0 : i = 0
      · subst h0
        rw [Equiv.swap_apply_left]
        exact iff_of_true hr' (Nat.zero_lt_of_lt hr')
      · by_cases h1 : i = r'
        · subst h1
          rw [Equiv.swap_apply_right]
          exact iff_of_true (Nat.zero_lt_of_lt hr') hr'
        · rw [Equiv.swap_apply_of_ne_of_ne h0 h1]
    have hback : Equiv.swap 0 r' (Equiv.swap 0 r' r) = r := Equiv.swap_apply_self _ _ _
    have hfirst : IsFirst (key ∘ Equiv.swap 0 r') 0 := by
      refine ⟨?_, fun i hi => absurd hi (Nat.not_lt_zero i)⟩
      rw [Function.comp_apply, Equiv.swap_apply_left, ← hkey]
      exact hsel r hsr
    have hzero := h (Equiv.swap 0 r') hσ (Equiv.swap 0 r' r) ((hσ r).mpr hr)
      (by rw [Function.comp_apply, hback]; exact hsr) 0 hfirst
      (by rw [Function.comp_apply, Function.comp_apply, hback, Equiv.swap_apply_left, hkey])
    rwa [Function.comp_apply, Equiv.swap_apply_left] at hzero
  · intro h σ hσ r hr hsr f hf hfr
    have hfle : f ≤ r := by
      by_contra hlt
      exact hf.2 r (by omega) hfr.symm
    exact h (σ r) (σ f) ((hσ r).mpr hr) ((hσ f).mpr (lt_of_le_of_lt hfle hr)) hfr.symm hsr

end Relational
