import Mathlib

/-!
# Counting sort

Entries `0, …, n - 1` are put into the slots of their keys: one pass counts, prefix sums give the place every
slot starts at, and a second pass writes each entry at the cursor of its slot. Entries without a key are left
out, and those of one key keep their order.
-/

namespace Relational

variable {α : Type*}

/-! ## The passes -/

/-- Count one entry into the place behind its key. -/
def countEntry (key : Nat → Option Nat) (starts : List Nat) (i : Nat) : List Nat :=
  match key i with
  | none => starts
  | some g => starts.modify (g + 1) (· + 1)

/-- Add the start of a slot to the place behind it. -/
def addStart (starts : List Nat) (g : Nat) : List Nat := starts.modify (g + 1) (· + starts.getD g 0)

/-- The cursors of the slots and what is written so far. -/
structure Scatter (α : Type*) where
  cursor : List Nat
  flat : List α

/-- Write an entry at the cursor of its slot. -/
def Scatter.entry (key : Nat → Option Nat) (val : Nat → α) (state : Scatter α) (i : Nat) : Scatter α :=
  match key i with
  | none => state
  | some g =>
    { cursor := state.cursor.modify g (· + 1)
      flat := state.flat.set (state.cursor.getD g 0) (val i) }

/-- The starts of `K` slots and one behind the last, and the entries slot by slot. -/
def countingSort (key : Nat → Option Nat) (n K : Nat) (val : Nat → α) (fill : α) : List Nat × List α :=
  let entries := List.range n
  let counts := entries.foldl (countEntry key) (List.replicate (K + 1) 0)
  let starts := (List.range K).foldl addStart counts
  (starts, (entries.foldl (Scatter.entry key val) ⟨starts, List.replicate (starts.getD K 0) fill⟩).flat)

/-- What stands between two places of a list. -/
def slice (starts : List Nat) (flat : List α) (g : Nat) : List α :=
  (flat.drop (starts.getD g 0)).take (starts.getD (g + 1) 0 - starts.getD g 0)

/-! ## Arrays in closed form -/

theorem modify_map_range (n i : Nat) (f : Nat → α) (h : α → α) :
    ((List.range n).map f).modify i h = (List.range n).map (Function.update f i (h (f i))) := by
  apply List.ext_getElem?
  intro j
  rw [List.getElem?_modify, List.getElem?_map, List.getElem?_map]
  by_cases hj : j < n
  · rw [List.getElem?_range hj]
    by_cases hij : i = j
    · subst hij
      simp
    · simp [hij, Function.update_of_ne (Ne.symm hij)]
  · rw [List.getElem?_eq_none (by rw [List.length_range]; omega)]
    rfl

theorem getD_map_range {n i : Nat} (f : Nat → α) (d : α) (hi : i < n) :
    ((List.range n).map f).getD i d = f i := by
  rw [List.getD_eq_getElem?_getD, List.getElem?_map, List.getElem?_range hi]
  rfl

/-! ## Counts and starts -/

variable (key : Nat → Option Nat)

/-- The entries of a key among the first ones, in order. -/
def entriesOf (m g : Nat) : List Nat := (List.range m).filter fun i => key i = some g

/-- How many of the first entries stand before those of a key. -/
def slotStart (n g : Nat) : Nat := ((List.range g).map fun h => (entriesOf key n h).length).sum

theorem entriesOf_succ (m g : Nat) :
    entriesOf key (m + 1) g = entriesOf key m g ++ if key m = some g then [m] else [] := by
  unfold entriesOf
  rw [List.range_succ, List.filter_append]
  congr 1
  by_cases h : key m = some g
  · rw [if_pos h]
    simp [h]
  · rw [if_neg h]
    simp [h]

theorem slotStart_succ (n g : Nat) : slotStart key n (g + 1) = slotStart key n g + (entriesOf key n g).length := by
  unfold slotStart
  rw [List.range_succ, List.map_append, List.sum_append, List.map_singleton, List.sum_singleton]

theorem slotStart_mono (n : Nat) {g h : Nat} (hle : g ≤ h) : slotStart key n g ≤ slotStart key n h := by
  induction hle with
  | refl => exact le_refl _
  | step _ ih =>
    rw [slotStart_succ]
    omega

/-- The place behind every key holds the count of its entries among the first ones. -/
theorem foldl_countEntry (K m : Nat) :
    (List.range m).foldl (countEntry key) (List.replicate (K + 1) 0) =
      (List.range (K + 1)).map fun j => if j = 0 then 0 else (entriesOf key m (j - 1)).length := by
  induction m with
  | zero =>
    rw [List.range_zero, List.foldl_nil]
    symm
    rw [List.eq_replicate_iff]
    refine ⟨by rw [List.length_map, List.length_range], ?_⟩
    intro b hb
    obtain ⟨j, -, rfl⟩ := List.mem_map.mp hb
    simp [entriesOf]
  | succ m ih =>
    rw [List.range_succ, List.foldl_append, ih, List.foldl_cons, List.foldl_nil]
    unfold countEntry
    cases hkey : key m with
    | none =>
      dsimp only
      refine List.map_congr_left fun j _ => ?_
      rw [entriesOf_succ, hkey, if_neg (show ¬ none = some (j - 1) by simp), List.append_nil]
    | some g' =>
      dsimp only
      rw [modify_map_range]
      refine List.map_congr_left fun j _ => ?_
      rw [entriesOf_succ, hkey]
      by_cases hj : j = g' + 1
      · subst hj
        rw [Function.update_self, if_neg (by omega), if_neg (by omega), Nat.add_sub_cancel,
          if_pos rfl, List.length_append, List.length_singleton]
      · rw [Function.update_of_ne hj]
        by_cases h0 : j = 0
        · rw [if_pos h0, if_pos h0]
        · have hne : ¬ some g' = some (j - 1) := by
            intro h
            have := Option.some.inj h
            omega
          rw [if_neg h0, if_neg h0, if_neg hne, List.append_nil]

/-- The prefix sums up to a key. -/
theorem foldl_addStart (n : Nat) {K : Nat} (k : Nat) (hk : k ≤ K) :
    (List.range k).foldl addStart ((List.range (K + 1)).map fun j =>
        if j = 0 then 0 else (entriesOf key n (j - 1)).length) =
      (List.range (K + 1)).map fun j =>
        if j ≤ k then slotStart key n j else (entriesOf key n (j - 1)).length := by
  induction k with
  | zero =>
    refine List.map_congr_left fun j _ => ?_
    by_cases h0 : j = 0
    · subst h0
      rfl
    · rw [if_neg h0, if_neg (by omega)]
  | succ k ih =>
    rw [List.range_succ (n := k), List.foldl_append, ih (by omega), List.foldl_cons, List.foldl_nil, addStart,
      getD_map_range _ _ (by omega), if_pos (le_refl k), modify_map_range]
    refine List.map_congr_left fun j _ => ?_
    by_cases hj : j = k + 1
    · subst hj
      rw [Function.update_self, if_neg (by omega), if_pos (le_refl _), slotStart_succ,
        Nat.add_sub_cancel, Nat.add_comm]
    · rw [Function.update_of_ne hj]
      by_cases hle : j ≤ k
      · rw [if_pos hle, if_pos (by omega)]
      · rw [if_neg hle, if_neg (by omega)]

/-! ## The scatter -/

/-- The scatter after the first entries: the cursors, and the slots filled as far as they stand. -/
structure Scatter.Filled (val : Nat → α) (n K m : Nat) (state : Scatter α) : Prop where
  cursor_eq : state.cursor =
    (List.range (K + 1)).map fun g => slotStart key n g + (entriesOf key m g).length
  length_eq : state.flat.length = slotStart key n K
  filled : ∀ g, g < K → ∀ i, i < (entriesOf key m g).length →
    state.flat[slotStart key n g + i]? = ((entriesOf key m g).map val)[i]?

variable {key} {val : Nat → α} {n K : Nat}

theorem length_entriesOf_le {m : Nat} (hm : m ≤ n) (g : Nat) :
    (entriesOf key m g).length ≤ (entriesOf key n g).length := by
  apply List.Sublist.length_le
  exact (List.range_sublist.mpr hm).filter _

theorem length_entriesOf_lt {m g : Nat} (hm : m < n) (hkey : key m = some g) :
    (entriesOf key m g).length < (entriesOf key n g).length := by
  have hle : (entriesOf key (m + 1) g).length ≤ (entriesOf key n g).length := length_entriesOf_le hm g
  rw [entriesOf_succ, if_pos hkey, List.length_append, List.length_singleton] at hle
  omega

theorem Scatter.Filled.entry {m : Nat} {state : Scatter α} (h : state.Filled key val n K m) (hm : m < n)
    (hlt : ∀ i g, i < n → key i = some g → g < K) :
    (Scatter.entry key val state m).Filled key val n K (m + 1) := by
  unfold Scatter.entry
  cases hkey : key m with
  | none =>
    have hsame : ∀ g, entriesOf key (m + 1) g = entriesOf key m g := by
      intro g
      rw [entriesOf_succ, hkey, if_neg (by simp), List.append_nil]
    exact
      { cursor_eq := by simpa only [hsame] using h.cursor_eq
        length_eq := h.length_eq
        filled := by simpa only [hsame] using h.filled }
  | some g' =>
    have hK := hlt m g' hm hkey
    have hfree : (entriesOf key m g').length < (entriesOf key n g').length := length_entriesOf_lt hm hkey
    have hcursor : state.cursor.getD g' 0 = slotStart key n g' + (entriesOf key m g').length := by
      rw [h.cursor_eq, getD_map_range _ _ (by omega)]
    have hown : entriesOf key (m + 1) g' = entriesOf key m g' ++ [m] := by
      rw [entriesOf_succ, if_pos hkey]
    have hother : ∀ g, g ≠ g' → entriesOf key (m + 1) g = entriesOf key m g := by
      intro g hne
      rw [entriesOf_succ, hkey, if_neg (by simpa using Ne.symm hne), List.append_nil]
    have hnext : slotStart key n (g' + 1) ≤ slotStart key n K := slotStart_mono key n hK
    rw [slotStart_succ] at hnext
    refine { cursor_eq := ?_, length_eq := ?_, filled := ?_ }
    · dsimp only
      rw [h.cursor_eq, modify_map_range]
      refine List.map_congr_left fun g _ => ?_
      by_cases hg : g = g'
      · subst hg
        rw [Function.update_self, hown, List.length_append, List.length_singleton]
        omega
      · rw [Function.update_of_ne hg, hother g hg]
    · dsimp only
      rw [List.length_set, h.length_eq]
    · intro g hg i hi
      dsimp only
      rw [hcursor]
      by_cases hgg : g = g'
      · subst hgg
        rw [hown, List.length_append, List.length_singleton] at hi
        rw [hown, List.map_append]
        by_cases hlast : i = (entriesOf key m g).length
        · subst hlast
          rw [List.getElem?_set_self (by rw [h.length_eq]; omega),
            List.getElem?_append_right (by rw [List.length_map])]
          simp
        · rw [List.getElem?_set_ne (by omega),
            List.getElem?_append_left (by rw [List.length_map]; omega)]
          exact h.filled g hg i (by omega)
      · rw [hother g hgg] at hi ⊢
        have hle : (entriesOf key m g).length ≤ (entriesOf key n g).length := length_entriesOf_le hm.le g
        -- The slots of two keys do not meet.
        have hne : slotStart key n g' + (entriesOf key m g').length ≠ slotStart key n g + i := by
          rcases Nat.lt_or_gt_of_ne hgg with hlt' | hgt
          · have := slotStart_mono key n (show g + 1 ≤ g' from hlt')
            rw [slotStart_succ] at this
            omega
          · have := slotStart_mono key n (show g' + 1 ≤ g from hgt)
            rw [slotStart_succ] at this
            omega
        rw [List.getElem?_set_ne hne]
        exact h.filled g hg i hi

theorem Scatter.filled_foldl {state : Scatter α} (h : state.Filled key val n K 0)
    (hlt : ∀ i g, i < n → key i = some g → g < K) (m : Nat) (hm : m ≤ n) :
    ((List.range m).foldl (Scatter.entry key val) state).Filled key val n K m := by
  induction m with
  | zero => exact h
  | succ m ih =>
    rw [List.range_succ, List.foldl_append]
    exact (ih (by omega)).entry (by omega) hlt

/-! ## The slots -/

/-- What is filled slot by slot is the concatenation of the slots. -/
theorem take_slotStart {flat : List α}
    (hslot : ∀ g, g < K → (flat.drop (slotStart key n g)).take (entriesOf key n g).length =
      (entriesOf key n g).map val) (k : Nat) (hk : k ≤ K) :
    flat.take (slotStart key n k) = (List.range k).flatMap fun g => (entriesOf key n g).map val := by
  induction k with
  | zero => rfl
  | succ k ih =>
    rw [slotStart_succ, List.take_add, ih (by omega), hslot k (by omega), List.range_succ,
      List.flatMap_append, List.flatMap_singleton]

/-- The starts are those of the slots. -/
theorem countingSort_starts (key : Nat → Option Nat) (n K : Nat) (val : Nat → α) (fill : α) :
    (countingSort key n K val fill).1 = (List.range (K + 1)).map (slotStart key n) := by
  change (List.range K).foldl addStart ((List.range n).foldl (countEntry key) _) = _
  rw [foldl_countEntry, foldl_addStart key n K (le_refl K)]
  refine List.map_congr_left fun j hj => ?_
  rw [if_pos (by have := List.mem_range.mp hj; omega)]

theorem countingSort_filled (val : Nat → α) (hlt : ∀ i g, i < n → key i = some g → g < K) (fill : α) :
    Scatter.Filled key val n K n ⟨((List.range n).foldl (Scatter.entry key val)
      ⟨(countingSort key n K val fill).1, List.replicate ((countingSort key n K val fill).1.getD K 0) fill⟩).cursor,
      (countingSort key n K val fill).2⟩ := by
  refine Scatter.filled_foldl ?_ hlt n (le_refl n)
  rw [countingSort_starts, getD_map_range _ _ (by omega)]
  exact
    { cursor_eq := List.map_congr_left fun g _ => rfl
      length_eq := List.length_replicate
      filled := fun g _ i hi => by simp [entriesOf] at hi }

/-- **Every slot holds the entries of its key, in order.** -/
theorem slice_countingSort (val : Nat → α) (hlt : ∀ i g, i < n → key i = some g → g < K) (fill : α) {g : Nat} (hg : g < K) :
    slice (countingSort key n K val fill).1 (countingSort key n K val fill).2 g =
      (entriesOf key n g).map val := by
  have hfilled := countingSort_filled val hlt fill
  unfold slice
  rw [countingSort_starts, getD_map_range _ _ (by omega), getD_map_range _ _ (by omega), slotStart_succ,
    Nat.add_sub_cancel_left]
  apply List.ext_getElem?
  intro i
  rw [List.getElem?_take]
  by_cases hi : i < (entriesOf key n g).length
  · rw [if_pos hi, List.getElem?_drop]
    exact hfilled.filled g hg i hi
  · rw [if_neg hi, List.getElem?_eq_none (by rw [List.length_map]; omega)]

/-- The slots one after the other. -/
theorem countingSort_flat (hlt : ∀ i g, i < n → key i = some g → g < K) (fill : α) :
    (countingSort key n K val fill).2 = (List.range K).flatMap fun g => (entriesOf key n g).map val := by
  have hfilled := countingSort_filled val hlt fill
  have hslot : ∀ g, g < K → ((countingSort key n K val fill).2.drop (slotStart key n g)).take
      (entriesOf key n g).length = (entriesOf key n g).map val := by
    intro g hg
    have h := slice_countingSort val hlt fill hg
    unfold slice at h
    rw [countingSort_starts, getD_map_range _ _ (by omega), getD_map_range _ _ (by omega), slotStart_succ,
      Nat.add_sub_cancel_left] at h
    exact h
  rw [← take_slotStart hslot K (le_refl K), List.take_of_length_le hfilled.length_eq.le]

/-- No entry is in two slots. -/
theorem nodup_flatMap_entriesOf (key : Nat → Option Nat) (n K : Nat) :
    ((List.range K).flatMap (entriesOf key n)).Nodup := by
  rw [List.nodup_flatMap]
  refine ⟨fun g _ => List.nodup_range.filter _, ?_⟩
  refine List.Pairwise.imp ?_ (List.nodup_range (n := K))
  intro g h hne i hg hh
  have hg' := (List.mem_filter.mp hg).2
  have hh' := (List.mem_filter.mp hh).2
  rw [decide_eq_true_eq] at hg' hh'
  exact hne (Option.some.inj (hg'.symm.trans hh'))

/-! ## Sorting a list -/

variable {β : Type*}

/-- The entries of a key in a list are its elements with that key. -/
theorem map_entriesOf_list (l : List β) (f : β → Nat) (val : β → α) (fill : α) (g : Nat) :
    (entriesOf (fun i => (l[i]?).map f) l.length g).map (fun i => ((l[i]?).map val).getD fill) =
      (l.filter fun b => f b = g).map val := by
  have htake : ∀ m, m ≤ l.length → (entriesOf (fun i => (l[i]?).map f) m g).map
      (fun i => ((l[i]?).map val).getD fill) = ((l.take m).filter fun b => f b = g).map val := by
    intro m hm
    induction m with
    | zero => rfl
    | succ m ih =>
      have hlt : m < l.length := hm
      rw [entriesOf_succ, List.map_append, ih hlt.le, List.take_succ_eq_append_getElem hlt,
        List.filter_append, List.map_append, List.getElem?_eq_getElem hlt]
      congr 1
      by_cases hg : f l[m] = g
      · rw [if_pos (by rw [Option.map_some, hg]), List.filter_cons_of_pos (by simpa using hg)]
        simp [List.getElem?_eq_getElem hlt]
      · rw [if_neg (by rw [Option.map_some]; simpa using hg),
          List.filter_cons_of_neg (by simpa using hg)]
        rfl
  rw [htake l.length (le_refl _), List.take_length]

/-- Adding up slot by slot is adding up the elements. -/
theorem sum_map_filter_range {M : Type*} [AddCommMonoid M] (l : List β) (f : β → Nat) (val : β → M) {K : Nat}
    (hlt : ∀ b ∈ l, f b < K) :
    ((List.range K).map fun g => ((l.filter fun b => f b = g).map val).sum).sum = (l.map val).sum := by
  induction l with
  | nil => simp
  | cons b l ih =>
    have hone : ∀ n, ((List.range n).map fun g => if f b = g then val b else 0).sum =
        if f b < n then val b else 0 := by
      intro n
      induction n with
      | zero => rfl
      | succ n ihn =>
        rw [List.range_succ, List.map_append, List.sum_append, ihn, List.map_singleton, List.sum_singleton]
        rcases Nat.lt_trichotomy (f b) n with h | h | h
        · rw [if_pos h, if_neg (by omega), if_pos (by omega), add_zero]
        · rw [if_neg (by omega), if_pos h, if_pos (by omega), zero_add]
        · rw [if_neg (by omega), if_neg (by omega), if_neg (by omega), add_zero]
    have hsplit : (fun g => (((b :: l).filter fun b => f b = g).map val).sum) = fun g =>
        (if f b = g then val b else 0) + ((l.filter fun b => f b = g).map val).sum := by
      funext g
      by_cases hg : f b = g
      · rw [List.filter_cons_of_pos (by simpa using hg), List.map_cons, List.sum_cons, if_pos hg]
      · rw [List.filter_cons_of_neg (by simpa using hg), if_neg hg, zero_add]
    rw [hsplit, List.sum_map_add, hone, if_pos (hlt b List.mem_cons_self),
      ih fun c hc => hlt c (List.mem_cons_of_mem _ hc), List.map_cons, List.sum_cons]

end Relational
