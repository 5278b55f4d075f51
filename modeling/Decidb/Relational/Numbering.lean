import Mathlib.Data.List.Basic
import Mathlib.Data.List.Induction
import Mathlib.Data.List.Nodup
import Mathlib.Data.List.Pairwise
import Mathlib.Order.Nat

/-!
# Numbering by first appearance

A scan keeps the first element of every class of an equivalence; the number of an element is the place of
the one kept for its class. The last part numbers the rows `0, 1, …` of a table behind a filter.
-/

namespace Relational

variable {α : Type*} {eqv eqv' : α → α → Bool}

/-! ## Representatives -/

/-- One element of the scan. -/
def addRepresentative (eqv : α → α → Bool) (reps : List α) (a : α) : List α :=
  if reps.any (eqv · a) then reps else reps ++ [a]

/-- The elements the scan keeps, in the order they are met. -/
def representatives (eqv : α → α → Bool) (l : List α) : List α := l.foldl (addRepresentative eqv) []

/-- The number of an element. -/
def numberIn (eqv : α → α → Bool) (reps : List α) (a : α) : Option Nat := reps.findIdx? (eqv · a)

theorem representatives_concat (l : List α) (a : α) :
    representatives eqv (l ++ [a]) = addRepresentative eqv (representatives eqv l) a := by
  rw [representatives, List.foldl_append]
  rfl

theorem representatives_isPrefix (l l' : List α) :
    representatives eqv l <+: representatives eqv (l ++ l') := by
  induction l' using List.reverseRecOn with
  | nil =>
    simp
  | append_singleton l' a ih =>
    rw [← List.append_assoc, representatives_concat]
    refine ih.trans ?_
    unfold addRepresentative
    split
    · exact List.prefix_refl _
    · exact List.prefix_append _ _

theorem mem_of_mem_representatives {l : List α} {a : α} (h : a ∈ representatives eqv l) : a ∈ l := by
  induction l using List.reverseRecOn with
  | nil => cases h
  | append_singleton l b ih =>
    rw [representatives_concat] at h
    unfold addRepresentative at h
    split at h
    · exact List.mem_append_left _ (ih h)
    · rcases List.mem_append.mp h with h | h
      · exact List.mem_append_left _ (ih h)
      · exact List.mem_append_right _ h

/-- No two elements that are kept are of one class. -/
theorem pairwise_representatives (eqv : α → α → Bool) (l : List α) :
    (representatives eqv l).Pairwise fun a b => eqv a b = false := by
  induction l using List.reverseRecOn with
  | nil => exact List.Pairwise.nil
  | append_singleton l b ih =>
    rw [representatives_concat]
    unfold addRepresentative
    split
    · exact ih
    · rename_i hnone
      refine List.pairwise_append.mpr ⟨ih, List.pairwise_singleton _ _, ?_⟩
      intro a ha c hc
      obtain rfl := List.mem_singleton.mp hc
      by_contra heq
      rw [Bool.not_eq_false] at heq
      exact hnone (List.any_eq_true.mpr ⟨a, ha, heq⟩)

/-- Every element has its class kept. -/
theorem exists_representative (hrefl : ∀ a, eqv a a = true) {l : List α} {a : α} (h : a ∈ l) :
    ∃ r ∈ representatives eqv l, eqv r a = true := by
  induction l using List.reverseRecOn with
  | nil => cases h
  | append_singleton l b ih =>
    rw [representatives_concat]
    unfold addRepresentative
    rcases List.mem_append.mp h with h | h
    · obtain ⟨r, hr, heq⟩ := ih h
      refine ⟨r, ?_, heq⟩
      split
      · exact hr
      · exact List.mem_append_left _ hr
    · obtain rfl := List.mem_singleton.mp h
      split
      · rename_i hany
        exact List.any_eq_true.mp hany
      · exact ⟨a, List.mem_append_right _ (List.mem_singleton_self a), hrefl a⟩

/-- Equivalences that agree on what is scanned keep the same elements. -/
theorem representatives_congr {l : List α} (h : ∀ a ∈ l, ∀ b ∈ l, eqv a b = eqv' a b) :
    representatives eqv l = representatives eqv' l := by
  induction l using List.reverseRecOn with
  | nil => rfl
  | append_singleton l b ih =>
    have hl : representatives eqv l = representatives eqv' l :=
      ih fun a ha c hc => h a (List.mem_append_left _ ha) c (List.mem_append_left _ hc)
    have hany : (representatives eqv' l).any (eqv · b) = (representatives eqv' l).any (eqv' · b) := by
      rw [Bool.eq_iff_iff, List.any_eq_true, List.any_eq_true]
      refine exists_congr fun r => and_congr_right fun hr => ?_
      rw [h r (List.mem_append_left _ (mem_of_mem_representatives hr)) b
        (List.mem_append_right _ (List.mem_singleton_self b))]
    rw [representatives_concat, representatives_concat, hl]
    unfold addRepresentative
    rw [hany]

/-! ## Numbers -/

theorem numberIn_congr {reps : List α} {a : α} (h : ∀ r ∈ reps, eqv r a = eqv' r a) :
    numberIn eqv reps a = numberIn eqv' reps a := by
  unfold numberIn
  induction reps with
  | nil => rfl
  | cons r reps ih =>
    rw [List.findIdx?_cons, List.findIdx?_cons, h r List.mem_cons_self,
      ih fun s hs => h s (List.mem_cons_of_mem _ hs)]

theorem numberIn_eq_some {reps : List α} {a : α} {g : Nat} (h : numberIn eqv reps a = some g) :
    ∃ r, reps[g]? = some r ∧ eqv r a = true := by
  obtain ⟨hg, heq, -⟩ := List.findIdx?_eq_some_iff_getElem.mp h
  exact ⟨reps[g], List.getElem?_eq_getElem hg, heq⟩

theorem numberIn_isSome {reps : List α} {a : α} :
    (numberIn eqv reps a).isSome = true ↔ ∃ r ∈ reps, eqv r a = true := by
  unfold numberIn
  rw [List.findIdx?_isSome, List.any_eq_true]

/-- Elements kept later do not change the number of an element whose class was met. -/
theorem numberIn_append {reps reps' : List α} (hpre : reps <+: reps') {a : α}
    (h : ∃ r ∈ reps, eqv r a = true) : numberIn eqv reps' a = numberIn eqv reps a := by
  obtain ⟨more, rfl⟩ := hpre
  have hsome := numberIn_isSome.mpr h
  unfold numberIn at hsome ⊢
  rw [List.findIdx?_append]
  obtain ⟨g, hg⟩ := Option.isSome_iff_exists.mp hsome
  rw [hg]
  rfl

theorem numberIn_concat_of_not {reps : List α} {a b : α} (h : eqv b a = false) :
    numberIn eqv (reps ++ [b]) a = numberIn eqv reps a := by
  unfold numberIn
  rw [List.findIdx?_append, List.findIdx?_cons, h]
  simp

section

variable (hequiv : Equivalence fun a b => eqv a b = true)

include hequiv

/-- Elements of one class have one number. -/
theorem numberIn_of_eqv (reps : List α) {a b : α} (h : eqv a b = true) :
    numberIn eqv reps a = numberIn eqv reps b := by
  have hsame : ∀ r, eqv r a = eqv r b := by
    intro r
    rw [Bool.eq_iff_iff]
    exact ⟨fun hr => hequiv.trans hr h, fun hr => hequiv.trans hr (hequiv.symm h)⟩
  unfold numberIn
  simp only [hsame]

/-- The number of a class is the place of the element that is kept for it. -/
theorem numberIn_of_getElem {l : List α} {a r : α} {g : Nat} (hr : (representatives eqv l)[g]? = some r)
    (h : eqv r a = true) : numberIn eqv (representatives eqv l) a = some g := by
  obtain ⟨hg, rfl⟩ := List.getElem?_eq_some_iff.mp hr
  refine List.findIdx?_eq_some_iff_getElem.mpr ⟨hg, h, ?_⟩
  intro j hj heq
  have hne := List.pairwise_iff_getElem.mp (pairwise_representatives eqv l) j g
    (lt_trans hj hg) hg hj
  rw [hequiv.trans heq (hequiv.symm h)] at hne
  cases hne

/-- **Two elements get one number exactly if they are of one class.** -/
theorem numberIn_eq_iff {l : List α} {a b : α} (ha : a ∈ l) :
    numberIn eqv (representatives eqv l) a = numberIn eqv (representatives eqv l) b ↔
      eqv a b = true := by
  obtain ⟨r, hr, hra⟩ := exists_representative hequiv.refl ha
  obtain ⟨g, hg⟩ := List.getElem?_of_mem hr
  rw [numberIn_of_getElem hequiv hg hra]
  constructor
  · intro h
    obtain ⟨r', hr', hrb⟩ := numberIn_eq_some h.symm
    obtain rfl : r = r' := Option.some.inj (hg.symm.trans hr')
    exact hequiv.trans (hequiv.symm hra) hrb
  · intro h
    exact (numberIn_of_getElem hequiv hg (hequiv.trans hra h)).symm

/-- Numbers are dense: every number below the count is that of an element. -/
theorem exists_numberIn {l : List α} {g : Nat} (hg : g < (representatives eqv l).length) :
    ∃ a ∈ l, numberIn eqv (representatives eqv l) a = some g :=
  ⟨(representatives eqv l)[g], mem_of_mem_representatives (List.getElem_mem hg),
    numberIn_of_getElem hequiv (List.getElem?_eq_getElem hg) (hequiv.refl _)⟩

/-- **Numbers are given in the order of first appearance**: before an element has a number, every smaller
one was given. -/
theorem exists_numberIn_before {before after : List α} {a : α} {g h : Nat} (hlt : g < h)
    (ha : numberIn eqv (representatives eqv (before ++ a :: after)) a = some h) :
    ∃ b ∈ before, numberIn eqv (representatives eqv (before ++ a :: after)) b = some g := by
  have hsplit : before ++ a :: after = (before ++ [a]) ++ after := by simp
  have hpre : representatives eqv (before ++ [a]) <+: representatives eqv (before ++ a :: after) := by
    rw [hsplit]
    exact representatives_isPrefix _ _
  obtain ⟨r, hr, hra⟩ := exists_representative hequiv.refl (l := before ++ [a])
    (List.mem_append_right _ (List.mem_singleton_self a))
  rw [numberIn_append hpre ⟨r, hr, hra⟩] at ha
  obtain ⟨r', hr', -⟩ := numberIn_eq_some ha
  have hh : h < (representatives eqv (before ++ [a])).length := (List.getElem?_eq_some_iff.mp hr').1
  have hlen : (representatives eqv (before ++ [a])).length ≤ (representatives eqv before).length + 1 := by
    rw [representatives_concat]
    unfold addRepresentative
    split
    · omega
    · rw [List.length_append, List.length_singleton]
  have hg : g < (representatives eqv before).length := by omega
  obtain ⟨b, hb, hnum⟩ := exists_numberIn hequiv hg
  refine ⟨b, hb, ?_⟩
  rw [numberIn_append (representatives_isPrefix before (a :: after))
    (numberIn_isSome.mp (by rw [hnum]; rfl)), hnum]

end

/-! ## Numbering the rows of a table -/

section

variable (same : Nat → Nat → Bool) (keeps : Nat → Bool)

/-- The rows that are numbered among the first ones. -/
def keptRows (m : Nat) : List Nat := (List.range m).filter keeps

/-- The first row of every class. -/
def repRows (m : Nat) : List Nat := representatives same (keptRows keeps m)

/-- The number of a row. -/
def rowNumber (m row : Nat) : Option Nat := if keeps row then numberIn same (repRows same keeps m) row else none

variable {same keeps}

theorem keptRows_succ_of_keeps {m : Nat} (h : keeps m = true) :
    keptRows keeps (m + 1) = keptRows keeps m ++ [m] := by
  unfold keptRows
  rw [List.range_succ, List.filter_append, List.filter_cons_of_pos h, List.filter_nil]

theorem keptRows_succ_of_not {m : Nat} (h : keeps m = false) : keptRows keeps (m + 1) = keptRows keeps m := by
  unfold keptRows
  rw [List.range_succ, List.filter_append, List.filter_cons_of_neg (by simp [h]), List.filter_nil,
    List.append_nil]

theorem mem_keptRows {m row : Nat} : row ∈ keptRows keeps m ↔ row < m ∧ keeps row = true := by
  unfold keptRows
  rw [List.mem_filter, List.mem_range]

theorem keptRows_isPrefix (keeps : Nat → Bool) {m n : Nat} (hle : m ≤ n) : keptRows keeps m <+: keptRows keeps n := by
  induction hle with
  | refl => exact List.prefix_refl _
  | @step n _ ih =>
    cases h : keeps n with
    | true =>
      rw [keptRows_succ_of_keeps h]
      exact ih.trans (List.prefix_append _ _)
    | false =>
      rw [keptRows_succ_of_not h]
      exact ih

theorem repRows_isPrefix {m n : Nat} (hle : m ≤ n) : repRows same keeps m <+: repRows same keeps n := by
  obtain ⟨more, hmore⟩ := keptRows_isPrefix keeps hle
  unfold repRows
  rw [← hmore]
  exact representatives_isPrefix _ _

theorem lt_of_mem_repRows {m row : Nat} (h : row ∈ repRows same keeps m) : row < m ∧ keeps row = true :=
  mem_keptRows.mp (mem_of_mem_representatives h)

theorem rowNumber_of_not {m row : Nat} (h : keeps row = false) : rowNumber same keeps m row = none := by
  rw [rowNumber, if_neg (by simp [h])]

theorem repRows_succ_of_not {m : Nat} (h : keeps m = false) :
    repRows same keeps (m + 1) = repRows same keeps m := by
  unfold repRows
  rw [keptRows_succ_of_not h]

section

variable (hequiv : Equivalence fun a b => same a b = true)

include hequiv

theorem exists_repRow {m row : Nat} (hrow : row < m) (hkeeps : keeps row = true) :
    ∃ r ∈ repRows same keeps m, same r row = true :=
  exists_representative hequiv.refl (mem_keptRows.mpr ⟨hrow, hkeeps⟩)

/-- A row keeps its number while later rows are scanned. -/
theorem rowNumber_of_le {m n row : Nat} (hle : m ≤ n) (hrow : row < m) :
    rowNumber same keeps n row = rowNumber same keeps m row := by
  unfold rowNumber
  split
  · rename_i hkeeps
    exact numberIn_append (repRows_isPrefix hle) (exists_repRow hequiv hrow hkeeps)
  · rfl

theorem map_rowNumber_succ (m : Nat) :
    (List.range (m + 1)).map (rowNumber same keeps (m + 1)) =
      (List.range m).map (rowNumber same keeps m) ++ [rowNumber same keeps (m + 1) m] := by
  rw [List.range_succ, List.map_append, List.map_singleton]
  congr 1
  refine List.map_congr_left fun row hrow => ?_
  exact rowNumber_of_le hequiv (Nat.le_succ m) (List.mem_range.mp hrow)

omit hequiv in
/-- The step of a row whose class was met. -/
theorem rowNumber_of_met {m g : Nat} (hkeeps : keeps m = true)
    (hg : numberIn same (repRows same keeps m) m = some g) :
    repRows same keeps (m + 1) = repRows same keeps m ∧ rowNumber same keeps (m + 1) m = some g := by
  have hany : (repRows same keeps m).any (same · m) = true :=
    List.any_eq_true.mpr (numberIn_isSome.mp (by rw [hg]; rfl))
  have hrows : repRows same keeps (m + 1) = repRows same keeps m := by
    unfold repRows at hany ⊢
    rw [keptRows_succ_of_keeps hkeeps, representatives_concat, addRepresentative, if_pos hany]
  exact ⟨hrows, by rw [rowNumber, if_pos hkeeps, hrows, hg]⟩

/-- The step of a row of a new class. -/
theorem rowNumber_of_new {m : Nat} (hkeeps : keeps m = true)
    (hnew : numberIn same (repRows same keeps m) m = none) :
    repRows same keeps (m + 1) = repRows same keeps m ++ [m] ∧
      rowNumber same keeps (m + 1) m = some (repRows same keeps m).length := by
  have hany : ¬ (repRows same keeps m).any (same · m) = true := by
    intro hany
    have hsome := numberIn_isSome.mpr (List.any_eq_true.mp hany)
    rw [hnew] at hsome
    cases hsome
  have hrows : repRows same keeps (m + 1) = repRows same keeps m ++ [m] := by
    unfold repRows at hany ⊢
    rw [keptRows_succ_of_keeps hkeeps, representatives_concat, addRepresentative, if_neg hany]
  have hlast : (repRows same keeps (m + 1))[(repRows same keeps m).length]? = some m := by
    rw [hrows, List.getElem?_concat_length]
  refine ⟨hrows, ?_⟩
  rw [rowNumber, if_pos hkeeps]
  exact numberIn_of_getElem hequiv hlast (hequiv.refl m)

/-! The numbers of all rows. -/

theorem rowNumber_isSome {m row : Nat} (hrow : row < m) :
    (rowNumber same keeps m row).isSome = true ↔ keeps row = true := by
  cases hkeeps : keeps row with
  | false =>
    rw [rowNumber_of_not hkeeps]
    simp
  | true =>
    rw [rowNumber, if_pos hkeeps, numberIn_isSome]
    exact iff_of_true (exists_repRow hequiv hrow hkeeps) rfl

theorem rowNumber_eq_iff {m row row' : Nat} (hrow : row < m) (hkeeps : keeps row = true)
    (hkeeps' : keeps row' = true) :
    rowNumber same keeps m row = rowNumber same keeps m row' ↔ same row row' = true := by
  rw [rowNumber, rowNumber, if_pos hkeeps, if_pos hkeeps']
  exact numberIn_eq_iff hequiv (mem_keptRows.mpr ⟨hrow, hkeeps⟩)

omit hequiv in
theorem rowNumber_eq_some {m row g : Nat} (h : rowNumber same keeps m row = some g) :
    keeps row = true ∧ ∃ r, (repRows same keeps m)[g]? = some r ∧ same r row = true := by
  unfold rowNumber at h
  split at h
  · rename_i hkeeps
    exact ⟨hkeeps, numberIn_eq_some h⟩
  · cases h

theorem exists_rowNumber {m g : Nat} (hg : g < (repRows same keeps m).length) :
    ∃ row, row < m ∧ rowNumber same keeps m row = some g := by
  obtain ⟨row, hmem, hnum⟩ := exists_numberIn hequiv hg
  obtain ⟨hrow, hkeeps⟩ := mem_keptRows.mp hmem
  exact ⟨row, hrow, by rw [rowNumber, if_pos hkeeps]; exact hnum⟩

theorem exists_rowNumber_before {m row g h : Nat} (hrow : row < m) (hlt : g < h)
    (hnum : rowNumber same keeps m row = some h) :
    ∃ row', row' < row ∧ rowNumber same keeps m row' = some g := by
  have hkeeps := (rowNumber_eq_some hnum).1
  rw [rowNumber, if_pos hkeeps] at hnum
  obtain ⟨after, hafter⟩ := keptRows_isPrefix keeps (show row + 1 ≤ m from hrow)
  rw [keptRows_succ_of_keeps hkeeps, List.append_assoc] at hafter
  have hrows : repRows same keeps m = representatives same (keptRows keeps row ++ row :: after) := by
    unfold repRows
    rw [← hafter]
    rfl
  rw [hrows] at hnum
  obtain ⟨row', hmem, hnum'⟩ := exists_numberIn_before hequiv hlt hnum
  obtain ⟨hrow', hkeeps'⟩ := mem_keptRows.mp hmem
  refine ⟨row', hrow', ?_⟩
  rw [rowNumber, if_pos hkeeps', hrows, hnum']

end

end

end Relational
