import Decidb.Linear.Form

/-!
# The columns of a form

Merging entries column by column lists every column once, and a form that lists every column once, none
with a zero, is the function of its coefficients.
-/

namespace Linear

namespace Form

variable {ι K : Type*} [DecidableEq ι] [Semiring K]

/-! ## Merging -/

/-- The columns of `addColumn`, in order. -/
theorem map_fst_addColumn (f : Form ι K) (i : ι) (c : K) :
    (addColumn f i c).map (·.1) =
      if i ∈ f.map (·.1) then f.map (·.1) else f.map (·.1) ++ [i] := by
  induction f with
  | nil => simp [addColumn]
  | cons t f ih =>
    by_cases h : t.1 = i
    · simp [addColumn, h]
    · have hne : i ≠ t.1 := fun heq => h heq.symm
      rw [addColumn, if_neg h, List.map_cons, ih]
      by_cases hmem : i ∈ f.map (·.1)
      · rw [if_pos hmem, List.map_cons, if_pos (List.mem_cons_of_mem _ hmem)]
      · rw [if_neg hmem, List.map_cons, if_neg (by simp only [List.mem_cons]; tauto)]
        rfl

theorem nodup_addColumn {f : Form ι K} (h : (f.map (·.1)).Nodup) (i : ι) (c : K) :
    ((addColumn f i c).map (·.1)).Nodup := by
  rw [map_fst_addColumn]
  split
  · exact h
  · rename_i hnot
    refine List.Nodup.append h (List.nodup_singleton i) ?_
    rw [List.disjoint_singleton]
    exact hnot

/-- Entries merged one after the other. -/
theorem nodup_foldl_addColumn (entries : List (ι × K)) : ∀ {f : Form ι K}, (f.map (·.1)).Nodup →
    ((entries.foldl (fun f e => addColumn f e.1 e.2) f).map (·.1)).Nodup := by
  induction entries with
  | nil => exact fun h => h
  | cons e entries ih => exact fun h => ih (nodup_addColumn h e.1 e.2)

omit [DecidableEq ι] [Semiring K] in
theorem nodup_filter {f : Form ι K} (h : (f.map (·.1)).Nodup) (p : ι × K → Bool) :
    ((f.filter p).map (·.1)).Nodup :=
  h.sublist (List.filter_sublist.map _)

/-- The columns of merged entries are those of the entries. -/
theorem mem_foldl_addColumn (entries : List (ι × K)) : ∀ {f : Form ι K} {t : ι × K},
    t ∈ entries.foldl (fun f e => addColumn f e.1 e.2) f →
      t.1 ∈ f.map (·.1) ∨ t.1 ∈ entries.map (·.1) := by
  induction entries with
  | nil => exact fun h => Or.inl (List.mem_map_of_mem h)
  | cons e entries ih =>
    intro f t h
    rw [List.map_cons]
    rcases ih h with h | h
    · obtain ⟨u, hu, hut⟩ := List.mem_map.mp h
      rcases mem_addColumn hu with h | ⟨w, hw, hwu⟩
      · exact Or.inr (List.mem_cons.mpr (Or.inl (hut.symm.trans h)))
      · exact Or.inl (List.mem_map.mpr ⟨w, hw, hwu.trans hut⟩)
    · exact Or.inr (List.mem_cons_of_mem _ h)

/-! ## Forms that list every column once -/

/-- The entry of a column that is listed once is its coefficient. -/
theorem coefficient_of_mem {f : Form ι K} (hnodup : (f.map (·.1)).Nodup) {e : ι × K} (he : e ∈ f) :
    f.coefficient e.1 = e.2 := by
  induction f with
  | nil => cases he
  | cons t f ih =>
    obtain ⟨hnot, hnodup⟩ := List.nodup_cons.mp hnodup
    rw [coefficient_cons]
    rcases List.mem_cons.mp he with rfl | he
    · have hrest : f.filter (fun u => u.1 = e.1) = [] := by
        refine List.filter_eq_nil_iff.mpr fun u hu huidx => hnot ?_
        exact List.mem_map.mpr ⟨u, hu, of_decide_eq_true huidx⟩
      rw [if_pos rfl, coefficient, hrest, List.map_nil, List.sum_nil, add_zero]
    · have hne : t.1 ≠ e.1 := fun heq => hnot (List.mem_map.mpr ⟨e, he, heq.symm⟩)
      rw [if_neg hne, zero_add]
      exact ih hnodup he

theorem coefficient_of_not_mem {f : Form ι K} {c : ι} (h : c ∉ f.map (·.1)) :
    f.coefficient c = 0 := by
  have hnil : f.filter (fun u => u.1 = c) = [] := by
    refine List.filter_eq_nil_iff.mpr fun u hu hidx => h ?_
    exact List.mem_map.mpr ⟨u, hu, of_decide_eq_true hidx⟩
  rw [coefficient, hnil, List.map_nil, List.sum_nil]

/-- A form without zeros or duplicates lists exactly the columns whose coefficient is not zero. -/
theorem mem_iff_coefficient {f : Form ι K} (hnodup : (f.map (·.1)).Nodup) (hne : ∀ e ∈ f, e.2 ≠ 0)
    (e : ι × K) : e ∈ f ↔ e.2 = f.coefficient e.1 ∧ e.2 ≠ 0 := by
  refine ⟨fun he => ⟨(coefficient_of_mem hnodup he).symm, hne e he⟩, ?_⟩
  rintro ⟨hval, hzero⟩
  by_cases hmem : e.1 ∈ f.map (·.1)
  · obtain ⟨t, ht, hidx⟩ := List.mem_map.mp hmem
    have htval := coefficient_of_mem hnodup ht
    rw [hidx, ← hval] at htval
    rwa [show e = t from Prod.ext hidx.symm htval]
  · rw [hval, coefficient_of_not_mem hmem] at hzero
    exact absurd rfl hzero

/-- Such a form has an entry when some column keeps a coefficient. -/
theorem ne_nil_iff_coefficient {f : Form ι K} (hnodup : (f.map (·.1)).Nodup)
    (hne : ∀ e ∈ f, e.2 ≠ 0) : f ≠ [] ↔ ∃ c, f.coefficient c ≠ 0 := by
  constructor
  · intro h
    obtain ⟨e, he⟩ := List.exists_mem_of_ne_nil f h
    exact ⟨e.1, by rw [coefficient_of_mem hnodup he]; exact hne e he⟩
  · rintro ⟨c, hc⟩ rfl
    exact hc (coefficient_nil c)

end Form

end Linear
