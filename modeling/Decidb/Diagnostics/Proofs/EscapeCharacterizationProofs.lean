import Decidb.Diagnostics.EscapeCharacterization

/-!
# When the rules and the cap say the truth

One rule is kept for every set of escaping instances, and the cover is made of those kept whose value
escapes wholly. Whether it covers everything is decided by the groups that are kept, not by all groups.
-/

namespace Decidb

/-! ## Groups -/

namespace ColumnGrouping

variable {cg : ColumnGrouping} {escaping : Finset Nat} {g i : Nat}

theorem groupOf_lt (h : cg.groupOf i = some g) : i < cg.instanceToGroup.length ∧ g < cg.groupValue.length := by
  unfold groupOf at h
  obtain ⟨hget, hlt⟩ := Option.filter_eq_some_iff.mp h
  refine ⟨?_, of_decide_eq_true hlt⟩
  by_contra hi
  rw [List.getElem?_eq_none (by omega)] at hget
  cases hget

theorem mem_members : i ∈ cg.members g ↔ cg.groupOf i = some g := by
  unfold members
  rw [List.mem_filter, List.mem_range, decide_eq_true_eq]
  exact ⟨fun h => h.2, fun h => ⟨(groupOf_lt h).1, h⟩⟩

theorem mem_escMembers : i ∈ cg.escMembers escaping g ↔ cg.groupOf i = some g ∧ i ∈ escaping := by
  unfold escMembers
  rw [List.mem_filter, mem_members, decide_eq_true_eq]

theorem nodup_members (cg : ColumnGrouping) (g : Nat) : (cg.members g).Nodup := List.nodup_range.filter _

theorem nodup_escMembers (cg : ColumnGrouping) (escaping : Finset Nat) (g : Nat) :
    (cg.escMembers escaping g).Nodup := (cg.nodup_members g).filter _

/-- As many instances escape as there are in the group where all of them escape. -/
theorem length_escMembers_iff :
    (cg.escMembers escaping g).length = (cg.members g).length ↔ cg.Whole escaping g := by
  unfold escMembers
  rw [List.length_filter_eq_length_iff]
  simp only [mem_members, decide_eq_true_eq]
  exact Iff.rfl

end ColumnGrouping

/-- A duplicate-free list is as long as its elements are many. -/
theorem length_eq_ncard {l : List Nat} (hnodup : l.Nodup) {s : Set Nat} (h : ∀ i, i ∈ l ↔ i ∈ s) :
    l.length = s.ncard := by
  have hs : s = (l.toFinset : Set Nat) := by
    ext i
    rw [List.coe_toFinset]
    exact (h i).symm
  rw [hs, Set.ncard_coe_finset, List.toFinset_card_of_nodup hnodup]

theorem finite_hasValue (candidates : List ColumnGrouping) (column value : String) :
    {i | HasValue candidates column value i}.Finite := by
  have hsub : {i | HasValue candidates column value i} ⊆
      ⋃ cg ∈ {cg | cg ∈ candidates}, {i | i < cg.instanceToGroup.length} := by
    rintro i ⟨cg, hcg, -, g, hg, -⟩
    exact Set.mem_biUnion hcg (ColumnGrouping.groupOf_lt hg).1
  exact (Set.Finite.biUnion (List.finite_toSet candidates) fun cg _ => Set.finite_lt_nat _).subset hsub

/-! ## What is kept -/

/-- Of the rules with the same escaping instances, the one that stays. -/
def representative (rs : List KeptRule) : Option KeptRule := (rs.find? (·.clauseReferenced)).or rs.head?

/-- The rules with these escaping instances. -/
def sameMembers (rs : List KeptRule) (members : List Nat) : List KeptRule :=
  rs.filter fun r => r.members = members

theorem members_of_sameMembers {rs : List KeptRule} {members : List Nat} {r : KeptRule}
    (h : representative (sameMembers rs members) = some r) : r.members = members := by
  have hmem : r ∈ sameMembers rs members := by
    unfold representative at h
    rcases Option.or_eq_some_iff.mp h with h | ⟨-, h⟩
    · exact List.mem_of_find?_eq_some h
    · exact List.mem_of_mem_head? h
  exact of_decide_eq_true (List.mem_filter.mp hmem).2

/-- One more rule takes the place if it is the first, or the first in a column of the clause. -/
theorem representative_append (rs : List KeptRule) (r : KeptRule) : representative (rs ++ [r]) =
    match representative rs with
    | none => some r
    | some k => some (if r.clauseReferenced && !k.clauseReferenced then r else k) := by
  unfold representative
  rw [List.find?_append]
  cases hfind : rs.find? (·.clauseReferenced) with
  | some k =>
    have hk : k.clauseReferenced = true := List.find?_some hfind
    simp [hk]
  | none =>
    cases rs with
    | nil => cases hr : r.clauseReferenced <;> simp [hr]
    | cons k rs =>
      have hk : k.clauseReferenced = false := by
        simpa using List.find?_eq_none.mp hfind k List.mem_cons_self
      cases hr : r.clauseReferenced <;> simp [hr, hk]

theorem sameMembers_append (rs : List KeptRule) (r : KeptRule) (members : List Nat) :
    sameMembers (rs ++ [r]) members =
      if r.members = members then sameMembers rs members ++ [r] else sameMembers rs members := by
  unfold sameMembers
  rw [List.filter_append]
  by_cases h : r.members = members <;> simp [h]

/-- The rules kept so far stand each for its escaping instances. -/
structure KeptExact (rs kept : List KeptRule) : Prop where
  distinct : kept.Pairwise fun a b => a.members ≠ b.members
  mem_iff : ∀ k, k ∈ kept ↔ representative (sameMembers rs k.members) = some k

/-- Where no kept rule has its escaping instances, a rule is appended. -/
theorem keepRule_of_forall {kept : List KeptRule} {r : KeptRule} (h : ∀ k ∈ kept, k.members ≠ r.members) :
    keepRule kept r = kept ++ [r] := by
  induction kept with
  | nil => rfl
  | cons k kept ih =>
    unfold keepRule
    rw [if_neg (h k List.mem_cons_self), ih fun k' hk' => h k' (List.mem_cons_of_mem _ hk')]
    rfl

/-- Where one has, it is replaced in its place or stays. -/
theorem keepRule_of_mem {before after : List KeptRule} {k r : KeptRule}
    (hbefore : ∀ k' ∈ before, k'.members ≠ r.members) (hk : k.members = r.members) :
    keepRule (before ++ k :: after) r =
      before ++ (if r.clauseReferenced && !k.clauseReferenced then r else k) :: after := by
  induction before with
  | nil =>
    change keepRule (k :: after) r = _ :: after
    unfold keepRule
    rw [if_pos hk]
    split <;> rfl
  | cons b before ih =>
    change keepRule (b :: (before ++ k :: after)) r = _
    unfold keepRule
    rw [if_neg (hbefore b List.mem_cons_self), ih fun k' hk' => hbefore k' (List.mem_cons_of_mem _ hk')]
    rfl

/-- One rule more. -/
theorem KeptExact.keepRule {rs kept : List KeptRule} (h : KeptExact rs kept) (r : KeptRule) :
    KeptExact (rs ++ [r]) (keepRule kept r) := by
  by_cases hfound : ∃ k ∈ kept, k.members = r.members
  · obtain ⟨k, hk, hmembers⟩ := hfound
    obtain ⟨before, after, rfl⟩ := List.append_of_mem hk
    have hrep : representative (sameMembers rs r.members) = some k := by
      rw [← hmembers]
      exact (h.mem_iff k).mp hk
    have hdistinct := List.pairwise_append.mp h.distinct
    have hbefore : ∀ k' ∈ before, k'.members ≠ r.members := by
      intro k' hk'
      rw [← hmembers]
      exact hdistinct.2.2 k' hk' k List.mem_cons_self
    have hafter : ∀ k' ∈ after, k'.members ≠ r.members := by
      intro k' hk'
      rw [← hmembers]
      exact ((List.pairwise_cons.mp hdistinct.2.1).1 k' hk').symm
    rw [keepRule_of_mem hbefore hmembers]
    have hchosen : (if r.clauseReferenced && !k.clauseReferenced then r else k).members = r.members := by
      split
      · rfl
      · exact hmembers
    generalize hc : (if r.clauseReferenced && !k.clauseReferenced then r else k) = chosen at hchosen ⊢
    constructor
    · refine List.pairwise_append.mpr ⟨hdistinct.1, List.pairwise_cons.mpr
        ⟨fun k' hk' => ?_, (List.pairwise_cons.mp hdistinct.2.1).2⟩, fun k₁ hk₁ k₂ hk₂ => ?_⟩
      · rw [hchosen]
        exact (hafter k' hk').symm
      · rcases List.mem_cons.mp hk₂ with rfl | hk₂
        · rw [hchosen]
          exact hbefore k₁ hk₁
        · exact hdistinct.2.2 k₁ hk₁ k₂ (List.mem_cons_of_mem _ hk₂)
    · intro k'
      rw [sameMembers_append]
      by_cases hsame : r.members = k'.members
      · rw [if_pos hsame, ← hsame, representative_append, hrep]
        dsimp only
        rw [hc]
        constructor
        · intro hk'
          rcases List.mem_append.mp hk' with hk' | hk'
          · exact absurd hsame.symm (hbefore k' hk')
          · rcases List.mem_cons.mp hk' with rfl | hk'
            · rfl
            · exact absurd hsame.symm (hafter k' hk')
        · intro heq
          cases heq
          exact List.mem_append_right _ List.mem_cons_self
      · rw [if_neg hsame, ← h.mem_iff]
        have hnot : k' ≠ k ∧ k' ≠ chosen :=
          ⟨fun heq => hsame (heq ▸ hmembers.symm), fun heq => hsame (heq ▸ hchosen.symm)⟩
        simp [hnot.1, hnot.2]
  · push Not at hfound
    rw [keepRule_of_forall hfound]
    have hrep : representative (sameMembers rs r.members) = none := by
      cases hsome : representative (sameMembers rs r.members) with
      | none => rfl
      | some k =>
        have hk := members_of_sameMembers hsome
        exact absurd hk (hfound k ((h.mem_iff k).mpr (hk.symm ▸ hsome)))
    constructor
    · refine List.pairwise_append.mpr ⟨h.distinct, List.pairwise_singleton _ _, fun k hk k' hk' => ?_⟩
      rw [List.mem_singleton.mp hk']
      exact hfound k hk
    · intro k
      rw [sameMembers_append, List.mem_append, List.mem_singleton]
      by_cases hsame : r.members = k.members
      · rw [if_pos hsame, ← hsame, representative_append, hrep]
        dsimp only
        constructor
        · rintro (hk | rfl)
          · exact absurd hsame.symm (hfound k hk)
          · rfl
        · intro heq
          cases heq
          exact .inr rfl
      · rw [if_neg hsame, ← h.mem_iff]
        exact or_iff_left fun heq => hsame (heq ▸ rfl)

/-- All rules. -/
theorem keptExact_foldl (rs : List KeptRule) : KeptExact rs (rs.foldl keepRule []) := by
  induction rs using List.reverseRecOn with
  | nil =>
    refine ⟨List.Pairwise.nil, fun k => ?_⟩
    simp [sameMembers, representative]
  | append_singleton rs r ih =>
    rw [List.foldl_append]
    exact ih.keepRule r

section

variable {escaping : Finset Nat} {candidates : List ColumnGrouping} {threshold : ℚ}

/-- A group that makes a rule is one of a candidate, and some of its instances escape. -/
theorem mem_escapeGroups {o : ColumnGrouping × Nat} (h : o ∈ escapeGroups escaping candidates threshold) :
    o.1 ∈ candidates ∧ o.2 < o.1.groupValue.length := by
  unfold escapeGroups at h
  obtain ⟨cg, hcg, ho⟩ := List.mem_flatMap.mp h
  obtain ⟨g, hg, rfl⟩ := List.mem_map.mp ho
  exact ⟨hcg, List.mem_range.mp (List.mem_filter.mp hg).1⟩

theorem mem_escapeGroups_of_isKeptGroup {o : ColumnGrouping × Nat}
    (h : IsKeptGroup escaping candidates threshold o) : o ∈ escapeGroups escaping candidates threshold := by
  unfold IsKeptGroup at h
  rcases Option.or_eq_some_iff.mp h with h | ⟨-, h⟩
  · exact (List.mem_filter.mp (List.mem_of_find?_eq_some h)).1
  · exact (List.mem_filter.mp (List.mem_of_mem_head? h)).1

/-- The rules `characterizeEscape` keeps. -/
def keptRules (escaping : Finset Nat) (candidates : List ColumnGrouping) (threshold : ℚ) : List KeptRule :=
  ((escapeGroups escaping candidates threshold).map (ruleOf escaping)).foldl keepRule []

/-- Among the rules of groups, the one that stays is that of the group that stands for the others. -/
theorem representative_map (os : List (ColumnGrouping × Nat)) (members : List Nat) :
    representative (sameMembers (os.map (ruleOf escaping)) members) =
      (((os.filter fun o' => o'.1.escMembers escaping o'.2 = members).find? fun o' =>
        o'.1.clauseReferenced).or
          (os.filter fun o' => o'.1.escMembers escaping o'.2 = members).head?).map (ruleOf escaping) := by
  have hfilter : sameMembers (os.map (ruleOf escaping)) members =
      (os.filter fun o' => o'.1.escMembers escaping o'.2 = members).map (ruleOf escaping) := by
    unfold sameMembers
    rw [List.filter_map]
    rfl
  unfold representative
  rw [hfilter, List.find?_map, List.head?_map]
  change (Option.map _ ((os.filter _).find? fun o' => o'.1.clauseReferenced)).or _ = _
  cases (os.filter fun o' => o'.1.escMembers escaping o'.2 = members).find? fun o' => o'.1.clauseReferenced <;> rfl

/-- The rules that are kept are those of the groups that are. -/
theorem mem_keptRules_iff {k : KeptRule} : k ∈ keptRules escaping candidates threshold ↔
    ∃ o, IsKeptGroup escaping candidates threshold o ∧ k = ruleOf escaping o := by
  unfold keptRules
  rw [(keptExact_foldl _).mem_iff, representative_map, Option.map_eq_some_iff]
  constructor
  · rintro ⟨o, ho, rfl⟩
    exact ⟨o, ho, rfl⟩
  · rintro ⟨o, ho, rfl⟩
    exact ⟨o, ho, rfl⟩

end

/-! ## The cover -/

/-- What a scan over rules has covered. -/
structure ScopeCover.Exact (s : ScopeCover) (l : List (KeptRule × Nat)) : Prop where
  mem_covered : ∀ i, i ∈ s.covered ↔ ∃ p ∈ l, p.1.rule.escaping = p.1.rule.total ∧ i ∈ p.1.members
  whole_of_cover : ∀ c ∈ s.cover, ∃ p ∈ l, p.2 = c ∧ p.1.rule.escaping = p.1.rule.total
  cover_of_covered : ∀ i ∈ s.covered, ∃ p ∈ l, p.2 ∈ s.cover ∧ i ∈ p.1.members

/-- One rule more: it is taken, or what it holds of is covered. -/
theorem ScopeCover.Exact.extend {s : ScopeCover} {l : List (KeptRule × Nat)} (h : s.Exact l)
    (p : KeptRule × Nat) : (s.extend p).Exact (l ++ [p]) := by
  unfold ScopeCover.extend
  by_cases hwhole : p.1.rule.escaping = p.1.rule.total
  · rw [if_neg (not_not_intro hwhole)]
    by_cases hall : p.1.members.all (· ∈ s.covered) = true
    · rw [if_pos hall]
      have hold : ∀ i ∈ p.1.members, i ∈ s.covered := fun i hi => by
        simpa using List.all_eq_true.mp hall i hi
      constructor
      · intro i
        rw [h.mem_covered]
        constructor
        · rintro ⟨q, hq, hi⟩
          exact ⟨q, List.mem_append_left _ hq, hi⟩
        · rintro ⟨q, hq, hqw, hi⟩
          rcases List.mem_append.mp hq with hq | hq
          · exact ⟨q, hq, hqw, hi⟩
          · rw [List.mem_singleton.mp hq] at hi
            exact (h.mem_covered i).mp (hold i hi)
      · intro c hc
        obtain ⟨q, hq, hqc⟩ := h.whole_of_cover c hc
        exact ⟨q, List.mem_append_left _ hq, hqc⟩
      · intro i hi
        obtain ⟨q, hq, hqc⟩ := h.cover_of_covered i hi
        exact ⟨q, List.mem_append_left _ hq, hqc⟩
    · rw [if_neg hall]
      constructor
      · intro i
        rw [Finset.mem_union, h.mem_covered, List.mem_toFinset]
        constructor
        · rintro (⟨q, hq, hi⟩ | hi)
          · exact ⟨q, List.mem_append_left _ hq, hi⟩
          · exact ⟨p, List.mem_append_right _ (List.mem_singleton_self p), hwhole, hi⟩
        · rintro ⟨q, hq, hqw, hi⟩
          rcases List.mem_append.mp hq with hq | hq
          · exact .inl ⟨q, hq, hqw, hi⟩
          · rw [List.mem_singleton.mp hq] at hi
            exact .inr hi
      · intro c hc
        rcases List.mem_append.mp hc with hc | hc
        · obtain ⟨q, hq, hqc⟩ := h.whole_of_cover c hc
          exact ⟨q, List.mem_append_left _ hq, hqc⟩
        · exact ⟨p, List.mem_append_right _ (List.mem_singleton_self p), (List.mem_singleton.mp hc).symm, hwhole⟩
      · intro i hi
        rcases Finset.mem_union.mp hi with hi | hi
        · obtain ⟨q, hq, hqc, hqi⟩ := h.cover_of_covered i hi
          exact ⟨q, List.mem_append_left _ hq, List.mem_append_left _ hqc, hqi⟩
        · exact ⟨p, List.mem_append_right _ (List.mem_singleton_self p),
            List.mem_append_right _ (List.mem_singleton_self p.2), List.mem_toFinset.mp hi⟩
  · rw [if_pos hwhole]
    constructor
    · intro i
      rw [h.mem_covered]
      constructor
      · rintro ⟨q, hq, hi⟩
        exact ⟨q, List.mem_append_left _ hq, hi⟩
      · rintro ⟨q, hq, hqw, hi⟩
        rcases List.mem_append.mp hq with hq | hq
        · exact ⟨q, hq, hqw, hi⟩
        · rw [List.mem_singleton.mp hq] at hqw
          exact absurd hqw hwhole
    · intro c hc
      obtain ⟨q, hq, hqc⟩ := h.whole_of_cover c hc
      exact ⟨q, List.mem_append_left _ hq, hqc⟩
    · intro i hi
      obtain ⟨q, hq, hqc⟩ := h.cover_of_covered i hi
      exact ⟨q, List.mem_append_left _ hq, hqc⟩

theorem exact_foldl_extend (l : List (KeptRule × Nat)) : (l.foldl ScopeCover.extend {}).Exact l := by
  induction l using List.reverseRecOn with
  | nil => exact ⟨by simp, by simp, by simp⟩
  | append_singleton l p ih =>
    rw [List.foldl_append]
    exact ih.extend p

/-! ## The rules -/

section

variable {escaping : Finset Nat} {candidates : List ColumnGrouping} {threshold : ℚ}

/-- The cover `characterizeEscape` chooses from. -/
def scopeCover (kept : List KeptRule) : ScopeCover :=
  ((kept.zipIdx.insertionSort fun a b => reportsBefore b.1.rule a.1.rule = false).insertionSort
    fun a b => coversBefore b.1.rule a.1.rule = false).foldl ScopeCover.extend {}

/-- The order the rules are visited in changes nothing. -/
theorem scopeCover_exact (kept : List KeptRule) : (scopeCover kept).Exact kept.zipIdx := by
  have h := exact_foldl_extend ((kept.zipIdx.insertionSort fun a b =>
    reportsBefore b.1.rule a.1.rule = false).insertionSort fun a b => coversBefore b.1.rule a.1.rule = false)
  have hmem : ∀ p, p ∈ ((kept.zipIdx.insertionSort fun a b =>
      reportsBefore b.1.rule a.1.rule = false).insertionSort
        fun a b => coversBefore b.1.rule a.1.rule = false) ↔ p ∈ kept.zipIdx := fun p =>
    ((List.perm_insertionSort _ _).trans (List.perm_insertionSort _ _)).mem_iff
  constructor
  · intro i
    rw [scopeCover, h.mem_covered]
    simp only [hmem]
  · intro c hc
    obtain ⟨p, hp, hpc⟩ := h.whole_of_cover c hc
    exact ⟨p, (hmem p).mp hp, hpc⟩
  · intro i hi
    obtain ⟨p, hp, hpc⟩ := h.cover_of_covered i hi
    exact ⟨p, (hmem p).mp hp, hpc⟩

/-- What is returned: the kept rules, marked if they are in a cover of everything. -/
theorem mem_characterizeEscape_iff {r : EscapeRule} :
    r ∈ characterizeEscape escaping candidates threshold ↔
      ∃ p ∈ (keptRules escaping candidates threshold).zipIdx, r = { p.1.rule with
        coversScope := decide ((scopeCover (keptRules escaping candidates threshold)).covered.card =
            escaping.card) &&
          (scopeCover (keptRules escaping candidates threshold)).cover.contains p.2 } := by
  unfold characterizeEscape
  dsimp only
  rw [List.mem_map]
  constructor
  · rintro ⟨p, hp, hr⟩
    exact ⟨p, (List.perm_insertionSort _ _).mem_iff.mp hp, hr.symm⟩
  · rintro ⟨p, hp, hr⟩
    exact ⟨p, (List.perm_insertionSort _ _).mem_iff.mpr hp, hr.symm⟩

/-- A kept rule is that of a kept group. -/
theorem exists_group_of_mem_zipIdx {p : KeptRule × Nat}
    (hp : p ∈ (keptRules escaping candidates threshold).zipIdx) :
    ∃ o, IsKeptGroup escaping candidates threshold o ∧ p.1 = ruleOf escaping o :=
  mem_keptRules_iff.mp (List.mem_of_getElem? (List.mem_zipIdx_iff_getElem?.mp hp))

theorem exists_mem_zipIdx {o : ColumnGrouping × Nat} (h : IsKeptGroup escaping candidates threshold o) :
    ∃ i, (ruleOf escaping o, i) ∈ (keptRules escaping candidates threshold).zipIdx := by
  obtain ⟨i, hi⟩ := List.getElem?_of_mem (mem_keptRules_iff.mpr ⟨o, h, rfl⟩)
  exact ⟨i, List.mem_zipIdx_iff_getElem?.mpr hi⟩

/-- The rule of a group says that its value escapes wholly where the group does. -/
theorem ruleOf_whole_iff (o : ColumnGrouping × Nat) :
    (ruleOf escaping o).rule.escaping = (ruleOf escaping o).rule.total ↔ o.1.Whole escaping o.2 :=
  ColumnGrouping.length_escMembers_iff

/-- An instance of a kept group has its value. -/
theorem hasValue_of_groupOf {o : ColumnGrouping × Nat} (h : IsKeptGroup escaping candidates threshold o)
    {i : Nat} (hi : o.1.groupOf i = some o.2) :
    HasValue candidates o.1.column (o.1.groupValue.getD o.2 "") i := by
  obtain ⟨hcand, hlt⟩ := mem_escapeGroups (mem_escapeGroups_of_isKeptGroup h)
  refine ⟨o.1, hcand, rfl, o.2, hi, ?_⟩
  rw [List.getD_eq_getElem?_getD, List.getElem?_eq_getElem hlt]
  rfl

/-- The counts of a rule are those of its value where no instance outside the group has it. -/
theorem total_eq_iff {o : ColumnGrouping × Nat} (h : IsKeptGroup escaping candidates threshold o) :
    (ruleOf escaping o).rule.total =
        {i | HasValue candidates o.1.column (o.1.groupValue.getD o.2 "") i}.ncard ↔
      ∀ i, HasValue candidates o.1.column (o.1.groupValue.getD o.2 "") i → o.1.groupOf i = some o.2 := by
  have hgroup : (ruleOf escaping o).rule.total = {i | o.1.groupOf i = some o.2}.ncard :=
    length_eq_ncard (o.1.nodup_members o.2) fun _ => ColumnGrouping.mem_members
  have hsub : {i | o.1.groupOf i = some o.2} ⊆
      {i | HasValue candidates o.1.column (o.1.groupValue.getD o.2 "") i} := fun i hi =>
    hasValue_of_groupOf h hi
  rw [hgroup]
  constructor
  · intro heq i hi
    have hset := Set.eq_of_subset_of_ncard_le hsub heq.ge (finite_hasValue candidates _ _)
    exact hset.symm.subset hi
  · intro hown
    congr 1
    exact Set.Subset.antisymm hsub hown

/-- A rule is true where its rate is high enough and its value is its own. -/
theorem ruleOf_isTrue_iff {o : ColumnGrouping × Nat} (h : IsKeptGroup escaping candidates threshold o)
    (coversScope : Bool) :
    { (ruleOf escaping o).rule with coversScope := coversScope }.IsTrue escaping candidates threshold ↔
      threshold ≤ o.1.escapeRate escaping o.2 ∧
        ∀ i, HasValue candidates o.1.column (o.1.groupValue.getD o.2 "") i → o.1.groupOf i = some o.2 := by
  constructor
  · rintro ⟨-, htotal, hrate⟩
    exact ⟨hrate, (total_eq_iff h).mp htotal⟩
  · rintro ⟨hrate, hown⟩
    refine ⟨?_, (total_eq_iff h).mpr hown, hrate⟩
    refine length_eq_ncard (o.1.nodup_escMembers escaping o.2) fun i => ?_
    rw [ColumnGrouping.mem_escMembers]
    exact and_congr_left fun _ => ⟨hasValue_of_groupOf h, hown i⟩

/-- Covered is what the whole groups among those kept hold. -/
theorem mem_covered_iff (i : Nat) :
    i ∈ (scopeCover (keptRules escaping candidates threshold)).covered ↔
      i ∈ escaping ∧ ∃ o, IsKeptGroup escaping candidates threshold o ∧ o.1.groupOf i = some o.2 ∧
        o.1.Whole escaping o.2 := by
  rw [(scopeCover_exact _).mem_covered]
  constructor
  · rintro ⟨p, hp, hwhole, hi⟩
    obtain ⟨o, ho, hpo⟩ := exists_group_of_mem_zipIdx hp
    rw [hpo] at hwhole hi
    obtain ⟨hgroup, hesc⟩ := ColumnGrouping.mem_escMembers.mp hi
    exact ⟨hesc, o, ho, hgroup, (ruleOf_whole_iff o).mp hwhole⟩
  · rintro ⟨hesc, o, ho, hgroup, hwhole⟩
    obtain ⟨idx, hidx⟩ := exists_mem_zipIdx ho
    exact ⟨_, hidx, (ruleOf_whole_iff o).mpr hwhole, ColumnGrouping.mem_escMembers.mpr ⟨hgroup, hesc⟩⟩

/-- The counts agree where everything is covered. -/
theorem card_covered_iff :
    (scopeCover (keptRules escaping candidates threshold)).covered.card = escaping.card ↔
      ∀ i ∈ escaping, ∃ o, IsKeptGroup escaping candidates threshold o ∧ o.1.groupOf i = some o.2 ∧
        o.1.Whole escaping o.2 := by
  have hsub : (scopeCover (keptRules escaping candidates threshold)).covered ⊆ escaping := fun i hi =>
    ((mem_covered_iff i).mp hi).1
  constructor
  · intro hcard i hi
    have heq := Finset.eq_of_subset_of_card_le hsub hcard.ge
    exact ((mem_covered_iff i).mp (heq.symm ▸ hi)).2
  · intro h
    congr 1
    exact Finset.Subset.antisymm hsub fun i hi => (mem_covered_iff i).mpr ⟨hi, h i hi⟩

/-- Everything is covered where there is a marked rule, and an escaping instance is then covered by one. -/
theorem covered_of_marked {r : EscapeRule} (hr : r ∈ characterizeEscape escaping candidates threshold)
    (hmarked : r.coversScope = true) :
    (scopeCover (keptRules escaping candidates threshold)).covered.card = escaping.card ∧
      ∃ o, IsKeptGroup escaping candidates threshold o ∧ o.1.Whole escaping o.2 ∧
        r.column = o.1.column ∧ r.value = o.1.groupValue.getD o.2 "" := by
  obtain ⟨p, hp, rfl⟩ := mem_characterizeEscape_iff.mp hr
  obtain ⟨hfull, hcover⟩ := Bool.and_eq_true_iff.mp hmarked
  refine ⟨of_decide_eq_true hfull, ?_⟩
  obtain ⟨q, hq, hidx, hwhole⟩ := (scopeCover_exact _).whole_of_cover p.2 (List.contains_iff_mem.mp hcover)
  -- One place in the list holds one rule.
  have hsame : q.1 = p.1 := by
    have h₁ := List.mem_zipIdx_iff_getElem?.mp hp
    have h₂ := List.mem_zipIdx_iff_getElem?.mp hq
    rw [hidx, h₁] at h₂
    exact (Option.some.inj h₂).symm
  obtain ⟨o, ho, hpo⟩ := exists_group_of_mem_zipIdx hp
  rw [hsame, hpo] at hwhole
  refine ⟨o, ho, (ruleOf_whole_iff o).mp hwhole, ?_, ?_⟩
  · dsimp only
    rw [hpo]
    rfl
  · dsimp only
    rw [hpo]
    rfl

/-- Where everything is covered, each escaping instance has the value of a marked rule. -/
theorem exists_marked_of_mem
    (hfull : (scopeCover (keptRules escaping candidates threshold)).covered.card = escaping.card) {i : Nat}
    (hi : i ∈ escaping) : ∃ r ∈ characterizeEscape escaping candidates threshold, r.coversScope = true ∧
      HasValue candidates r.column r.value i := by
  have hcovered := (mem_covered_iff i).mpr ⟨hi, card_covered_iff.mp hfull i hi⟩
  obtain ⟨p, hp, hidx, hmem⟩ := (scopeCover_exact _).cover_of_covered i hcovered
  obtain ⟨o, ho, hpo⟩ := exists_group_of_mem_zipIdx hp
  refine ⟨_, mem_characterizeEscape_iff.mpr ⟨p, hp, rfl⟩, ?_, ?_⟩
  · exact Bool.and_eq_true_iff.mpr ⟨decide_eq_true hfull, List.contains_iff_mem.mpr hidx⟩
  · dsimp only
    rw [hpo] at hmem ⊢
    exact hasValue_of_groupOf ho (ColumnGrouping.mem_escMembers.mp hmem).1

/-- **The rules are truthful exactly where the groups that are kept are separate from the others.** -/
theorem rulesTruthful_iff (hne : escaping.Nonempty) :
    RulesTruthful escaping candidates threshold (characterizeEscape escaping candidates threshold) ↔
      EscapeGroupsSeparate escaping candidates threshold := by
  have hrule : ∀ o, IsKeptGroup escaping candidates threshold o → ∃ coversScope : Bool,
      { (ruleOf escaping o).rule with coversScope := coversScope } ∈
        characterizeEscape escaping candidates threshold := by
    intro o ho
    obtain ⟨idx, hidx⟩ := exists_mem_zipIdx ho
    exact ⟨_, mem_characterizeEscape_iff.mpr ⟨_, hidx, rfl⟩⟩
  constructor
  · rintro ⟨htrue, -, hmarked⟩
    refine ⟨fun o ho => ?_, fun o ho => ?_, fun hwhole => ?_⟩
    · obtain ⟨c, hc⟩ := hrule o ho
      exact ((ruleOf_isTrue_iff ho c).mp (htrue _ hc)).1
    · obtain ⟨c, hc⟩ := hrule o ho
      exact ((ruleOf_isTrue_iff ho c).mp (htrue _ hc)).2
    · obtain ⟨r, hr, hr'⟩ := hmarked hwhole
      exact card_covered_iff.mp (covered_of_marked hr hr').1
  · rintro ⟨hrate, hown, hkept⟩
    refine ⟨fun r hr => ?_, ?_, fun hwhole => ?_⟩
    · obtain ⟨p, hp, rfl⟩ := mem_characterizeEscape_iff.mp hr
      obtain ⟨o, ho, hpo⟩ := exists_group_of_mem_zipIdx hp
      rw [hpo]
      exact (ruleOf_isTrue_iff ho _).mpr ⟨hrate o ho, hown o ho⟩
    · rintro ⟨r, hr, hr'⟩ i
      constructor
      · exact exists_marked_of_mem (covered_of_marked hr hr').1
      · rintro ⟨r', hmem, hmark, hvalue⟩
        obtain ⟨-, o, ho, hwhole, hcolumn, hval⟩ := covered_of_marked hmem hmark
        rw [hcolumn, hval] at hvalue
        exact hwhole i (hown o ho i hvalue)
    · obtain ⟨i, hi⟩ := hne
      obtain ⟨r, hr, hr', -⟩ := exists_marked_of_mem (card_covered_iff.mpr (hkept hwhole)) hi
      exact ⟨r, hr, hr'⟩

end

/-! ## The variable -/

namespace UnboundedDiagnosisInput

open ColumnLayout

variable {input : UnboundedDiagnosisInput} {v : Nat}

/-- An entry of a variable is one of the ray, at the column of an instance that escapes. -/
theorem mem_entriesOf_iff {p : ℚ × ColumnProvenance} : p ∈ input.entriesOf v ↔
    ∃ inst, input.Escapes v inst ∧ p = (input.rayAt v inst, instanceSlot input.varLabels input.varIsAux v inst) := by
  have hbij := input.indexer.isBijection
  have hexact := buildColumnProvenance_exact input.entitiesOccur input.numRows_pos input.numGlobalVars
    input.varLabels_length input.varIsAux []
  unfold entriesOf escapingColumns
  rw [List.mem_filter, List.mem_filter]
  constructor
  · rintro ⟨⟨hzip, hkeep⟩, hvar⟩
    obtain ⟨col, hcol⟩ := List.getElem?_of_mem hzip
    obtain ⟨hray, hslot⟩ := List.getElem?_zip_eq_some.mp hcol
    have howner : p.2.decideVarIdx = some v := of_decide_eq_true hvar
    have hlt : col < input.indexer.globalBlockStart := by
      by_contra hge
      have hnone := (hexact.globals col p.2 (not_lt.mp hge) hslot).1
      rw [howner] at hnone
      cases hnone
    obtain ⟨w, inst, -, hinst, hcolumn⟩ := hbij.surjective col hlt
    have hread := getElem?_buildColumnProvenance input.entitiesOccur input.numRows_pos input.numGlobalVars
      input.varLabels_length input.varIsAux hinst
    rw [hcolumn, hslot] at hread
    have hp2 := Option.some.inj hread
    rw [hp2] at howner
    cases howner
    have hat : p.1 = input.rayAt v inst := by
      unfold rayAt
      rw [hcolumn, List.getD_eq_getElem?_getD, hray]
      rfl
    refine ⟨inst, ⟨hinst, ?_⟩, Prod.ext hat hp2⟩
    rw [← hat]
    simpa using (Bool.and_eq_true_iff.mp hkeep).1
  · rintro ⟨inst, ⟨hinst, hmove⟩, rfl⟩
    have hread := getElem?_buildColumnProvenance input.entitiesOccur input.numRows_pos input.numGlobalVars
      input.varLabels_length input.varIsAux hinst
    have hpos : (0 : ℚ) ≤ diagnosticRayEpsilon := by
      unfold diagnosticRayEpsilon
      positivity
    have hray : input.ray[input.indexer.instanceColumn v inst]? = some (input.rayAt v inst) := by
      unfold rayAt at hmove ⊢
      rw [List.getD_eq_getElem?_getD] at hmove ⊢
      cases hget : input.ray[input.indexer.instanceColumn v inst]? with
      | some value => rfl
      | none =>
        rw [hget, Option.getD_none, abs_zero] at hmove
        exact absurd hpos (not_le.mpr hmove)
    have hlabel : (input.varLabels.getD v "").isEmpty = false := by
      have hv : v < input.varLabels.length := input.varLabels_length ▸ lt_numVars_of_instance hinst
      have hmem : input.varLabels.getD v "" ∈ input.varLabels := by
        rw [List.getD_eq_getElem?_getD, List.getElem?_eq_getElem hv]
        exact List.getElem_mem hv
      by_contra hempty
      rw [Bool.not_eq_false, String.isEmpty_iff] at hempty
      exact input.varLabels_nonempty (hempty ▸ hmem)
    refine ⟨⟨List.mem_of_getElem? (List.getElem?_zip_eq_some.mpr ⟨hray, hread⟩), ?_⟩, ?_⟩
    · unfold instanceSlot
      dsimp only
      rw [hlabel]
      cases input.varIsAux.getD v false <;> simp [hmove]
    · exact decide_eq_true rfl

theorem mem_instances_iff {inst : Nat} : inst ∈ input.instances v ↔ input.Escapes v inst := by
  unfold instances
  rw [List.mem_toFinset, List.mem_filterMap]
  constructor
  · rintro ⟨p, hp, hinst⟩
    obtain ⟨inst', hesc, rfl⟩ := mem_entriesOf_iff.mp hp
    cases hinst
    exact hesc
  · intro hesc
    exact ⟨_, mem_entriesOf_iff.mpr ⟨inst, hesc, rfl⟩, rfl⟩

/-- A variable something is said of has an instance that escapes. -/
theorem instances_nonempty {ve : VarEscape} (h : input.varEscape v = some ve) :
    (input.instances v).Nonempty := by
  unfold varEscape at h
  cases hentries : input.entriesOf v with
  | nil =>
    rw [hentries] at h
    cases h
  | cons p rest =>
    obtain ⟨inst, hesc, -⟩ := mem_entriesOf_iff.mp (hentries ▸ List.mem_cons_self)
    exact ⟨inst, mem_instances_iff.mpr hesc⟩

/-- The rules of a variable are those found for its instances, if any are asked for. -/
theorem rules_of_varEscape {ve : VarEscape} (h : input.varEscape v = some ve) :
    ve.rules = characterizeEscape (input.instances v) (input.candidates v) input.escapeRate ∨
      ve.rules = [] := by
  unfold varEscape at h
  cases hentries : input.entriesOf v with
  | nil =>
    rw [hentries] at h
    cases h
  | cons p rest =>
    rw [hentries] at h
    cases h
    dsimp only
    split
    · exact .inl rfl
    · exact .inr rfl

/-- The scope of a cap leaves no escaping instance out. -/
theorem scope_covers {ve : VarEscape} (h : input.varEscape v = some ve) {inst : Nat}
    (hesc : input.Escapes v inst) : (prescribeCap ve).scope = [] ∨
      ∃ s ∈ (prescribeCap ve).scope, HasValue (input.candidates v) s.1 s.2 inst := by
  unfold prescribeCap
  dsimp only
  rcases rules_of_varEscape h with hrules | hrules
  · rw [hrules]
    cases hscope : (characterizeEscape (input.instances v) (input.candidates v) input.escapeRate).filter
        (·.coversScope) with
    | nil => exact .inl rfl
    | cons r rest =>
      obtain ⟨hr, hr'⟩ := List.mem_filter.mp (hscope ▸ List.mem_cons_self : r ∈
        (characterizeEscape (input.instances v) (input.candidates v) input.escapeRate).filter (·.coversScope))
      obtain ⟨r', hmem, hmark, hvalue⟩ := exists_marked_of_mem (covered_of_marked hr hr').1
        (mem_instances_iff.mpr hesc)
      refine .inr ⟨(r'.column, r'.value), List.mem_map.mpr ⟨r', ?_, rfl⟩, hvalue⟩
      rw [← hscope]
      exact List.mem_filter.mpr ⟨hmem, hmark⟩
  · rw [hrules]
    exact .inl rfl

end UnboundedDiagnosisInput

/-- **The rules of a variable are truthful and its cap stops what runs away, exactly where the groups that
are kept are separate and every instance escapes upward.** -/
theorem escape_truthful_iff (input : UnboundedDiagnosisInput) {v : Nat} {ve : VarEscape}
    (h : input.varEscape v = some ve) :
    (RulesTruthful (input.instances v) (input.candidates v) input.escapeRate
        (characterizeEscape (input.instances v) (input.candidates v) input.escapeRate) ∧
      ∀ inst, input.Escapes v inst →
        (prescribeCap ve).Restricts (input.candidates v) inst (input.directionOf v inst)) ↔
      EscapeGroupsSeparate (input.instances v) (input.candidates v) input.escapeRate ∧
        ∀ inst, input.Escapes v inst → 0 < input.rayAt v inst := by
  refine and_congr (rulesTruthful_iff (UnboundedDiagnosisInput.instances_nonempty h)) ?_
  refine forall_congr' fun inst => forall_congr' fun hesc => ?_
  have hdirection : input.directionOf v inst = .positive ↔ 0 < input.rayAt v inst := by
    unfold UnboundedDiagnosisInput.directionOf
    by_cases hpos : 0 < input.rayAt v inst <;> simp [hpos]
  unfold EscapeCap.Restricts
  rw [hdirection]
  exact and_iff_left (UnboundedDiagnosisInput.scope_covers h hesc)

/-- Three rows of which two escape: they are those of region B, and two of the three of size L. The clause
speaks of the size. -/
def displacedInput : UnboundedDiagnosisInput where
  ray := [1, 1, 0]
  indexer := ⟨3, [.row], by simp⟩
  numGlobalVars := 0
  varLabels := ["x"]
  varIsAux := [false]
  escapeRate := 3 / 5
  getCandidates := some fun _ _ =>
    [⟨"region", [some 0, some 0, some 1], ["B", "A"], false⟩, ⟨"size", [some 0, some 0, some 0], ["L"], true⟩]
  numRows_pos := by decide
  entitiesOccur := by
    intro mapping h
    simp at h
  varLabels_length := rfl
  varLabels_nonempty := by decide
  escapeRate_pos := by norm_num
  escapeRate_le := by norm_num

theorem exists_varEscape_displacedInput : ∃ ve, displacedInput.varEscape 0 = some ve :=
  Option.isSome_iff_exists.mp (by decide +kernel)

theorem escape_truthful_iff_displacedInput : ∃ ve, displacedInput.varEscape 0 = some ve ∧
    ((RulesTruthful (displacedInput.instances 0) (displacedInput.candidates 0) displacedInput.escapeRate
        (characterizeEscape (displacedInput.instances 0) (displacedInput.candidates 0)
          displacedInput.escapeRate) ∧
      ∀ inst, displacedInput.Escapes 0 inst →
        (prescribeCap ve).Restricts (displacedInput.candidates 0) inst (displacedInput.directionOf 0 inst)) ↔
      EscapeGroupsSeparate (displacedInput.instances 0) (displacedInput.candidates 0)
          displacedInput.escapeRate ∧
        ∀ inst, displacedInput.Escapes 0 inst → 0 < displacedInput.rayAt 0 inst) := by
  obtain ⟨ve, hve⟩ := exists_varEscape_displacedInput
  exact ⟨ve, hve, escape_truthful_iff displacedInput hve⟩

/-- The rule of the size displaces that of the region, and no rule is left to scope the cap. -/
theorem not_escape_truthful : ¬ ∀ (input : UnboundedDiagnosisInput) (v : Nat) (ve : VarEscape),
    input.varEscape v = some ve →
      RulesTruthful (input.instances v) (input.candidates v) input.escapeRate
          (characterizeEscape (input.instances v) (input.candidates v) input.escapeRate) ∧
        ∀ inst, input.Escapes v inst →
          (prescribeCap ve).Restricts (input.candidates v) inst (input.directionOf v inst) := by
  intro h
  obtain ⟨ve, hve⟩ := exists_varEscape_displacedInput
  have hinstances : displacedInput.instances 0 = {0, 1} := by decide +kernel
  have hcover : WholeGroupsCover (displacedInput.instances 0) (displacedInput.candidates 0) := by
    intro i hi
    refine ⟨_, List.mem_cons_self, 0, ?_, ?_⟩
    · rw [hinstances] at hi
      rcases Finset.mem_insert.mp hi with rfl | hi
      · rfl
      · rw [Finset.mem_singleton.mp hi]
        rfl
    · intro j hj
      rw [hinstances]
      obtain ⟨hlt, -⟩ := ColumnGrouping.groupOf_lt hj
      match j, hj, hlt with
      | 0, _, _ => decide
      | 1, _, _ => decide
      | 2, hj, _ => cases hj
  obtain ⟨r, hr, hmarked⟩ := (h displacedInput 0 ve hve).1.marked hcover
  have hnone : ∀ r ∈ characterizeEscape (displacedInput.instances 0) (displacedInput.candidates 0)
      displacedInput.escapeRate, r.coversScope = false := by
    decide +kernel
  rw [hnone r hr] at hmarked
  cases hmarked

end Decidb
