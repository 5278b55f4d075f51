import Decidb.Formulation.Bilinear

/-!
# Absorbed bounds and the boxes they make

What a comparison absorbed into a column box says of the column, against what it says as a row, and
the box the model declares from all of them.
-/

namespace Decidb

open Linear

/-! ## The absorbed box -/

/-- The upper bound a comparison is absorbed as. -/
def upperSide (type : VarType) (c : Comparison × ℚ) : Option ℚ :=
  match c.1 with
  | .le | .eq => some c.2
  | .lt => if type ≠ .real then some (c.2 - 1) else none
  | _ => none

/-- The lower bound a comparison is absorbed as. -/
def lowerSide (type : VarType) (c : Comparison × ℚ) : Option ℚ :=
  match c.1 with
  | .ge | .eq => some c.2
  | .gt => if type ≠ .real then some (c.2 + 1) else none
  | _ => none

/-- The upper bounds absorbed from some comparisons. -/
def upperSides (type : VarType) (cs : List (Comparison × ℚ)) : List ℚ :=
  cs.filterMap (upperSide type)

/-- The lower bounds absorbed from some comparisons. -/
def lowerSides (type : VarType) (cs : List (Comparison × ℚ)) : List ℚ :=
  cs.filterMap (lowerSide type)

theorem absorbStep_upper (type : VarType) (box : AbsorbedBox) (c : Comparison × ℚ) (v : ℚ) :
    v ≤ ((absorbComparison type box c.1 c.2).getD box).upper ↔
      v ≤ box.upper ∧ ∀ u, upperSide type c = some u → v ≤ u := by
  obtain ⟨cmp, k⟩ := c
  cases cmp with
  | ne => simp [absorbComparison, upperSide]
  | lt => by_cases h : type ≠ .real <;> simp [absorbComparison, upperSide, AbsorbedBox.absorb, h]
  | gt => by_cases h : type ≠ .real <;> simp [absorbComparison, upperSide, AbsorbedBox.absorb, h]
  | le | eq | ge => simp [absorbComparison, upperSide, AbsorbedBox.absorb]

theorem absorbStep_lower (type : VarType) (box : AbsorbedBox) (c : Comparison × ℚ) (v : ℚ) :
    ((absorbComparison type box c.1 c.2).getD box).lower ≤ v ↔
      box.lower ≤ v ∧ ∀ l, lowerSide type c = some l → l ≤ v := by
  obtain ⟨cmp, k⟩ := c
  cases cmp with
  | ne => simp [absorbComparison, lowerSide]
  | lt => by_cases h : type ≠ .real <;> simp [absorbComparison, lowerSide, AbsorbedBox.absorb, h]
  | gt => by_cases h : type ≠ .real <;> simp [absorbComparison, lowerSide, AbsorbedBox.absorb, h]
  | le | eq | ge => simp [absorbComparison, lowerSide, AbsorbedBox.absorb]

/-- The absorbed upper end is the least of the bounds and the seed. -/
theorem le_absorbed_upper (type : VarType) (cs : List (Comparison × ℚ)) (v : ℚ) :
    v ≤ (absorbBounds type cs).upper ↔
      v ≤ (AbsorbedBox.seed type).upper ∧ ∀ u ∈ upperSides type cs, v ≤ u := by
  unfold absorbBounds upperSides
  generalize AbsorbedBox.seed type = box
  induction cs generalizing box with
  | nil => simp
  | cons c cs ih =>
    rw [List.foldl_cons, ih, absorbStep_upper, List.filterMap_cons]
    cases h : upperSide type c <;> simp [and_assoc]

/-- The absorbed lower end is the greatest of the bounds and the seed. -/
theorem absorbed_lower_le (type : VarType) (cs : List (Comparison × ℚ)) (v : ℚ) :
    (absorbBounds type cs).lower ≤ v ↔
      absorbedLowerUnset ≤ v ∧ ∀ l ∈ lowerSides type cs, l ≤ v := by
  have hseed : (AbsorbedBox.seed type).lower = absorbedLowerUnset := rfl
  unfold absorbBounds lowerSides
  rw [← hseed]
  clear hseed
  generalize AbsorbedBox.seed type = box
  induction cs generalizing box with
  | nil => simp
  | cons c cs ih =>
    rw [List.foldl_cons]
    refine (ih _).trans ?_
    rw [absorbStep_lower, List.filterMap_cons]
    cases h : lowerSide type c <;> simp [and_assoc]

/-- Some comparison gives the variable a lower end. -/
def Lowered (type : VarType) (cs : List (Comparison × ℚ)) : Prop :=
  ∃ l ∈ lowerSides type cs, absorbedLowerUnset < l

instance (type : VarType) (cs : List (Comparison × ℚ)) : Decidable (Lowered type cs) :=
  inferInstanceAs (Decidable (∃ l ∈ lowerSides type cs, absorbedLowerUnset < l))

/-- The resolved lower end is the absorbed one where the variable was lowered, and zero elsewhere. -/
theorem resolvedLower_le (type : VarType) (cs : List (Comparison × ℚ)) (v : ℚ) :
    resolveLower (absorbBounds type cs).lower ≤ v ↔
      if Lowered type cs then ∀ l ∈ lowerSides type cs, l ≤ v else 0 ≤ v := by
  have hunset := absorbed_lower_le type cs absorbedLowerUnset
  unfold resolveLower
  by_cases h : Lowered type cs
  · obtain ⟨l, hl, hlt⟩ := h
    have hnot : ¬ (absorbBounds type cs).lower ≤ absorbedLowerUnset := fun hle =>
      absurd ((hunset.mp hle).2 l hl) (not_le.mpr hlt)
    rw [if_neg hnot, if_pos ⟨l, hl, hlt⟩, absorbed_lower_le]
    exact ⟨fun h => h.2, fun h => ⟨hlt.le.trans (h l hl), h⟩⟩
  · have hle : (absorbBounds type cs).lower ≤ absorbedLowerUnset :=
      hunset.mpr ⟨le_rfl, fun l hl => not_lt.mp fun hlt => h ⟨l, hl, hlt⟩⟩
    rw [if_pos hle, if_neg h]

/-- The product meets every comparison that was absorbed. -/
def MeetsAbsorbed (type : VarType) (cs : List (Comparison × ℚ)) (v : ℚ) : Prop :=
  ∀ c ∈ cs, isAbsorbed type c = true → c.1.Holds v (.fin c.2)

/-- The sides that comparisons are absorbed as are at least as strong as the comparisons. -/
theorem meetsAbsorbed_of_sides {type : VarType} {cs : List (Comparison × ℚ)} {v : ℚ}
    (hup : ∀ u ∈ upperSides type cs, v ≤ u) (hlow : ∀ l ∈ lowerSides type cs, l ≤ v) :
    MeetsAbsorbed type cs v := by
  rintro ⟨cmp, k⟩ hc habs
  have hu : ∀ u, upperSide type (cmp, k) = some u → v ≤ u := fun u h =>
    hup u (List.mem_filterMap.mpr ⟨_, hc, h⟩)
  have hl : ∀ l, lowerSide type (cmp, k) = some l → l ≤ v := fun l h =>
    hlow l (List.mem_filterMap.mpr ⟨_, hc, h⟩)
  cases cmp with
  | ne => simp [isAbsorbed] at habs
  | le => simpa using hu k rfl
  | ge => simpa using hl k rfl
  | eq => simpa using le_antisymm (hu k rfl) (hl k rfl)
  | lt =>
    have hint : type ≠ .real := by simpa [isAbsorbed] using habs
    have := hu (k - 1) (by simp [upperSide, hint])
    simp only [Comparison.holds_lt, Bound.fin_lt_fin]
    linarith
  | gt =>
    have hint : type ≠ .real := by simpa [isAbsorbed] using habs
    have := hl (k + 1) (by simp [lowerSide, hint])
    simp only [Comparison.holds_gt, Bound.fin_lt_fin]
    linarith

/-! ## The pass over a tree -/

/-- The comparison is one the pass can absorb. -/
def Absorbable (types : List VarType) (c : BoundComparison) : Prop :=
  ∃ v type b, types[v]? = some type ∧ c.boundOn v = some b ∧ isAbsorbed type b = true

theorem boundOn_eq_some {c : BoundComparison} {v : Nat} {b : Comparison × ℚ} :
    c.boundOn v = some b ↔ c.target = some v ∧ c.literal = some (.fin b.2) ∧ c.cmp = b.1 := by
  unfold BoundComparison.boundOn
  obtain ⟨cmp, k⟩ := b
  by_cases ht : c.target = some v
  · rw [if_pos ht]
    cases hl : c.literal with
    | none => simp
    | some l =>
      cases l with
      | fin k' =>
        simp only [Option.some.injEq, Prod.mk.injEq, Bound.fin.injEq, ht, true_and]
        exact and_comm
      | negInf | posInf => simp
  · simp [ht]

theorem absorbComparison_isSome (type : VarType) (box : AbsorbedBox) (b : Comparison × ℚ) :
    (absorbComparison type box b.1 b.2).isSome = isAbsorbed type b := by
  obtain ⟨cmp, k⟩ := b
  cases cmp with
  | lt | gt => by_cases h : type = .real <;> simp [absorbComparison, isAbsorbed, h]
  | le | ge | eq | ne => rfl

/-- One comparison: the tag says whether it is absorbed, and only the box of its variable changes. -/
theorem absorbBoundComparison_spec {types : List VarType} {boxes : List AbsorbedBox}
    (hlen : boxes.length = types.length) (c : BoundComparison) :
    ((absorbBoundComparison types boxes c).2 = true ↔ Absorbable types c) ∧
      (absorbBoundComparison types boxes c).1.length = boxes.length ∧
      ∀ v type, types[v]? = some type → (absorbBoundComparison types boxes c).1[v]? =
        boxes[v]?.map fun box =>
          ((c.boundOn v).toList.foldl
            (fun box b => (absorbComparison type box b.1 b.2).getD box) box) := by
  unfold absorbBoundComparison
  cases ht : c.target with
  | none =>
    refine ⟨⟨fun h => by simp at h, ?_⟩, rfl, fun v type _ => ?_⟩
    · rintro ⟨v, type, b, -, hb, -⟩
      rw [(boundOn_eq_some.mp hb).1] at ht
      cases ht
    · have hnone : c.boundOn v = none := by simp [BoundComparison.boundOn, ht]
      simp [hnone]
  | some v₀ =>
    cases hl : c.literal with
    | none =>
      refine ⟨⟨fun h => by simp at h, ?_⟩, rfl, fun v type _ => ?_⟩
      · rintro ⟨v, type, b, -, hb, -⟩
        rw [(boundOn_eq_some.mp hb).2.1] at hl
        cases hl
      · have hnone : c.boundOn v = none := by simp [BoundComparison.boundOn, hl]
        simp [hnone]
    | some l =>
      cases l with
      | negInf | posInf =>
        refine ⟨⟨fun h => by simp at h, ?_⟩, rfl, fun v type _ => ?_⟩
        · rintro ⟨v, type, b, -, hb, -⟩
          rw [(boundOn_eq_some.mp hb).2.1] at hl
          cases hl
        · have hnone : c.boundOn v = none := by simp [BoundComparison.boundOn, hl]
          simp [hnone]
      | fin k =>
        have hbound : ∀ v, c.boundOn v = if v₀ = v then some (c.cmp, k) else none := by
          intro v
          simp [BoundComparison.boundOn, ht, hl]
        cases htype : types[v₀]? with
        | none =>
          refine ⟨⟨fun h => by simp [htype] at h, ?_⟩, by simp [htype], fun v type hv => ?_⟩
          · rintro ⟨v, type, b, hv, hb, -⟩
            rw [hbound] at hb
            split at hb
            · rename_i heq
              rw [← heq, htype] at hv
              cases hv
            · cases hb
          · have hne : v₀ ≠ v := fun heq => by rw [heq, hv] at htype; cases htype
            simp [htype, hbound, hne]
        | some type₀ =>
          have hlt : v₀ < boxes.length := by
            rw [hlen]
            exact (List.getElem?_eq_some_iff.mp htype).1
          have hbox : boxes[v₀]? = some boxes[v₀] := List.getElem?_eq_getElem hlt
          have hsome := absorbComparison_isSome type₀ boxes[v₀] (c.cmp, k)
          have habs : Absorbable types c ↔ isAbsorbed type₀ (c.cmp, k) = true := by
            constructor
            · rintro ⟨v, type, b, hv, hb, habs⟩
              rw [hbound] at hb
              split at hb
              · rename_i heq
                obtain rfl := Option.some.inj hb
                rw [← heq, htype] at hv
                rwa [Option.some.inj hv]
              · cases hb
            · intro h
              exact ⟨v₀, type₀, (c.cmp, k), htype, by simp [hbound], h⟩
          rw [habs]
          simp only [htype, hbox]
          cases hcase : absorbComparison type₀ boxes[v₀] c.cmp k with
          | none =>
            rw [hcase] at hsome
            refine ⟨by simp [← hsome], rfl, fun v type hv => ?_⟩
            by_cases heq : v₀ = v
            · subst heq
              obtain rfl := Option.some.inj (htype.symm.trans hv)
              simp [hbound, hbox, hcase]
            · simp [hbound, heq]
          | some box =>
            rw [hcase] at hsome
            refine ⟨by simp [← hsome], by simp, fun v type hv => ?_⟩
            by_cases heq : v₀ = v
            · subst heq
              obtain rfl := Option.some.inj (htype.symm.trans hv)
              simp [hbound, hbox, hcase, List.getElem?_set_self hlt]
            · simp [hbound, heq, List.getElem?_set_ne heq]

/-- The bounds on a variable that are under no WHEN. -/
def boundsOn (v : Nat) : ConstraintTree BoundComparison → List (Comparison × ℚ)
  | .comparison c => (c.boundOn v).toList
  | .conjunction l r => boundsOn v l ++ boundsOn v r
  | .when _ _ => []
  | .per t _ => boundsOn v t
  | .placeholder => []

/-- The pass folds the bounds on each variable into its box, in order. -/
theorem absorbBoundsInExpression_boxes (types : List VarType) (t : ConstraintTree BoundComparison) :
    ∀ boxes : List AbsorbedBox, boxes.length = types.length →
      (absorbBoundsInExpression types t boxes).1.length = types.length ∧
        ∀ v type, types[v]? = some type → (absorbBoundsInExpression types t boxes).1[v]? =
          boxes[v]?.map fun box => (boundsOn v t).foldl
            (fun box b => (absorbComparison type box b.1 b.2).getD box) box := by
  induction t with
  | comparison c =>
    intro boxes hlen
    obtain ⟨-, hlen', hbox⟩ := absorbBoundComparison_spec hlen c
    exact ⟨hlen'.trans hlen, hbox⟩
  | placeholder => intro boxes hlen; exact ⟨hlen, fun v type _ => by
      simp [absorbBoundsInExpression, boundsOn]⟩
  | «when» t m ih => intro boxes hlen; exact ⟨hlen, fun v type _ => by
      simp [absorbBoundsInExpression, boundsOn]⟩
  | per t k ih => intro boxes hlen; exact ih boxes hlen
  | conjunction l r ihl ihr =>
    intro boxes hlen
    obtain ⟨hl, hlbox⟩ := ihl boxes hlen
    obtain ⟨hr, hrbox⟩ := ihr _ hl
    refine ⟨hr, fun v type hv => ?_⟩
    change (absorbBoundsInExpression types r (absorbBoundsInExpression types l boxes).1).1[v]? = _
    rw [hrbox v type hv, hlbox v type hv, Option.map_map]
    congr 1
    funext box
    simp [boundsOn, List.foldl_append]

/-- What is written under a WHEN is under one condition more. -/
theorem whenConditions_ne_of_mem_when {t : ConstraintTree BoundComparison} {m : RowMask}
    {path₀ : List Enclosure} {leaf : BoundComparison × List Enclosure}
    (h : leaf ∈ (ConstraintTree.when t m).leaves path₀) :
    whenConditions leaf.2 ≠ whenConditions path₀ := by
  have hmem : leaf ∈ t.leaves (path₀ ++ [.when m]) := h
  obtain ⟨suffix, hs⟩ := exists_suffix_of_mem_leaves hmem
  rw [hs, whenConditions_append, whenConditions_append, List.append_assoc]
  intro heq
  cases List.append_right_eq_self.mp heq

/-- **The pass tags the comparisons that are absorbed and under no WHEN.** -/
theorem mem_leaves_absorbed {types : List VarType} {t : ConstraintTree BoundComparison} :
    ∀ {boxes : List AbsorbedBox} (path₀ : List Enclosure), boxes.length = types.length →
      ∀ (c : BoundComparison) (path : List Enclosure),
        ((c, true), path) ∈ (absorbBoundsInExpression types t boxes).2.leaves path₀ ↔
          (c, path) ∈ t.leaves path₀ ∧ whenConditions path = whenConditions path₀ ∧
            Absorbable types c := by
  induction t with
  | comparison c₀ =>
    intro boxes path₀ hlen c path
    have htag := (absorbBoundComparison_spec hlen c₀).1
    change ((c, true), path) ∈ [((c₀, (absorbBoundComparison types boxes c₀).2), path₀)] ↔
      (c, path) ∈ [(c₀, path₀)] ∧ _
    simp only [List.mem_singleton, Prod.mk.injEq]
    constructor
    · rintro ⟨⟨rfl, htrue⟩, rfl⟩
      exact ⟨⟨rfl, rfl⟩, rfl, htag.mp htrue.symm⟩
    · rintro ⟨⟨rfl, rfl⟩, -, habs⟩
      exact ⟨⟨rfl, (htag.mpr habs).symm⟩, rfl⟩
  | placeholder =>
    intro boxes path₀ _ c path
    simp [absorbBoundsInExpression, ConstraintTree.leaves]
  | «when» t m ih =>
    intro boxes path₀ _ c path
    constructor
    · intro h
      change ((c, true), path) ∈ (t.mapLeaves fun c => (c, false)).leaves (path₀ ++ [.when m]) at h
      rw [leaves_mapLeaves] at h
      obtain ⟨leaf, -, heq⟩ := List.mem_map.mp h
      cases congrArg (fun l => l.1.2) heq
    · rintro ⟨h, hw, -⟩
      exact absurd hw (whenConditions_ne_of_mem_when h)
  | per t k ih =>
    intro boxes path₀ hlen c path
    have h := ih (path₀ ++ [.per k]) hlen c path
    rw [whenConditions_append, show whenConditions [Enclosure.per k] = [] from rfl,
      List.append_nil] at h
    exact h
  | conjunction l r ihl ihr =>
    intro boxes path₀ hlen c path
    have hl := ihl (path₀ ++ [.conjunction]) hlen c path
    have hr := ihr (path₀ ++ [.conjunction])
      (absorbBoundsInExpression_boxes types l boxes hlen).1 c path
    rw [whenConditions_append, show whenConditions [Enclosure.conjunction] = [] from rfl,
      List.append_nil] at hl hr
    change _ ∈ _ ++ _ ↔ _ ∈ _ ++ _ ∧ _
    rw [List.mem_append, List.mem_append, hl, hr]
    tauto

theorem mem_boundsOn {v : Nat} {b : Comparison × ℚ} {t : ConstraintTree BoundComparison} :
    ∀ path₀ : List Enclosure, b ∈ boundsOn v t ↔
      ∃ c path, (c, path) ∈ t.leaves path₀ ∧ whenConditions path = whenConditions path₀ ∧
        c.boundOn v = some b := by
  induction t with
  | comparison c₀ =>
    intro path₀
    change b ∈ (c₀.boundOn v).toList ↔ _
    rw [Option.mem_toList]
    constructor
    · intro h
      exact ⟨c₀, path₀, List.mem_singleton.mpr rfl, rfl, h⟩
    · rintro ⟨c, path, h, -, hb⟩
      cases List.mem_singleton.mp h
      exact hb
  | placeholder => intro path₀; simp [boundsOn, ConstraintTree.leaves]
  | «when» t m ih =>
    intro path₀
    constructor
    · intro h
      cases h
    · rintro ⟨c, path, h, hw, -⟩
      exact absurd hw (whenConditions_ne_of_mem_when h)
  | per t k ih =>
    intro path₀
    have h := ih (path₀ ++ [.per k])
    rw [whenConditions_append, show whenConditions [Enclosure.per k] = [] from rfl,
      List.append_nil] at h
    exact h
  | conjunction l r ihl ihr =>
    intro path₀
    have hl := ihl (path₀ ++ [.conjunction])
    have hr := ihr (path₀ ++ [.conjunction])
    rw [whenConditions_append, show whenConditions [Enclosure.conjunction] = [] from rfl,
      List.append_nil] at hl hr
    change b ∈ boundsOn v l ++ boundsOn v r ↔ ∃ c path, _ ∈ _ ++ _ ∧ _
    rw [List.mem_append, hl, hr]
    simp only [List.mem_append, or_and_right, exists_or]

/-! ## Absorbed comparisons against rows -/

/-- The values a type admits. -/
def OnLattice (type : VarType) (x : ℚ) : Prop :=
  match type with
  | .real => True
  | .integer => x.den = 1
  | .boolean => x = 0 ∨ x = 1

/-- The value lies in the interval a comparison is absorbed as. -/
def InAbsorbed (type : VarType) (b : Comparison × ℚ) (x : ℚ) : Prop :=
  (∀ u, upperSide type b = some u → x ≤ u) ∧ ∀ l, lowerSide type b = some l → l ≤ x

/-- A strict comparison that moves by one over no value of the type. -/
def StrictLiteralExact (type : VarType) (b : Comparison × ℚ) : Prop :=
  match type, b.1 with
  | .integer, .lt => b.2.den = 1
  | .integer, .gt => b.2.den = 1
  | .boolean, .lt => b.2 ≤ 0 ∨ b.2 = 1 ∨ 2 ≤ b.2
  | .boolean, .gt => b.2 ≤ -1 ∨ b.2 = 0 ∨ 1 ≤ b.2
  | _, _ => True

theorem integer_lt_iff {k : ℚ} :
    (∀ x, OnLattice .integer x → (Comparison.lt.Holds x (.fin k) ↔
      InAbsorbed .integer (.lt, k) x)) ↔ k.den = 1 := by
  have hread : ∀ x, InAbsorbed .integer (.lt, k) x ↔ x ≤ k - 1 := fun x => by
    simp [InAbsorbed, upperSide, lowerSide]
  simp only [hread, Comparison.holds_lt, Bound.fin_lt_fin]
  constructor
  · -- the integer just below `k` is the one the step by one may skip
    intro h
    have hceil := (h (⌈k⌉ - 1 : ℤ) (Rat.den_intCast _)).mp (by
      push_cast
      linarith [Int.ceil_lt_add_one k])
    push_cast at hceil
    have heq : k = (⌈k⌉ : ℤ) := le_antisymm (Int.le_ceil k) (by linarith)
    rw [heq]
    exact Rat.den_intCast _
  · intro hk x hx
    obtain ⟨n, rfl⟩ : ∃ n : ℤ, x = n := ⟨x.num, ((Rat.den_eq_one_iff x).mp hx).symm⟩
    obtain ⟨m, rfl⟩ : ∃ m : ℤ, k = m := ⟨k.num, ((Rat.den_eq_one_iff k).mp hk).symm⟩
    norm_cast
    omega

theorem integer_gt_iff {k : ℚ} :
    (∀ x, OnLattice .integer x → (Comparison.gt.Holds x (.fin k) ↔
      InAbsorbed .integer (.gt, k) x)) ↔ k.den = 1 := by
  have hread : ∀ x, InAbsorbed .integer (.gt, k) x ↔ k + 1 ≤ x := fun x => by
    simp [InAbsorbed, upperSide, lowerSide]
  simp only [hread, Comparison.holds_gt, Bound.fin_lt_fin]
  constructor
  · intro h
    have hfloor := (h (⌊k⌋ + 1 : ℤ) (Rat.den_intCast _)).mp (by
      push_cast
      exact Int.lt_floor_add_one k)
    push_cast at hfloor
    have heq : k = (⌊k⌋ : ℤ) := le_antisymm (by linarith) (Int.floor_le k)
    rw [heq]
    exact Rat.den_intCast _
  · intro hk x hx
    obtain ⟨n, rfl⟩ : ∃ n : ℤ, x = n := ⟨x.num, ((Rat.den_eq_one_iff x).mp hx).symm⟩
    obtain ⟨m, rfl⟩ : ∃ m : ℤ, k = m := ⟨k.num, ((Rat.den_eq_one_iff k).mp hk).symm⟩
    norm_cast

theorem boolean_lt_iff {k : ℚ} :
    (∀ x, OnLattice .boolean x → (Comparison.lt.Holds x (.fin k) ↔
      InAbsorbed .boolean (.lt, k) x)) ↔ k ≤ 0 ∨ k = 1 ∨ 2 ≤ k := by
  have hread : ∀ x, InAbsorbed .boolean (.lt, k) x ↔ x ≤ k - 1 := fun x => by
    simp [InAbsorbed, upperSide, lowerSide]
  simp only [hread, Comparison.holds_lt, Bound.fin_lt_fin, OnLattice, forall_eq_or_imp, forall_eq]
  constructor
  · rintro ⟨hzero, hone⟩
    by_cases h0 : k ≤ 0
    · exact .inl h0
    · have h1 : 1 ≤ k := by linarith [hzero.mp (not_le.mp h0)]
      rcases h1.eq_or_lt with h | h
      · exact .inr (.inl h.symm)
      · exact .inr (.inr (by linarith [hone.mp h]))
  · rintro (h | rfl | h)
    · exact ⟨by constructor <;> intro <;> linarith, by constructor <;> intro <;> linarith⟩
    · norm_num
    · exact ⟨by constructor <;> intro <;> linarith, by constructor <;> intro <;> linarith⟩

theorem boolean_gt_iff {k : ℚ} :
    (∀ x, OnLattice .boolean x → (Comparison.gt.Holds x (.fin k) ↔
      InAbsorbed .boolean (.gt, k) x)) ↔ k ≤ -1 ∨ k = 0 ∨ 1 ≤ k := by
  have hread : ∀ x, InAbsorbed .boolean (.gt, k) x ↔ k + 1 ≤ x := fun x => by
    simp [InAbsorbed, upperSide, lowerSide]
  simp only [hread, Comparison.holds_gt, Bound.fin_lt_fin, OnLattice, forall_eq_or_imp, forall_eq]
  constructor
  · rintro ⟨hzero, hone⟩
    by_cases h1 : 1 ≤ k
    · exact .inr (.inr h1)
    · have h0 : k ≤ 0 := by linarith [hone.mp (not_le.mp h1)]
      rcases h0.eq_or_lt with h | h
      · exact .inr (.inl h)
      · exact .inl (by linarith [hzero.mp h])
  · rintro (h | rfl | h)
    · exact ⟨by constructor <;> intro <;> linarith, by constructor <;> intro <;> linarith⟩
    · norm_num
    · exact ⟨by constructor <;> intro <;> linarith, by constructor <;> intro <;> linarith⟩

/-- **An absorbed comparison is its interval on the lattice of its type exactly when a strict literal
does not skip a value.** -/
theorem inAbsorbed_iff {type : VarType} {b : Comparison × ℚ} (habs : isAbsorbed type b = true) :
    (∀ x, OnLattice type x → (b.1.Holds x (.fin b.2) ↔ InAbsorbed type b x)) ↔
      StrictLiteralExact type b := by
  obtain ⟨cmp, k⟩ := b
  cases cmp with
  | ne => cases habs
  | le => cases type <;> simp [InAbsorbed, upperSide, lowerSide, StrictLiteralExact]
  | ge => cases type <;> simp [InAbsorbed, upperSide, lowerSide, StrictLiteralExact]
  | eq =>
    have h : ∀ x, Comparison.eq.Holds x (.fin k) ↔ InAbsorbed type (.eq, k) x := fun x => by
      simp only [InAbsorbed, upperSide, lowerSide, Option.some.injEq, forall_eq', Comparison.holds_eq,
        Bound.fin.injEq]
      exact le_antisymm_iff
    cases type <;> exact iff_of_true (fun x _ => h x) trivial
  | lt =>
    cases type with
    | real => cases habs
    | integer => exact integer_lt_iff
    | boolean => exact boolean_lt_iff
  | gt =>
    cases type with
    | real => cases habs
    | integer => exact integer_gt_iff
    | boolean => exact boolean_gt_iff

/-! ## The column of a variable -/

/-- The ends `SolverModel::Build` gives the column of a variable. -/
def columnEnds (input : SolverInput) (v : Nat) : ℚ × ℚ :=
  let ceiling : ℚ := if input.variableTypes[v]? = some .boolean then 1 else openBound
  (input.lowerBounds.getD v 0, min ceiling (input.upperBounds.getD v openBound))

theorem builtColumnBox_ends {input : SolverInput} {v : Nat} {box : ColumnBox}
    (h : builtColumnBox input v = .ok box) : (box.lower, box.upper) = columnEnds input v := by
  have hsplit : builtColumnBox input v =
      if (columnEnds input v).2 < (columnEnds input v).1 then
        .error ("DECIDE optimization is infeasible: a decision variable has conflicting lower and " ++
          "upper bounds.")
      else .ok ⟨(columnEnds input v).1, (columnEnds input v).2,
        input.variableTypes[v]? ≠ some .real⟩ := rfl
  rw [hsplit] at h
  by_cases hcross : (columnEnds input v).2 < (columnEnds input v).1
  · rw [if_pos hcross] at h
    cases h
  · rw [if_neg hcross] at h
    rw [← Except.ok.inj h]

theorem columnEnds_assembledInput {numRows : Nat} {vars : List DecideVariable}
    {constraints : List EvaluatedConstraint} {v : Nat} {d : DecideVariable} (hd : vars[v]? = some d) :
    columnEnds (assembledInput numRows vars constraints) v =
      (resolveLower d.box.lower, min (if d.type = .boolean then 1 else openBound) d.box.upper) := by
  simp [columnEnds, assembledInput, List.getD, List.getElem?_map, hd]

/-- The input of a query whose clause is absorbed into the boxes of its declared variables. -/
def absorbedInput (numRows : Nat) (declared : List (String × VarType))
    (t : ConstraintTree BoundComparison) : SolverInput :=
  assembledInput numRows
    (List.zipWith (fun (d : String × VarType) box => ⟨d.1, d.2, box⟩) declared
      (absorbVariableBounds (declared.map (·.2)) t).1) []

/-- The absorbed box of a variable is the fold of the bounds on it that are under no WHEN. -/
theorem absorbVariableBounds_box {types : List VarType} {t : ConstraintTree BoundComparison} {v : Nat}
    {type : VarType} (hv : types[v]? = some type) :
    (absorbVariableBounds types t).1[v]? = some (absorbBounds type (boundsOn v t)) := by
  obtain ⟨-, hbox⟩ := absorbBoundsInExpression_boxes types t (types.map .seed) (List.length_map ..)
  rw [absorbVariableBounds, hbox v type hv, List.getElem?_map, hv]
  rfl

theorem columnEnds_absorbedInput {numRows : Nat} {declared : List (String × VarType)}
    {t : ConstraintTree BoundComparison} {v : Nat} {type : VarType}
    (hv : (declared.map (·.2))[v]? = some type) :
    columnEnds (absorbedInput numRows declared t) v =
      (resolveLower (absorbBounds type (boundsOn v t)).lower,
        min (if type = .boolean then 1 else openBound)
          (absorbBounds type (boundsOn v t)).upper) := by
  obtain ⟨d, hd, rfl⟩ : ∃ d, declared[v]? = some d ∧ d.2 = type := by
    simpa [List.getElem?_map, Option.map_eq_some_iff] using hv
  have hz : (List.zipWith (fun (d : String × VarType) box => (⟨d.1, d.2, box⟩ : DecideVariable))
      declared (absorbVariableBounds (declared.map (·.2)) t).1)[v]? =
        some ⟨d.1, d.2, absorbBounds d.2 (boundsOn v t)⟩ := by
    rw [List.getElem?_zipWith, hd, absorbVariableBounds_box hv]
  exact columnEnds_assembledInput hz

/-! ## Absorption against the rows it replaces -/

/-- What absorption owes a clause: a tagged comparison is asked of every instance of its variable, it
is its interval on the lattice, and a column is declared with the absorbed intervals, the floor of a
variable never lowered and the domain of a BOOLEAN. -/
structure AbsorptionAgrees (indexer : VarIndexer) (declared : List (String × VarType))
    (t : ConstraintTree BoundComparison) : Prop where
  unconditional : ∀ (c : BoundComparison) path,
    ((c, true), path) ∈ (absorbVariableBounds (declared.map (·.2)) t).2.leaves [] →
      ∀ v, c.target = some v → ∀ r, r < indexer.numRows → ∃ r', r' < indexer.numRows ∧
        indexer.get v r' = indexer.get v r ∧
          (groupUnder (whenConditions path) (perColumnSets path) r').isSome
  exact : ∀ (c : BoundComparison) path,
    ((c, true), path) ∈ (absorbVariableBounds (declared.map (·.2)) t).2.leaves [] →
      ∀ v type b, (declared.map (·.2))[v]? = some type → c.boundOn v = some b →
        ∀ x, OnLattice type x → (b.1.Holds x (.fin b.2) ↔ InAbsorbed type b x)
  lower : ∀ v type, (declared.map (·.2))[v]? = some type → ∀ x,
    (columnEnds (absorbedInput indexer.numRows declared t) v).1 ≤ x ↔
      (type = .boolean → 0 ≤ x) ∧ (lowerSides type (boundsOn v t) = [] → 0 ≤ x) ∧
        ∀ l ∈ lowerSides type (boundsOn v t), l ≤ x
  upper : ∀ v type, (declared.map (·.2))[v]? = some type → ∀ x,
    x ≤ (columnEnds (absorbedInput indexer.numRows declared t) v).2 ↔
      (x ≤ if type = .boolean then 1 else openBound) ∧
        ∀ u ∈ upperSides type (boundsOn v t), x ≤ u

/-- Some lower bound counts: one above the unset mark, and for a BOOLEAN one that is not negative
unless none is above the mark. -/
def FloorKept (type : VarType) (lowers : List ℚ) : Prop :=
  if type = .boolean then
    (∃ l ∈ lowers, absorbedLowerUnset < l) → ∃ l ∈ lowers, 0 ≤ l
  else lowers ≠ [] → ∃ l ∈ lowers, absorbedLowerUnset < l

/-- The clauses absorption agrees with the rows on. -/
structure AbsorptionSafe (indexer : VarIndexer) (types : List VarType)
    (t : ConstraintTree BoundComparison) : Prop where
  /-- An absorbable comparison under a PER reaches every instance through a row with no NULL key. -/
  keys : ∀ c path, (c, path) ∈ t.leaves [] → whenConditions path = [] → Absorbable types c →
    ∀ v, c.target = some v → ∀ r, r < indexer.numRows → ∃ r', r' < indexer.numRows ∧
      indexer.get v r' = indexer.get v r ∧ ∀ k ∈ perColumnSets path, (k r').isSome
  /-- A strict literal is one the step by one is exact for. -/
  literals : ∀ v type, types[v]? = some type → ∀ b ∈ boundsOn v t, isAbsorbed type b = true →
    StrictLiteralExact type b
  /-- A variable that is lowered is lowered to something that counts. -/
  floors : ∀ v type, types[v]? = some type → FloorKept type (lowerSides type (boundsOn v t))

theorem floorKept_iff (type : VarType) (cs : List (Comparison × ℚ)) :
    (∀ x, resolveLower (absorbBounds type cs).lower ≤ x ↔
      (type = .boolean → 0 ≤ x) ∧ (lowerSides type cs = [] → 0 ≤ x) ∧
        ∀ l ∈ lowerSides type cs, l ≤ x) ↔ FloorKept type (lowerSides type cs) := by
  simp only [resolvedLower_le]
  unfold FloorKept
  by_cases hlow : Lowered type cs
  · obtain ⟨l₀, hl₀, hlt⟩ := id hlow
    have hne : lowerSides type cs ≠ [] := List.ne_nil_of_mem hl₀
    simp only [if_pos hlow, hne, false_implies, true_and]
    by_cases hbool : type = .boolean
    · simp only [hbool, if_true, true_implies]
      rw [hbool] at hlow
      constructor
      · -- at the greatest of the lower bounds the column reaches below zero
        intro h _
        obtain ⟨m, hm, hmax⟩ : ∃ m ∈ lowerSides .boolean cs, ∀ l ∈ lowerSides .boolean cs, l ≤ m := by
          have hfin : (lowerSides .boolean cs).toFinset.Nonempty := by
            obtain ⟨l, hl, -⟩ := hlow
            exact ⟨l, List.mem_toFinset.mpr hl⟩
          obtain ⟨m, hm, hmax⟩ := Finset.exists_max_image _ id hfin
          exact ⟨m, List.mem_toFinset.mp hm, fun l hl => hmax l (List.mem_toFinset.mpr hl)⟩
        exact ⟨m, hm, ((h m).mp hmax).1⟩
      · intro h x
        obtain ⟨l, hl, h0⟩ := h hlow
        exact ⟨fun hx => ⟨h0.trans (hx l hl), hx⟩, fun hx => hx.2⟩
    · simp only [hbool, if_false, false_implies, true_and]
      exact iff_of_true (fun _ => trivial) fun _ => ⟨l₀, hl₀, hlt⟩
  · have hall : ∀ l ∈ lowerSides type cs, l ≤ 0 := fun l hl =>
      (not_lt.mp fun hlt => hlow ⟨l, hl, hlt⟩).trans (by norm_num [absorbedLowerUnset])
    have hnone : ¬ ∃ l ∈ lowerSides type cs, absorbedLowerUnset < l := hlow
    simp only [if_neg hlow, hnone]
    by_cases hbool : type = .boolean
    · simp only [hbool, if_true, true_implies, false_implies, iff_true]
      rw [hbool] at hall
      exact fun x => ⟨fun hx => ⟨hx, fun _ => hx, fun l hl => (hall l hl).trans hx⟩, fun hx => hx.1⟩
    · simp only [hbool, if_false, false_implies, true_and]
      constructor
      · intro h hne
        have := (h (-1)).mpr ⟨fun hnil => absurd hnil hne, fun l hl =>
          (not_lt.mp fun hlt => hlow ⟨l, hl, hlt⟩).trans (by norm_num [absorbedLowerUnset])⟩
        norm_num at this
      · intro hnil x
        have hnil : lowerSides type cs = [] := not_not.mp hnil
        simp [hnil]

theorem boundsOn_literal {v : Nat} {b : Comparison × ℚ} {t : ConstraintTree BoundComparison}
    (h : b ∈ boundsOn v t) : ∃ c path, (c, path) ∈ t.leaves [] ∧ whenConditions path = [] ∧
      c.boundOn v = some b := by
  obtain ⟨c, path, hmem, hw, hb⟩ := (mem_boundsOn []).mp h
  exact ⟨c, path, hmem, hw, hb⟩

/-- **Absorption agrees with the rows exactly on the safe clauses.** -/
theorem absorptionAgrees_iff (indexer : VarIndexer) (declared : List (String × VarType))
    (t : ConstraintTree BoundComparison) :
    AbsorptionAgrees indexer declared t ↔ AbsorptionSafe indexer (declared.map (·.2)) t := by
  have htag : ∀ (c : BoundComparison) path,
      ((c, true), path) ∈ (absorbVariableBounds (declared.map (·.2)) t).2.leaves [] ↔
        (c, path) ∈ t.leaves [] ∧ whenConditions path = [] ∧
          Absorbable (declared.map (·.2)) c :=
    fun c path => mem_leaves_absorbed [] (List.length_map ..) c path
  have hgroup : ∀ {path : List Enclosure} {r : Nat}, whenConditions path = [] →
      ((groupUnder (whenConditions path) (perColumnSets path) r).isSome ↔
        ∀ k ∈ perColumnSets path, (k r).isSome) := fun hw => by
    rw [groupUnder_isSome, hw]
    simp
  constructor
  · intro h
    refine ⟨fun c path hmem hw habs v hv r hr => ?_, fun v type hv b hb habs => ?_,
      fun v type hv => ?_⟩
    · obtain ⟨r', hr', hget, hsome⟩ := h.unconditional c path ((htag c path).mpr ⟨hmem, hw, habs⟩) v hv
        r hr
      exact ⟨r', hr', hget, (hgroup hw).mp hsome⟩
    · obtain ⟨c, path, hmem, hw, hc⟩ := boundsOn_literal hb
      have htrue := (htag c path).mpr ⟨hmem, hw, v, type, b, hv, hc, habs⟩
      exact (inAbsorbed_iff habs).mp (h.exact c path htrue v type b hv hc)
    · refine (floorKept_iff type (boundsOn v t)).mp fun x => ?_
      rw [← h.lower v type hv x, columnEnds_absorbedInput hv]
  · intro h
    refine ⟨fun c path htrue v hv r hr => ?_, fun c path htrue v type b hv hc => ?_,
      fun v type hv x => ?_, fun v type hv x => ?_⟩
    · obtain ⟨hmem, hw, habs⟩ := (htag c path).mp htrue
      obtain ⟨r', hr', hget, hsome⟩ := h.keys c path hmem hw habs v hv r hr
      exact ⟨r', hr', hget, (hgroup hw).mpr hsome⟩
    · obtain ⟨hmem, hw, v', type', b', hv', hc', habs⟩ := (htag c path).mp htrue
      obtain ⟨ht, hl, hcmp⟩ := boundOn_eq_some.mp hc
      obtain ⟨ht', hl', hcmp'⟩ := boundOn_eq_some.mp hc'
      obtain rfl : v' = v := Option.some.inj (ht'.symm.trans ht)
      obtain rfl : b' = b := Option.some.inj (hc'.symm.trans hc)
      obtain rfl : type' = type := Option.some.inj (hv'.symm.trans hv)
      exact (inAbsorbed_iff habs).mpr
        (h.literals v' type' hv b' ((mem_boundsOn []).mpr ⟨c, path, hmem, hw, hc⟩) habs)
    · rw [columnEnds_absorbedInput hv]
      exact (floorKept_iff type (boundsOn v t)).mpr (h.floors v type hv) x
    · rw [columnEnds_absorbedInput hv, le_min_iff, le_absorbed_upper]
      constructor
      · rintro ⟨hx, -, hall⟩
        exact ⟨hx, hall⟩
      · rintro ⟨hx, hall⟩
        exact ⟨hx, hx, hall⟩

/-- **A fractional strict bound on an INTEGER is absorbed too tightly**: `x < 2.5` refuses 2. -/
theorem fractionalStrict_not_agrees :
    ¬ AbsorptionAgrees (.rowScoped 1 0) [("x", .integer)]
      (.comparison ⟨some 0, .lt, some (.fin (5 / 2))⟩) := by
  intro h
  have htwo := (h.exact _ [] (List.mem_singleton.mpr rfl) 0 .integer (.lt, 5 / 2) rfl rfl 2
    (Rat.den_natCast 2)).mp (by norm_num)
  have hle := htwo.1 (5 / 2 - 1) rfl
  norm_num at hle

end Decidb
