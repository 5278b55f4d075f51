import Decidb.Linear.Selector
import Decidb.Optimizer.RewriteInDomain
import Decidb.Formulation.Proofs.BoundAbsorptionProofs

/-!
# The rows of an IN domain

The indicators of an IN select one member a row. What the rows and the absorbed floor leave of a
column is compared with what the clause says of it.
-/

namespace Decidb

open Linear

/-! ## The generated rows -/

/-- A row of the data passes the condition a generated row is wrapped in. -/
def Passes (condition : Option RowMask) (r : Nat) : Prop :=
  ∀ m, condition = some m → m r = true

/-- The value is one of the members of a row. -/
def InDomain.HasMember (d : InDomain) (r : Nat) (u : ℚ) : Prop :=
  ∃ m ∈ d.members, u = m.valueAt r

section Rows

variable {d : InDomain} {condition : Option RowMask} {base r : Nat} {y : Nat → ℚ}

theorem boundRow_holdsAt {v : Nat} {cmp : Comparison} {rhs : DomainMember} :
    (boundRow v cmp rhs condition).HoldsAt r y ↔
      (Passes condition r → cmp.Holds (y v) (.fin (rhs.valueAt r))) := by
  simp [GeneratedRow.HoldsAt, boundRow, GeneratedRow.lhsValue, Passes]

theorem cardinalityRow_holdsAt : (cardinalityRow d base condition).HoldsAt r y ↔
    (Passes condition r → selectedSum d.members base (fun _ => (1 : ℚ)) y = 1) := by
  have hsum : (cardinalityRow d base condition).lhsValue r y =
      selectedSum d.members base (fun _ => (1 : ℚ)) y := by
    simp [GeneratedRow.lhsValue, cardinalityRow, selectedSum, Function.comp_def]
  unfold GeneratedRow.HoldsAt
  rw [hsum]
  simp [cardinalityRow, DomainMember.valueAt, Passes]

theorem linkingRow_holdsAt : (linkingRow d base condition).HoldsAt r y ↔
    (Passes condition r → y d.target = selectedSum d.members base (fun m => m.valueAt r) y) := by
  have hsum : (linkingRow d base condition).lhsValue r y =
      y d.target - selectedSum d.members base (fun m => m.valueAt r) y := by
    have hneg : ∀ (l : List DomainMember) (b : Nat),
        ((l.zipIdx b).map fun p => (0 - p.1.valueAt r) * y p.2).sum =
          -selectedSum l b (fun m => m.valueAt r) y := by
      intro l
      induction l with
      | nil => intro b; simp
      | cons m l ih =>
        intro b
        rw [List.zipIdx_cons, List.map_cons, List.sum_cons, ih, selectedSum_cons]
        ring
    simp only [GeneratedRow.lhsValue, linkingRow, List.map_cons, List.sum_cons, List.map_map,
      Function.comp_def, hneg, one_mul]
    ring
  unfold GeneratedRow.HoldsAt
  rw [hsum]
  simp [linkingRow, DomainMember.valueAt, Passes, sub_eq_zero]

/-- **The indicators select a member**: the cardinality and the linking row can be met exactly by the
members of the row. -/
theorem exists_indicators_iff {u : ℚ} (hbase : d.target < base) :
    (∃ z : Nat → ℚ, (∀ v, z v = 0 ∨ z v = 1) ∧
      (cardinalityRow d base condition).HoldsAt r (Function.update z d.target u) ∧
      (linkingRow d base condition).HoldsAt r (Function.update z d.target u)) ↔
      (Passes condition r → d.HasMember r u) := by
  have hupdate : ∀ (z : Nat → ℚ) (f : DomainMember → ℚ),
      selectedSum d.members base f (Function.update z d.target u) =
        selectedSum d.members base f z := fun z f =>
    selectedSum_congr fun v hv => Function.update_of_ne (by omega) _ _
  simp only [cardinalityRow_holdsAt, linkingRow_holdsAt, hupdate, Function.update_self]
  constructor
  · rintro ⟨z, hz, hcard, hlink⟩ hp
    obtain ⟨m, hm, hall⟩ := exists_oneHot_entry hz (hcard hp)
    exact ⟨m, hm, (hlink hp).trans (hall _)⟩
  · intro h
    by_cases hp : Passes condition r
    · obtain ⟨m, hm, hu⟩ := h hp
      obtain ⟨z, hz, hall⟩ := exists_oneHot (K := ℚ) hm base
      exact ⟨z, hz, fun _ => hall _, fun _ => hu.trans (hall fun m => m.valueAt r).symm⟩
    · exact ⟨fun _ => 0, fun _ => Or.inl rfl, fun h => absurd h hp, fun h => absurd h hp⟩

end Rows

/-! ## The floor of a domain -/

/-- The least member bounds every constant member. -/
theorem InDomain.minValue_le {d : InDomain} {m : DomainMember} {k : ℚ} (hm : m ∈ d.members)
    (hk : m.foldable? = some k) : d.minValue ≤ k := by
  have hmem : k ∈ d.members.filterMap (·.foldable?) := List.mem_filterMap.mpr ⟨m, hm, hk⟩
  unfold InDomain.minValue
  generalize d.members.filterMap (·.foldable?) = l at hmem
  suffices h : ∀ (l : List ℚ) (a : ℚ), l.foldl min a ≤ a ∧ ∀ x ∈ l, l.foldl min a ≤ x from
    (h l 0).2 k hmem
  intro l
  induction l with
  | nil => exact fun a => ⟨le_rfl, by simp⟩
  | cons x l ih =>
    intro a
    rw [List.foldl_cons]
    obtain ⟨h1, h2⟩ := ih (min a x)
    refine ⟨h1.trans (min_le_left _ _), fun z hz => ?_⟩
    rcases List.mem_cons.mp hz with rfl | hz
    · exact h1.trans (min_le_right _ _)
    · exact h2 z hz

/-- A constant domain has the same members at every row. -/
theorem InDomain.foldable_of_hasMember {d : InDomain} (hc : d.allConstant = true) {r : Nat} {u : ℚ}
    (h : d.HasMember r u) : ∃ m ∈ d.members, m.foldable? = some u := by
  obtain ⟨m, hm, hu⟩ := h
  have hsome : m.foldable?.isSome := List.all_eq_true.mp hc m hm
  refine ⟨m, hm, ?_⟩
  cases m with
  | literal k | folded k => exact congrArg some hu.symm
  | data values => cases hsome

theorem DomainMember.valueAt_of_foldable {m : DomainMember} {k : ℚ} (h : m.foldable? = some k)
    (r : Nat) : m.valueAt r = k := by
  cases m with
  | literal k' | folded k' => exact Option.some.inj h
  | data values => cases h

/-- The rewrite lowers the floor of the column to the least member. -/
def InDomain.Lowers (d : InDomain) (whens : List RowMask) : Prop :=
  whens = [] ∧ absorbedLowerUnset < d.minValue ∧
    ((∃ k, d.members = [.literal k]) ∨ 2 ≤ d.members.length ∧ d.allConstant = true)

/-! ## The column -/

/-- The box of a column and its lattice. -/
structure InColumn (input : SolverInput) (v : Nat) (u : ℚ) : Prop where
  lower_le : (columnEnds input v).1 ≤ u
  le_upper : u ≤ (columnEnds input v).2
  integral : input.variableTypes[v]? ≠ some .real → u.den = 1

/-- A value some column of the type can be given. -/
structure Representable (type : VarType) (u : ℚ) : Prop where
  onLattice : OnLattice type u
  above : absorbedLowerUnset < u
  below : u ≤ openBound

theorem onLattice_boolean_iff {u : ℚ} : OnLattice .boolean u ↔ u.den = 1 ∧ 0 ≤ u ∧ u ≤ 1 := by
  constructor
  · rintro (rfl | rfl)
    · exact ⟨rfl, le_rfl, zero_le_one⟩
    · exact ⟨rfl, zero_le_one, le_rfl⟩
  · rintro ⟨hden, h0, h1⟩
    obtain ⟨n, rfl⟩ : ∃ n : ℤ, u = n := ⟨u.num, ((Rat.den_eq_one_iff u).mp hden).symm⟩
    have h0' : 0 ≤ n := by exact_mod_cast h0
    have h1' : n ≤ 1 := by exact_mod_cast h1
    obtain rfl | rfl : n = 0 ∨ n = 1 := by omega
    · exact Or.inl Int.cast_zero
    · exact Or.inr Int.cast_one

/-- A column never lowered below zero and never capped holds what is representable and not
negative. -/
theorem representable_of_ends {type : VarType} {u : ℚ} (hden : type ≠ .real → u.den = 1)
    (h0 : 0 ≤ u) (hceil : u ≤ if type = .boolean then 1 else openBound) : Representable type u := by
  have hneg : absorbedLowerUnset < 0 := by norm_num [absorbedLowerUnset]
  cases type with
  | real => exact ⟨trivial, hneg.trans_le h0, by simpa using hceil⟩
  | integer => exact ⟨hden (by simp), hneg.trans_le h0, by simpa using hceil⟩
  | boolean =>
    have h1 : u ≤ 1 := by simpa using hceil
    exact ⟨onLattice_boolean_iff.mpr ⟨hden (by simp), h0, h1⟩, hneg.trans_le h0,
      h1.trans (by norm_num [openBound])⟩

theorem Representable.den {type : VarType} {u : ℚ} (h : Representable type u)
    (hne : type ≠ .real) : u.den = 1 := by
  cases type with
  | real => exact absurd rfl hne
  | integer => exact h.onLattice
  | boolean => exact (onLattice_boolean_iff.mp h.onLattice).1

theorem Representable.le_ceiling {type : VarType} {u : ℚ} (h : Representable type u) :
    u ≤ if type = .boolean then 1 else openBound := by
  cases type with
  | real | integer => simpa using h.below
  | boolean => simpa using (onLattice_boolean_iff.mp h.onLattice).2.2

section Column

variable {declared : List (String × VarType)} {numRows v : Nat} {type : VarType}
  {t : ConstraintTree BoundComparison}

theorem absorbedInput_type (hv : (declared.map (·.2))[v]? = some type) :
    (absorbedInput numRows declared t).variableTypes[v]? = some type := by
  obtain ⟨d, hd, rfl⟩ : ∃ d, declared[v]? = some d ∧ d.2 = type := by
    simpa [List.getElem?_map, Option.map_eq_some_iff] using hv
  have hz : (List.zipWith (fun (d : String × VarType) box => (⟨d.1, d.2, box⟩ : DecideVariable))
      declared (absorbVariableBounds (declared.map (·.2)) t).1)[v]? =
        some ⟨d.1, d.2, absorbBounds d.2 (boundsOn v t)⟩ := by
    rw [List.getElem?_zipWith, hd, absorbVariableBounds_box hv]
  show (List.map DecideVariable.type _)[v]? = _
  rw [List.getElem?_map, hz]
  rfl

/-- The column of a variable under some absorbed bounds. -/
theorem inColumn_iff (hv : (declared.map (·.2))[v]? = some type) {u : ℚ} :
    InColumn (absorbedInput numRows declared t) v u ↔
      (if Lowered type (boundsOn v t) then ∀ l ∈ lowerSides type (boundsOn v t), l ≤ u
        else 0 ≤ u) ∧
      (u ≤ if type = .boolean then 1 else openBound) ∧
      (∀ b ∈ upperSides type (boundsOn v t), u ≤ b) ∧ (type ≠ .real → u.den = 1) := by
  have hends := @columnEnds_absorbedInput numRows _ t _ _ hv
  have htype := @absorbedInput_type _ numRows _ _ t hv
  have hseed : (AbsorbedBox.seed type).upper = if type = .boolean then 1 else openBound := rfl
  have hlow : (columnEnds (absorbedInput numRows declared t) v).1 ≤ u ↔
      if Lowered type (boundsOn v t) then ∀ l ∈ lowerSides type (boundsOn v t), l ≤ u
        else 0 ≤ u := by
    rw [hends]
    exact resolvedLower_le type (boundsOn v t) u
  have hup : u ≤ (columnEnds (absorbedInput numRows declared t) v).2 ↔
      (u ≤ if type = .boolean then 1 else openBound) ∧
        ∀ b ∈ upperSides type (boundsOn v t), u ≤ b := by
    rw [hends, le_min_iff, le_absorbed_upper, hseed]
    tauto
  constructor
  · rintro ⟨h1, h2, h3⟩
    rw [htype] at h3
    exact ⟨hlow.mp h1, (hup.mp h2).1, (hup.mp h2).2, fun h => h3 (by simpa using h)⟩
  · rintro ⟨h1, h2, h3, h4⟩
    refine ⟨hlow.mpr h1, hup.mpr ⟨h2, h3⟩, fun h => h4 ?_⟩
    rw [htype] at h
    simpa using h

end Column

/-! ## What stays a row, and what is absorbed -/

/-- The bounds the generated rows put on a column. -/
theorem boundsOn_generatedTree (v : Nat) (rows : List GeneratedRow) :
    boundsOn v (generatedTree rows) = rows.flatMap fun g =>
      if g.condition.isNone then (g.boundComparison.boundOn v).toList else [] := by
  induction rows with
  | nil => rfl
  | cons g rows ih =>
    have hg : boundsOn v g.tree =
        if g.condition.isNone then (g.boundComparison.boundOn v).toList else [] := by
      unfold GeneratedRow.tree
      cases g.condition <;> rfl
    show boundsOn v g.tree ++ boundsOn v (generatedTree rows) = _
    rw [ih, hg, List.flatMap_cons]

theorem boundOn_boundRow {v : Nat} {cmp : Comparison} {rhs : DomainMember}
    {condition : Option RowMask} :
    (boundRow v cmp rhs condition).boundComparison.boundOn v =
      rhs.literal?.map fun k => (cmp, k) := by
  cases rhs <;> simp [boundRow, GeneratedRow.boundComparison, BoundComparison.boundOn,
    DomainMember.literal?]

theorem staysRow_iff {types : List VarType} {g : GeneratedRow} :
    g.staysRow types = true ↔ g.condition = none → ¬ Absorbable types g.boundComparison := by
  have htag := (@absorbBoundComparison_spec types (types.map .seed)
    (List.length_map ..) g.boundComparison).1
  unfold GeneratedRow.staysRow
  rw [← htag]
  cases g.condition <;> simp

section Stays

variable {types : List VarType} {type : VarType} {v : Nat} {cmp : Comparison} {rhs : DomainMember}
  {condition : Option RowMask}

/-- An equation or a lower bound on a variable is absorbed when it stands under no WHEN and its other
side is a literal. -/
theorem boundRow_staysRow (hv : types[v]? = some type) (hcmp : cmp = .eq ∨ cmp = .ge) :
    (boundRow v cmp rhs condition).staysRow types = true ↔
      ¬ (condition = none ∧ rhs.literal?.isSome) := by
  rw [staysRow_iff]
  have habs : Absorbable types (boundRow v cmp rhs condition).boundComparison ↔
      rhs.literal?.isSome := by
    constructor
    · rintro ⟨w, type', b, -, hb, -⟩
      have hlit := (boundOn_eq_some.mp hb).2.1
      cases rhs <;> simp_all [boundRow, GeneratedRow.boundComparison, DomainMember.literal?]
    · intro h
      obtain ⟨k, hk⟩ := Option.isSome_iff_exists.mp h
      refine ⟨v, type, (cmp, k), hv, by rw [boundOn_boundRow, hk]; rfl, ?_⟩
      rcases hcmp with rfl | rfl <;> rfl
  rw [habs]
  simp [boundRow]

/-- A comparison of more than one variable is never absorbed. -/
theorem staysRow_of_two {g : GeneratedRow} (h : 2 ≤ g.lhs.length) : g.staysRow types = true := by
  rw [staysRow_iff]
  rintro - ⟨w, type', b, -, hb, -⟩
  have htarget := (boundOn_eq_some.mp hb).1
  unfold GeneratedRow.boundComparison at htarget
  rcases hl : g.lhs with _ | ⟨p, _ | ⟨q, l⟩⟩
  · simp [hl] at h
  · simp [hl] at h
  · simp [hl] at htarget

end Stays

/-! ## One IN -/

/-- What the clause says of the value `u` of the variable at the column of row `r₀`: it is a member at
every row that passes every condition, and a column with no such row is left at the default. -/
structure MeetsDomain (indexer : VarIndexer) (type : VarType) (whens : List RowMask) (d : InDomain)
    (r₀ : Nat) (u : ℚ) : Prop where
  representable : Representable type u
  isMember : ∀ r, r < indexer.numRows → indexer.get d.target r = indexer.get d.target r₀ →
    (∀ m ∈ whens, m r = true) → d.HasMember r u
  default : (∀ r, r < indexer.numRows → indexer.get d.target r = indexer.get d.target r₀ →
    ¬ ∀ m ∈ whens, m r = true) → 0 ≤ u

/-- Some values of the indicators of a row meet the rows that stay rows. -/
def DomainRowsAdmit (types : List VarType) (rows : List GeneratedRow) (target r : Nat) (u : ℚ) : Prop :=
  ∃ z : Nat → ℚ, (∀ v, z v = 0 ∨ z v = 1) ∧
    ∀ g ∈ rows, g.staysRow types = true → g.HoldsAt r (Function.update z target u)

/-- The model admits the value `u` of the variable at the column of row `r₀`: it lies in the box the
generated rows leave, and at every row of the column the indicators, which are row-scoped, have
values. -/
def AdmitsValue (indexer : VarIndexer) (declared : List (String × VarType))
    (rows : List GeneratedRow) (target r₀ : Nat) (u : ℚ) : Prop :=
  InColumn (absorbedInput indexer.numRows declared (generatedTree rows)) target u ∧
    ∀ r, r < indexer.numRows → indexer.get target r = indexer.get target r₀ →
      DomainRowsAdmit (declared.map (·.2)) rows target r u

/-- The rows of an IN say exactly what the IN says, at every column of its variable. -/
def InDomainExact (indexer : VarIndexer) (declared : List (String × VarType)) (type : VarType)
    (whens : List RowMask) (d : InDomain) (rows : List GeneratedRow) : Prop :=
  ∀ r₀, r₀ < indexer.numRows → ∀ u,
    AdmitsValue indexer declared rows d.target r₀ u ↔ MeetsDomain indexer type whens d r₀ u

/-- The INs the rewrite is exact for. -/
structure InDomainSafe (indexer : VarIndexer) (type : VarType) (whens : List RowMask)
    (d : InDomain) : Prop where
  /-- The conditions that are dropped make no difference. -/
  conditions : ∀ r₀, r₀ < indexer.numRows → ∀ u, MeetsDomain indexer type whens d r₀ u →
    ∀ r, r < indexer.numRows → indexer.get d.target r = indexer.get d.target r₀ →
      Passes whens.getLast? r → d.HasMember r u
  /-- A negative value is asked for only where the floor is lowered. -/
  floor : ∀ r₀, r₀ < indexer.numRows → ∀ u, MeetsDomain indexer type whens d r₀ u → u < 0 →
    d.Lowers whens
  /-- The floor of a BOOLEAN is not lowered to let an integer in. -/
  boolean : type = .boolean → 0 < indexer.numRows → d.Lowers whens →
    ∀ m ∈ d.members, ∀ k, m.foldable? = some k → k < 0 → k.den ≠ 1

theorem passes_of_forall {whens : List RowMask} {r : Nat} (h : ∀ m ∈ whens, m r = true) :
    Passes whens.getLast? r := fun m hm => h m (List.mem_of_getLast? hm)

section One

variable {indexer : VarIndexer} {declared : List (String × VarType)} {type : VarType}
  {whens : List RowMask} {d : InDomain} {base : Nat}

/-- A row of the column passes when there are no conditions. -/
theorem MeetsDomain.isMember_self {r₀ : Nat} {u : ℚ} (hr : r₀ < indexer.numRows) (hw : whens = [])
    (h : MeetsDomain indexer type whens d r₀ u) : d.HasMember r₀ u :=
  h.isMember r₀ hr rfl (by simp [hw])

theorem boundsOn_boundRow {v : Nat} {cmp : Comparison} {rhs : DomainMember}
    {condition : Option RowMask} :
    boundsOn v (generatedTree [boundRow v cmp rhs condition]) =
      if condition = none then (rhs.literal?.map fun k => (cmp, k)).toList else [] := by
  rw [boundsOn_generatedTree, List.flatMap_cons, List.flatMap_nil, List.append_nil,
    boundOn_boundRow]
  cases condition <;> rfl

/-- The two members of a restated BOOLEAN. -/
theorem restatesBoolean_members (h : d.restatesBoolean = true) :
    (∀ r u, OnLattice .boolean u → d.HasMember r u) ∧
      ∀ m ∈ d.members, ∀ k, m.foldable? = some k → 0 ≤ k := by
  unfold InDomain.restatesBoolean at h
  split at h
  · rename_i m m' hmem
    split at h
    · rename_i a b ha hb
      simp only [Bool.or_eq_true, Bool.and_eq_true, decide_eq_true_eq] at h
      constructor
      · intro r u hu
        have hvalue : u = m.valueAt r ∨ u = m'.valueAt r := by
          rw [DomainMember.valueAt_of_foldable ha, DomainMember.valueAt_of_foldable hb]
          rcases hu with rfl | rfl <;> rcases h with ⟨rfl, rfl⟩ | ⟨rfl, rfl⟩ <;> simp
        rcases hvalue with hu | hu
        · exact ⟨m, by simp [hmem], hu⟩
        · exact ⟨m', by simp [hmem], hu⟩
      · intro n hn k hk
        rw [hmem, List.mem_cons, List.mem_singleton] at hn
        rcases hn with rfl | rfl
        · rw [ha, Option.some.injEq] at hk
          rcases h with ⟨rfl, -⟩ | ⟨rfl, -⟩ <;> simp [← hk]
        · rw [hb, Option.some.injEq] at hk
          rcases h with ⟨-, rfl⟩ | ⟨-, rfl⟩ <;> simp [← hk]
    · cases h
  · cases h

/-- `{0, 1}` on a BOOLEAN leaves the column as it is. -/
theorem restatesBoolean_exact (hv : (declared.map (·.2))[d.target]? = some .boolean)
    (h : d.restatesBoolean = true) :
    InDomainExact indexer declared .boolean whens d
        [boundRow d.target .ge (.literal 0) whens.getLast?] ∧
      InDomainSafe indexer .boolean whens d := by
  obtain ⟨hall, hnonneg⟩ := restatesBoolean_members h
  have hpos : ∀ r₀ u, MeetsDomain indexer .boolean whens d r₀ u → 0 ≤ u := fun r₀ u h =>
    (onLattice_boolean_iff.mp h.representable.onLattice).2.1
  have hcolumn : ∀ u, InColumn (absorbedInput indexer.numRows declared
      (generatedTree [boundRow d.target .ge (.literal 0) whens.getLast?])) d.target u ↔
        OnLattice .boolean u := by
    intro u
    have hunset : absorbedLowerUnset < 0 := by norm_num [absorbedLowerUnset]
    rw [inColumn_iff hv, boundsOn_boundRow, onLattice_boolean_iff]
    by_cases hw : whens.getLast? = none
    · have hlowered : Lowered .boolean [(.ge, 0)] := ⟨0, by simp [lowerSides, lowerSide], hunset⟩
      simp only [hw, if_true, DomainMember.literal?, Option.map_some, Option.toList_some,
        if_pos hlowered]
      simp [lowerSides, lowerSide, upperSides, upperSide]
      tauto
    · simp only [hw, if_false]
      simp [lowerSides, upperSides, Lowered]
      tauto
  constructor
  · intro r₀ hr₀ u
    constructor
    · rintro ⟨hcol, -⟩
      have hlat := (hcolumn u).mp hcol
      obtain ⟨hden, h0, h1⟩ := onLattice_boolean_iff.mp hlat
      exact ⟨representable_of_ends (fun _ => hden) h0 (by simpa using h1),
        fun r _ _ _ => hall r u hlat, fun _ => h0⟩
    · intro hmeets
      refine ⟨(hcolumn u).mpr hmeets.representable.onLattice, fun r _ _ =>
        ⟨fun _ => 0, fun _ => Or.inl rfl, fun g hg _ => ?_⟩⟩
      obtain rfl := List.mem_singleton.mp hg
      rw [boundRow_holdsAt]
      intro _
      simpa [DomainMember.valueAt] using hpos r₀ u hmeets
  · refine ⟨fun r₀ _ u hmeets r _ _ _ => hall r u hmeets.representable.onLattice,
      fun r₀ _ u hmeets hneg => absurd (hpos r₀ u hmeets) (not_le.mpr hneg),
      fun _ _ _ m hm k hk hneg => absurd (hnonneg m hm k hk) (not_le.mpr hneg)⟩

/-- The rows of the other INs: an equation with the only member, or the indicator rows and, where
every member is constant and one is negative, the floor. -/
theorem inDomainRows_cases (isBoolean : Bool) (condition : Option RowMask)
    (h : ¬ (isBoolean && d.restatesBoolean) = true) :
    (∃ m, d.members = [m] ∧
        inDomainRows isBoolean base condition d = [boundRow d.target .eq m condition]) ∨
      2 ≤ d.members.length ∧ inDomainRows isBoolean base condition d =
        [cardinalityRow d base condition, linkingRow d base condition] ++
          if d.allConstant && d.minValue < 0 then
            [boundRow d.target .ge (.literal d.minValue) condition]
          else [] := by
  unfold inDomainRows
  rw [if_neg h]
  rcases hm : d.members with _ | ⟨m, _ | ⟨m', ms⟩⟩
  · exact absurd hm d.members_ne
  · exact Or.inl ⟨m, rfl, rfl⟩
  · exact Or.inr ⟨by simp, rfl⟩

/-- The floor row of an IN counts. -/
def FloorCounts (whens : List RowMask) (d : InDomain) : Prop :=
  whens = [] ∧ 2 ≤ d.members.length ∧ d.allConstant = true ∧ d.minValue < 0 ∧
    absorbedLowerUnset < d.minValue

open Classical in
/-- What the rows of an IN come to when no equation of it is absorbed. -/
structure RegularRows (indexer : VarIndexer) (declared : List (String × VarType)) (type : VarType)
    (whens : List RowMask) (d : InDomain) (rows : List GeneratedRow) : Prop where
  column : ∀ u, InColumn (absorbedInput indexer.numRows declared (generatedTree rows)) d.target u ↔
    (if FloorCounts whens d then d.minValue ≤ u else 0 ≤ u) ∧
      (u ≤ if type = .boolean then 1 else openBound) ∧ (type ≠ .real → u.den = 1)
  domainRowsAdmit : ∀ r u, DomainRowsAdmit (declared.map (·.2)) rows d.target r u ↔
    (Passes whens.getLast? r → d.HasMember r u)

theorem regularRows_single {m : DomainMember} (hv : (declared.map (·.2))[d.target]? = some type)
    (hm : d.members = [m]) (hno : ¬ (whens.getLast? = none ∧ m.literal?.isSome)) :
    RegularRows indexer declared type whens d [boundRow d.target .eq m whens.getLast?] where
  column u := by
    have hbounds : boundsOn d.target (generatedTree [boundRow d.target .eq m whens.getLast?]) =
        [] := by
      rw [boundsOn_boundRow]
      by_cases hw : whens.getLast? = none
      · have hlit : m.literal? = none := by simpa [hw] using hno
        simp [hlit]
      · rw [if_neg hw]
    have hfloor : ¬ FloorCounts whens d := fun h => by simpa [hm] using h.2.1
    rw [inColumn_iff hv, hbounds, if_neg hfloor]
    simp [lowerSides, upperSides, Lowered]
  domainRowsAdmit r u := by
    have hstays := (@boundRow_staysRow _ _ _ _ m whens.getLast? hv (Or.inl rfl)).mpr
      hno
    have hmember : d.HasMember r u ↔ u = m.valueAt r := by simp [InDomain.HasMember, hm]
    rw [hmember]
    constructor
    · rintro ⟨z, -, hrows⟩ hp
      have hrow := hrows _ List.mem_cons_self hstays
      rw [boundRow_holdsAt] at hrow
      simpa using hrow hp
    · intro h
      refine ⟨fun _ => 0, fun _ => Or.inl rfl, fun g hg _ => ?_⟩
      obtain rfl := List.mem_singleton.mp hg
      rw [boundRow_holdsAt]
      intro hp
      simpa using h hp

theorem regularRows_many (hv : (declared.map (·.2))[d.target]? = some type)
    (hbase : d.target < base) (hlen : 2 ≤ d.members.length) :
    RegularRows indexer declared type whens d
      ([cardinalityRow d base whens.getLast?, linkingRow d base whens.getLast?] ++
        if d.allConstant && d.minValue < 0 then
          [boundRow d.target .ge (.literal d.minValue) whens.getLast?]
        else []) where
  column u := by
    have htarget : ∀ g : GeneratedRow, 2 ≤ g.lhs.length →
        g.boundComparison.boundOn d.target = none := by
      intro g hg
      rcases hl : g.lhs with _ | ⟨p, _ | ⟨p', l⟩⟩
      · simp [hl] at hg
      · simp [hl] at hg
      · simp [GeneratedRow.boundComparison, BoundComparison.boundOn, hl]
    have hcard := htarget (cardinalityRow d base whens.getLast?) (by simpa [cardinalityRow])
    have hlink := htarget (linkingRow d base whens.getLast?) (by
      simp only [linkingRow, List.length_cons, List.length_map, List.length_zipIdx]
      omega)
    rw [inColumn_iff hv, boundsOn_generatedTree, List.flatMap_append, List.flatMap_cons,
      List.flatMap_cons, List.flatMap_nil, hcard, hlink]
    by_cases hfloor : (d.allConstant && d.minValue < 0) = true
    · rw [if_pos hfloor, List.flatMap_cons, List.flatMap_nil, boundOn_boundRow]
      simp only [Bool.and_eq_true, decide_eq_true_eq] at hfloor
      cases hw : whens.getLast? with
      | none =>
        have hnil : whens = [] := List.getLast?_eq_none_iff.mp hw
        have hiff : FloorCounts whens d ↔ Lowered type [(.ge, d.minValue)] := by
          simp [FloorCounts, hnil, hlen, hfloor, Lowered, lowerSides, lowerSide]
        by_cases hc : FloorCounts whens d
        · have hl := hiff.mp hc
          rw [if_pos hc]
          simp [boundRow, DomainMember.literal?, hl, lowerSides, lowerSide, upperSides, upperSide]
        · have hl : ¬ Lowered type [(.ge, d.minValue)] := fun h => hc (hiff.mpr h)
          rw [if_neg hc]
          simp [boundRow, DomainMember.literal?, hl, upperSides, upperSide]
      | some m =>
        have hne : whens ≠ [] := fun h => by simp [h] at hw
        have hc : ¬ FloorCounts whens d := fun h => hne h.1
        rw [if_neg hc]
        simp [boundRow, cardinalityRow, linkingRow, Lowered, lowerSides, upperSides]
    · rw [if_neg hfloor]
      have hc : ¬ FloorCounts whens d := fun h => hfloor (by simp [h.2.2.1, h.2.2.2.1])
      rw [if_neg hc]
      simp [Lowered, lowerSides, upperSides]
  domainRowsAdmit r u := by
    have hcard : (cardinalityRow d base whens.getLast?).staysRow (declared.map (·.2)) = true :=
      staysRow_of_two (by simpa [cardinalityRow])
    have hlink : (linkingRow d base whens.getLast?).staysRow (declared.map (·.2)) = true :=
      staysRow_of_two (by
        simp only [linkingRow, List.length_cons, List.length_map, List.length_zipIdx]
        omega)
    rw [← exists_indicators_iff hbase]
    unfold DomainRowsAdmit
    constructor
    · rintro ⟨z, hz, hrows⟩
      exact ⟨z, hz, hrows _ List.mem_cons_self hcard,
        hrows _ (List.mem_cons_of_mem _ List.mem_cons_self) hlink⟩
    · rintro ⟨z, hz, h1, h2⟩
      refine ⟨z, hz, fun g hg _ => ?_⟩
      rcases List.mem_append.mp hg with hg | hg
      · rw [List.mem_cons, List.mem_singleton] at hg
        rcases hg with rfl | rfl
        · exact h1
        · exact h2
      · split at hg
        · -- the floor under a WHEN asks no more than membership does
          rename_i hfloor
          simp only [Bool.and_eq_true] at hfloor
          obtain rfl := List.mem_singleton.mp hg
          rw [boundRow_holdsAt]
          intro hp
          obtain ⟨m, hm, hk⟩ := InDomain.foldable_of_hasMember hfloor.1
            ((exists_indicators_iff hbase).mp ⟨z, hz, h1, h2⟩ hp)
          simpa [DomainMember.valueAt] using InDomain.minValue_le hm hk
        · cases hg

theorem InDomain.minValue_literal {k : ℚ} (h : d.members = [.literal k]) :
    d.minValue = min 0 k := by
  simp [InDomain.minValue, h, DomainMember.foldable?]

/-- **An IN whose rows stay rows** is exact exactly when it is safe. -/
theorem RegularRows.exact_iff {rows : List GeneratedRow}
    (h : RegularRows indexer declared type whens d rows)
    (hno : ¬ (whens = [] ∧ ∃ k, d.members = [.literal k])) :
    InDomainExact indexer declared type whens d rows ↔ InDomainSafe indexer type whens d := by
  have hlowers : d.Lowers whens →
      whens = [] ∧ absorbedLowerUnset < d.minValue ∧ 2 ≤ d.members.length ∧
        d.allConstant = true := by
    rintro ⟨hw, hunset, hsingle | hmany⟩
    · exact absurd ⟨hw, hsingle⟩ hno
    · exact ⟨hw, hunset, hmany⟩
  have hcounts : FloorCounts whens d → d.Lowers whens := fun hf =>
    ⟨hf.1, hf.2.2.2.2, Or.inr ⟨hf.2.1, hf.2.2.1⟩⟩
  have hpasses : ∀ r, (∀ m ∈ whens, m r = true) → Passes whens.getLast? r := fun r =>
    passes_of_forall
  constructor
  · intro hexact
    refine ⟨fun r₀ hr₀ u hmeets r hr hcol hp => ?_, fun r₀ hr₀ u hmeets hneg => ?_,
      fun hbool hpos hl m hm k hk hneg hden => ?_⟩
    · obtain ⟨-, hrows⟩ := (hexact r₀ hr₀ u).mpr hmeets
      exact (h.domainRowsAdmit r u).mp (hrows r hr hcol) hp
    · obtain ⟨hcol, -⟩ := (hexact r₀ hr₀ u).mpr hmeets
      have hlow := ((h.column u).mp hcol).1
      by_cases hf : FloorCounts whens d
      · exact hcounts hf
      · rw [if_neg hf] at hlow
        exact absurd hlow (not_le.mpr hneg)
    · -- the negative integer is admitted, and it is no BOOLEAN
      obtain ⟨hw, hunset, hlen, hconst⟩ := hlowers hl
      have hmin := InDomain.minValue_le hm hk
      have hf : FloorCounts whens d := ⟨hw, hlen, hconst, hmin.trans_lt hneg, hunset⟩
      have hadmits : AdmitsValue indexer declared rows d.target 0 k := by
        refine ⟨(h.column k).mpr ⟨?_, ?_, fun _ => hden⟩, fun r _ _ => (h.domainRowsAdmit r k).mpr
          fun _ => ⟨m, hm, (DomainMember.valueAt_of_foldable hk r).symm⟩⟩
        · rw [if_pos hf]
          exact hmin
        · rw [if_pos hbool]
          linarith
      have hrep := ((hexact 0 hpos k).mp hadmits).representable.onLattice
      rw [hbool, onLattice_boolean_iff] at hrep
      linarith [hrep.2.1]
  · intro hsafe r₀ hr₀ u
    constructor
    · rintro ⟨hcol, hrows⟩
      obtain ⟨hlow, hceil, hden⟩ := (h.column u).mp hcol
      have hmember : ∀ r, r < indexer.numRows →
          indexer.get d.target r = indexer.get d.target r₀ → Passes whens.getLast? r →
            d.HasMember r u := fun r hr hcol => (h.domainRowsAdmit r u).mp (hrows r hr hcol)
      refine ⟨?_, fun r hr hcol hall => hmember r hr hcol (hpasses r hall), fun hnone => ?_⟩
      · by_cases hneg : 0 ≤ u
        · exact representable_of_ends hden hneg hceil
        · have hf : FloorCounts whens d := by
            by_contra hf
            rw [if_neg hf] at hlow
            exact hneg hlow
          rw [if_pos hf] at hlow
          have hbelow : u ≤ openBound := by
            have hopen : (0 : ℚ) < openBound := by norm_num [openBound]
            linarith [not_le.mp hneg]
          cases htype : type with
          | real => exact ⟨trivial, hf.2.2.2.2.trans_le hlow, hbelow⟩
          | integer => exact ⟨hden (by simp [htype]), hf.2.2.2.2.trans_le hlow, hbelow⟩
          | boolean =>
            obtain ⟨m, hm, hk⟩ := InDomain.foldable_of_hasMember hf.2.2.1
              (hmember r₀ hr₀ rfl (hpasses r₀ (by simp [hf.1])))
            exact absurd (hden (by simp [htype])) (hsafe.boolean htype (Nat.zero_lt_of_lt hr₀)
              (hcounts hf) m hm u hk (not_le.mp hneg))
      · have hf : ¬ FloorCounts whens d := fun hf => hnone r₀ hr₀ rfl (by simp [hf.1])
        rwa [if_neg hf] at hlow
    · intro hmeets
      refine ⟨(h.column u).mpr ⟨?_, hmeets.representable.le_ceiling, hmeets.representable.den⟩,
        fun r hr hcol => (h.domainRowsAdmit r u).mpr (hsafe.conditions r₀ hr₀ u hmeets r hr hcol)⟩
      by_cases hneg : 0 ≤ u
      · split
        · rename_i hf
          linarith [hf.2.2.2.1]
        · exact hneg
      · obtain ⟨hw, hunset, hlen, hconst⟩ := hlowers (hsafe.floor r₀ hr₀ u hmeets (not_le.mp hneg))
        obtain ⟨m, hm, hk⟩ := InDomain.foldable_of_hasMember hconst
          (hmeets.isMember_self hr₀ hw)
        have hmin := InDomain.minValue_le hm hk
        rw [if_pos ⟨hw, hlen, hconst, hmin.trans_lt (not_le.mp hneg), hunset⟩]
        exact hmin

/-- **An equation with a literal under no WHEN** is absorbed into the column. -/
theorem absorbedEquation_exact_iff {k : ℚ} (hv : (declared.map (·.2))[d.target]? = some type)
    (hw : whens = []) (hm : d.members = [.literal k]) :
    InDomainExact indexer declared type whens d
        [boundRow d.target .eq (.literal k) whens.getLast?] ↔
      InDomainSafe indexer type whens d := by
  subst hw
  have hmin := InDomain.minValue_literal hm
  have hmember : ∀ r u, d.HasMember r u ↔ u = k := fun r u => by
    simp [InDomain.HasMember, hm, DomainMember.valueAt]
  have hcolumn : ∀ u, InColumn (absorbedInput indexer.numRows declared
      (generatedTree [boundRow d.target .eq (.literal k) (List.getLast? [])])) d.target u ↔
        (if absorbedLowerUnset < k then k ≤ u else 0 ≤ u) ∧
          (u ≤ if type = .boolean then 1 else openBound) ∧ u ≤ k ∧
            (type ≠ .real → u.den = 1) := by
    intro u
    rw [inColumn_iff hv, boundsOn_boundRow]
    simp [DomainMember.literal?, Lowered, lowerSides, lowerSide, upperSides, upperSide]
  have hstays : ∀ r u, DomainRowsAdmit (declared.map (·.2))
      [boundRow d.target .eq (.literal k) (List.getLast? [])] d.target r u := by
    intro r u
    refine ⟨fun _ => 0, fun _ => Or.inl rfl, fun g hg hstays => ?_⟩
    obtain rfl := List.mem_singleton.mp hg
    rw [boundRow_staysRow hv (Or.inl rfl)] at hstays
    exact absurd ⟨rfl, rfl⟩ hstays
  have hunset : absorbedLowerUnset < 0 := by norm_num [absorbedLowerUnset]
  constructor
  · intro hexact
    refine ⟨fun r₀ _ u hmeets r hr hcol _ => hmeets.isMember r hr hcol (by simp),
      fun r₀ hr₀ u hmeets hneg => ?_, fun hbool hpos hl m hmem k' hk hneg hden => ?_⟩
    · obtain rfl := (hmember r₀ u).mp (hmeets.isMember_self hr₀ rfl)
      exact ⟨rfl, hmin ▸ lt_min hunset hmeets.representable.above, Or.inl ⟨u, hm⟩⟩
    · obtain rfl : m = .literal k := by simpa [hm] using hmem
      obtain rfl : k = k' := Option.some.inj hk
      have hlt : absorbedLowerUnset < k := (hmin ▸ hl.2.1).trans_le (min_le_right _ _)
      have hadmits : InColumn _ d.target k := (hcolumn k).mpr
        ⟨by rw [if_pos hlt], by rw [if_pos hbool]; linarith, le_rfl, fun _ => hden⟩
      have hrep := ((hexact 0 hpos k).mp
        ⟨hadmits, fun r _ _ => hstays r k⟩).representable.onLattice
      rw [hbool, onLattice_boolean_iff] at hrep
      linarith [hrep.2.1]
  · intro hsafe r₀ hr₀ u
    constructor
    · rintro ⟨hcol, -⟩
      obtain ⟨hlow, hceil, hle, hden⟩ := (hcolumn u).mp hcol
      by_cases hlt : absorbedLowerUnset < k
      · rw [if_pos hlt] at hlow
        obtain rfl : u = k := le_antisymm hle hlow
        refine ⟨?_, fun r _ _ _ => (hmember r u).mpr rfl, fun hnone =>
          absurd (by simp) (hnone r₀ hr₀ rfl)⟩
        by_cases hneg : 0 ≤ u
        · exact representable_of_ends hden hneg hceil
        · have hneg' := not_le.mp hneg
          have hbelow : u ≤ openBound := by
            have hopen : (0 : ℚ) < openBound := by norm_num [openBound]
            linarith
          cases htype : type with
          | real => exact ⟨trivial, hlt, hbelow⟩
          | integer => exact ⟨hden (by simp [htype]), hlt, hbelow⟩
          | boolean =>
            have hl : d.Lowers [] := ⟨rfl, hmin ▸ lt_min hunset hlt, Or.inl ⟨u, hm⟩⟩
            exact absurd (hden (by simp [htype])) (hsafe.boolean htype (Nat.zero_lt_of_lt hr₀) hl
              (.literal u) (by simp [hm]) u rfl hneg')
      · rw [if_neg hlt] at hlow
        linarith [not_lt.mp hlt]
    · intro hmeets
      obtain rfl := (hmember r₀ u).mp (hmeets.isMember_self hr₀ rfl)
      refine ⟨(hcolumn u).mpr ⟨?_, hmeets.representable.le_ceiling, le_rfl,
        hmeets.representable.den⟩, fun r _ _ => hstays r u⟩
      rw [if_pos hmeets.representable.above]

/-- **One IN**: its rows are exact exactly when it is safe. -/
theorem inDomainRows_exact_iff (hv : (declared.map (·.2))[d.target]? = some type)
    (hbase : d.target < base) :
    InDomainExact indexer declared type whens d
        (inDomainRows (decide (type = .boolean)) base whens.getLast? d) ↔
      InDomainSafe indexer type whens d := by
  by_cases hspecial : (decide (type = .boolean) && d.restatesBoolean) = true
  · have hrows : inDomainRows (decide (type = .boolean)) base whens.getLast? d =
        [boundRow d.target .ge (.literal 0) whens.getLast?] := by
      unfold inDomainRows
      rw [if_pos hspecial]
    rw [Bool.and_eq_true, decide_eq_true_eq] at hspecial
    obtain ⟨rfl, hrestates⟩ := hspecial
    rw [hrows]
    obtain ⟨hexact, hsafe⟩ := @restatesBoolean_exact indexer _ whens _ hv
      hrestates
    exact iff_of_true hexact hsafe
  · rcases @inDomainRows_cases _ base _ whens.getLast? hspecial with
      ⟨m, hm, hrows⟩ | ⟨hlen, hrows⟩
    · rw [hrows]
      by_cases habs : whens.getLast? = none ∧ m.literal?.isSome
      · obtain ⟨hw, hlit⟩ := habs
        cases m with
        | literal k => exact absorbedEquation_exact_iff hv (List.getLast?_eq_none_iff.mp hw) hm
        | folded k | data values => cases hlit
      · refine (regularRows_single hv hm habs).exact_iff ?_
        rintro ⟨rfl, k, hk⟩
        rw [hm, List.cons.injEq] at hk
        exact habs ⟨rfl, by rw [hk.1]; rfl⟩
    · rw [hrows]
      refine (regularRows_many hv hbase hlen).exact_iff ?_
      rintro ⟨-, k, hk⟩
      simp [hk] at hlen

end One

/-! ## The walk -/

/-- The INs of a clause with what encloses them, in the order of the walk. -/
def inLeaves {α : Type} (t : ConstraintTree (DomainLeaf α)) (path : List Enclosure) :
    List (InDomain × List Enclosure) :=
  (t.leaves path).filterMap fun leaf => match leaf.1 with
    | .inDomain d => some (d, leaf.2)
    | .other _ => none

/-- Every IN is rewritten where it stands: over the variables declared before the walk and with the
innermost of its conditions, its indicators following all variables declared so far. -/
theorem rewriteInDomain_rows {α : Type} (t : ConstraintTree (DomainLeaf α)) :
    ∀ (path : List Enclosure) (s : DomainState),
      let out := rewriteInDomain t (whenConditions path).getLast? s
      (∃ extra, out.1.declared = s.declared ++ extra) ∧
        List.Forall₂ (fun leaf rows => leaf.1.target < s.declared.length → ∃ base,
          s.declared.length ≤ base ∧ rows = inDomainRows
            (decide (s.declared[leaf.1.target]?.map (·.2) = some .boolean)) base
            (whenConditions leaf.2).getLast? leaf.1) (inLeaves t path) out.2.1 := by
  induction t with
  | comparison c =>
    intro path s
    cases c with
    | inDomain d => exact ⟨⟨_, rfl⟩, .cons (fun _ => ⟨_, le_rfl, rfl⟩) .nil⟩
    | other c => exact ⟨⟨[], (List.append_nil _).symm⟩, .nil⟩
  | placeholder => exact fun path s => ⟨⟨[], (List.append_nil _).symm⟩, .nil⟩
  | «when» t m ih =>
    intro path s
    have h := ih (path ++ [.when m]) s
    rw [whenConditions_append, show whenConditions [Enclosure.when m] = [m] from rfl,
      List.getLast?_concat] at h
    exact h
  | per t k ih =>
    intro path s
    have h := ih (path ++ [.per k]) s
    rw [whenConditions_append, show whenConditions [Enclosure.per k] = [] from rfl,
      List.append_nil] at h
    exact h
  | conjunction l r ihl ihr =>
    intro path s
    have hl := ihl (path ++ [.conjunction]) s
    rw [whenConditions_append, show whenConditions [Enclosure.conjunction] = [] from rfl,
      List.append_nil] at hl
    obtain ⟨⟨extra, hdecl⟩, hrows⟩ := hl
    have hr := ihr (path ++ [.conjunction]) (rewriteInDomain l (whenConditions path).getLast? s).1
    rw [whenConditions_append, show whenConditions [Enclosure.conjunction] = [] from rfl,
      List.append_nil] at hr
    obtain ⟨⟨extra', hdecl'⟩, hrows'⟩ := hr
    refine ⟨⟨extra ++ extra', ?_⟩, ?_⟩
    · rw [← List.append_assoc, ← hdecl]
      exact hdecl'
    · have hleaves : inLeaves (.conjunction l r) path =
          inLeaves l (path ++ [.conjunction]) ++ inLeaves r (path ++ [.conjunction]) :=
        List.filterMap_append
      rw [hleaves]
      refine List.rel_append hrows (hrows'.imp fun leaf rows h hlt => ?_)
      -- what the left side declared comes after the variables there were
      obtain ⟨base, hbase, heq⟩ := h (by rw [hdecl, List.length_append]; omega)
      rw [hdecl, List.length_append] at hbase
      rw [hdecl, List.getElem?_append_left hlt] at heq
      exact ⟨base, by omega, heq⟩

/-- No IN is left in the clause. -/
theorem inLeaves_rewriteInDomain {α : Type} (t : ConstraintTree (DomainLeaf α)) :
    ∀ (condition : Option RowMask) (s : DomainState) (path : List Enclosure),
      inLeaves (rewriteInDomain t condition s).2.2 path = [] := by
  induction t with
  | comparison c => intro condition s path; cases c <;> rfl
  | placeholder => exact fun condition s path => rfl
  | «when» t m ih =>
    intro condition s path
    have h := ih (some m) s (path ++ [.when m])
    unfold rewriteInDomain
    dsimp only
    split
    · rfl
    · exact h
  | per t k ih => exact fun condition s path => ih condition s (path ++ [Enclosure.per k])
  | conjunction l r ihl ihr =>
    intro condition s path
    have hleaves : ∀ l r : ConstraintTree (DomainLeaf α), inLeaves (.conjunction l r) path =
        inLeaves l (path ++ [.conjunction]) ++ inLeaves r (path ++ [.conjunction]) :=
      fun _ _ => List.filterMap_append
    show inLeaves (.conjunction _ _) path = []
    rw [hleaves, ihl, ihr, List.append_nil]

/-- **Every IN of a clause is rewritten exactly precisely when it is safe.** -/
theorem inDomain_exact_iff {α : Type} (indexer : VarIndexer) (declared : List (String × VarType))
    (t : ConstraintTree (DomainLeaf α)) :
    let out := rewriteInDomain t none ⟨declared, 0⟩
    List.Forall₂ (fun leaf rows => ∀ type, declared[leaf.1.target]?.map (·.2) = some type →
      (InDomainExact indexer out.1.declared type (whenConditions leaf.2) leaf.1 rows ↔
        InDomainSafe indexer type (whenConditions leaf.2) leaf.1)) (inLeaves t []) out.2.1 := by
  obtain ⟨⟨extra, hdecl⟩, hrows⟩ := rewriteInDomain_rows t [] ⟨declared, 0⟩
  refine hrows.imp fun leaf rows h type htype => ?_
  have hlt : leaf.1.target < declared.length := by
    by_contra hge
    rw [List.getElem?_eq_none (not_lt.mp hge)] at htype
    cases htype
  obtain ⟨base, hbase, rfl⟩ := h hlt
  have hv : (((rewriteInDomain t none ⟨declared, 0⟩).1.declared).map (·.2))[leaf.1.target]? =
      some type := by
    have hdecl' : (rewriteInDomain t none ⟨declared, 0⟩).1.declared = declared ++ extra := hdecl
    rw [hdecl', List.getElem?_map, List.getElem?_append_left hlt, htype]
  have hbool : decide (declared[leaf.1.target]?.map (·.2) = some .boolean) =
      decide (type = .boolean) := by
    rw [htype]
    simp
  rw [hbool]
  exact inDomainRows_exact_iff hv (hlt.trans_le hbase)

/-! ## A negative member under a condition -/

/-- `x IN (-1, 2) WHEN c`, with `c` true on every row. -/
def conditionedDomain : ConstraintTree (DomainLeaf Unit) :=
  .when (.comparison (.inDomain ⟨0, [.literal (-1), .literal 2], by simp⟩)) fun _ => true

/-- **A negative member under a WHEN is lost**: the floor row stays under the condition, so the column
still starts at zero and -1 is refused. -/
theorem conditionedDomain_not_exact :
    ∃ rows, (rewriteInDomain conditionedDomain none ⟨[("x", .integer)], 0⟩).2.1 = [rows] ∧
      ¬ InDomainExact (.rowScoped 1 0)
        (rewriteInDomain conditionedDomain none ⟨[("x", .integer)], 0⟩).1.declared .integer
        [fun _ => true] ⟨0, [.literal (-1), .literal 2], by simp⟩ rows := by
  refine ⟨_, rfl, fun hexact => ?_⟩
  have hsafe := (@inDomainRows_exact_iff _ _ .integer [fun _ => true]
    ⟨0, [.literal (-1), .literal 2], by simp⟩ 1 rfl one_pos).mp hexact
  have hmeets : MeetsDomain (.rowScoped 1 0) .integer [fun _ => true]
      ⟨0, [.literal (-1), .literal 2], by simp⟩ 0 (-1) := by
    refine ⟨⟨rfl, by norm_num [absorbedLowerUnset], by norm_num [openBound]⟩, fun r _ _ _ => ?_,
      fun h => absurd (by simp) (h 0 one_pos rfl)⟩
    exact ⟨.literal (-1), by simp, rfl⟩
  have hlowers := hsafe.floor 0 one_pos (-1) hmeets (by norm_num)
  exact absurd hlowers.1 (by simp)

end Decidb
