import Decidb.Formulation.Proofs.BuiltModelProofs
import Decidb.Formulation.Proofs.QuadraticRowProofs

/-!
# What the `<>` lowering asks

The two sides of an excluded value stand on a binary of their own, or one side is left when the reach of
the left-hand side says so. Of integers either says that they differ, so the pass asks of the decisions
what its clauses do and nothing else.
-/

namespace Decidb

open Linear SolverInput

variable {indexer : VarIndexer} {init s t input out : SolverInput} {ec : EvaluatedConstraint}

/-! ## Two sides of a value -/

/-- What the rows stated for an excluded value ask of the left-hand side. -/
def Excludes : NECollapse → ℚ → ℚ → Prop
  | .lowerOnly, k, v => v ≤ k - 1
  | .upperOnly, k, v => k + 1 ≤ v
  | _, k, v => v ≤ k - 1 ∨ k + 1 ≤ v

/-- Integers that differ are a unit apart. -/
theorem ne_iff_apart {v k : ℚ} (hv : v ∈ integers ℚ) (hk : k ∈ integers ℚ) :
    v ≠ k ↔ v ≤ k - 1 ∨ k + 1 ≤ v := by
  obtain ⟨n, rfl⟩ := hv
  obtain ⟨m, rfl⟩ := hk
  simp only [eq_intCast]
  have hle : ((n : ℚ) ≤ m - 1) ↔ n ≤ m - 1 := by exact_mod_cast Iff.rfl
  have hge : ((m : ℚ) + 1 ≤ n) ↔ m + 1 ≤ n := by exact_mod_cast Iff.rfl
  rw [hle, hge, Ne, Int.cast_inj]
  omega

/-- **The verdict on a reach is right**: on integers within the reach, what is stated says that the
values differ, and a dropped exclusion had nothing to exclude. -/
theorem excludes_classifyReach {range : Option ℚ × Option ℚ} {v k : ℚ} (hv : v ∈ integers ℚ)
    (hk : k ∈ integers ℚ) (hr : Brackets range v) :
    (classifyReach range k = .alwaysTrue → v ≠ k) ∧
      (Excludes (classifyReach range k) k v ↔ v ≠ k) := by
  have happart := ne_iff_apart hv hk
  have habove : (range.1.map fun lo => decide (k - 1 / 2 < lo)).getD false = true →
      k - 1 / 2 < v := by
    cases hlo : range.1 with
    | none => simp
    | some lo => simpa using fun h => lt_of_lt_of_le h (hr.1 lo hlo)
  have habove' : (range.1.map fun lo => decide (k + 1 / 2 < lo)).getD false = true →
      k + 1 / 2 < v := by
    cases hlo : range.1 with
    | none => simp
    | some lo => simpa using fun h => lt_of_lt_of_le h (hr.1 lo hlo)
  have hbelow : (range.2.map fun hi => decide (hi < k - 1 / 2)).getD false = true →
      v < k - 1 / 2 := by
    cases hhi : range.2 with
    | none => simp
    | some hi => simpa using fun h => lt_of_le_of_lt (hr.2 hi hhi) h
  have hbelow' : (range.2.map fun hi => decide (hi < k + 1 / 2)).getD false = true →
      v < k + 1 / 2 := by
    cases hhi : range.2 with
    | none => simp
    | some hi => simpa using fun h => lt_of_le_of_lt (hr.2 hi hhi) h
  unfold classifyReach
  dsimp only
  split
  · rename_i h
    refine ⟨fun _ heq => ?_, happart.symm⟩
    rcases (Bool.or_eq_true _ _).mp h with h | h
    · linarith [hbelow h]
    · linarith [habove' h]
  · split
    · rename_i h
      refine ⟨by simp, ?_⟩
      -- nothing below the value is reached
      rw [happart]
      refine ⟨Or.inr, fun hor => hor.resolve_left fun hle => ?_⟩
      linarith [habove h]
    · split
      · rename_i h
        refine ⟨by simp, ?_⟩
        rw [happart]
        refine ⟨Or.inl, fun hor => hor.resolve_right fun hge => ?_⟩
        linarith [hbelow' h]
      · exact ⟨by simp, happart.symm⟩

/-- A verdict the rows agree on is the verdict on each. -/
theorem classifyNERow_of_constraint {rows : List Nat} {lower upper : List ℚ}
    (h : classifyNEConstraint ec rows lower upper ≠ .disjunction) {r : Nat} (hr : r ∈ rows) :
    classifyNERow ec r lower upper = classifyNEConstraint ec rows lower upper := by
  unfold classifyNEConstraint at h ⊢
  split at h
  · exact absurd rfl h
  · rename_i hlinear
    rw [if_neg hlinear]
    have hmem : classifyNERow ec r lower upper ∈ rows.map fun r => classifyNERow ec r lower upper :=
      List.mem_map_of_mem hr
    revert h hmem
    generalize (rows.map fun r => classifyNERow ec r lower upper) = verdicts
    cases verdicts with
    | nil => exact fun h => absurd rfl h
    | cons verdict rest =>
      dsimp only
      split
      · rename_i hall
        intro _ hmem
        rcases List.mem_cons.mp hmem with heq | hrest
        · exact heq
        · exact of_decide_eq_true (List.all_eq_true.mp hall _ hrest)
      · exact fun h => absurd rfl h

/-! ## One exclusion -/

/-- A binary with conditions of its own: one of its two values has to meet what it brings. -/
theorem extends_binary {L : (Nat → ℚ) → ℚ → Prop} (hs : s.WellScoped indexer)
    (ht : t.WellScoped indexer) (hwidth : t.width indexer = s.width indexer + 1)
    (hL : ∀ y, ReadsBelow (s.width indexer) fun a => L a y)
    (hholds : ∀ b, t.Holds indexer b ↔
      (s.addGlobalBinaryAux indexer).1.Holds indexer b ∧ L b (b (s.width indexer))) :
    System.Extends (s.system indexer) (t.system indexer) fun a => L a 0 ∨ L a 1 := by
  have hadded : ∀ b, (s.addGlobalBinaryAux indexer).1.Holds indexer b ↔
      s.Holds indexer b ∧ (⟨0, 1, true⟩ : ColumnBox).Admits (b (s.width indexer)) :=
    fun b => holds_appendColumn _
  have hlast : System.Extends ((s.addGlobalBinaryAux indexer).1.system indexer) (t.system indexer)
      fun b => L b (b (s.width indexer)) := by
    have hreads := ht.readsBelow
    unfold SolverInput.system at hreads ⊢
    rw [hwidth] at hreads ⊢
    exact System.Extends.of_holds_iff addGlobalBinaryAux_width.symm
      (@addGlobalBinaryAux_width s indexer ▸ hreads) hholds
  have hcol := System.Extends.exists_column (S := s.system indexer)
    (A := (⟨0, 1, true⟩ : ColumnBox).Admits) (L := L) hs.readsBelow addGlobalBinaryAux_width hadded hL
    hlast
  refine hcol.congr fun a _ => ?_
  simp only [binary_admits_iff]
  constructor
  · rintro ⟨y, rfl | rfl, hy⟩
    · exact Or.inl hy
    · exact Or.inr hy
  · rintro (h | h)
    · exact ⟨0, Or.inl rfl, h⟩
    · exact ⟨1, Or.inr rfl, h⟩

/-- **One exclusion extends the input**, asking of the left-hand side what its verdict says. -/
theorem emitNotEqual_extends {form : Form Nat ℚ} (hs : s.WellScoped indexer)
    (hform : ∀ e ∈ form, e.1 < indexer.globalBlockStart) (collapse : NECollapse) (k : ℚ) :
    System.Extends (s.system indexer) ((emitNotEqual indexer s collapse form k).system indexer)
      fun a => Excludes collapse k (form.eval a) := by
  have hout := (emits_notEqual hs hform collapse k).wellScoped
  have hlt : ∀ e ∈ form, e.1 < s.width indexer := fun e he =>
    (hform e he).trans_le (Nat.le_add_right _ _)
  have heval : ∀ a b, AgreeBelow (s.width indexer) a b → form.eval a = form.eval b :=
    fun a b hab => Form.eval_congr fun e he => hab e.1 (hlt e he)
  have hwidth : (emitNotEqual indexer s collapse form k).width indexer = s.width indexer + 1 := by
    rw [← addGlobalBinaryAux_width]
    unfold emitNotEqual
    cases collapse <;> rfl
  have honeRow : ∀ (sense : Sense) (bound : ℚ),
      emitNotEqual indexer s collapse form k =
        (s.addGlobalBinaryAux indexer).1.pushRow ⟨form, sense, bound⟩ →
      System.Extends (s.system indexer) ((emitNotEqual indexer s collapse form k).system indexer)
        fun a => sense.Holds (form.eval a) bound := by
    intro sense bound heq
    refine (extends_binary (L := fun a _ => sense.Holds (form.eval a) bound) hs hout hwidth
      (fun _ a b hab => ?_) fun b => ?_).congr fun a _ => or_self_iff
    · dsimp only
      rw [heval a b hab]
      exact id
    rw [heq]
    exact holds_pushRow _
  have hpair : emitNotEqual indexer s collapse form k =
      ((s.addGlobalBinaryAux indexer).1.pushIndicator
        ⟨s.width indexer, 0, ⟨form, .le, k - 1⟩⟩).pushIndicator
          ⟨s.width indexer, 1, ⟨form, .ge, k + 1⟩⟩ →
      System.Extends (s.system indexer) ((emitNotEqual indexer s collapse form k).system indexer)
        fun a => form.eval a ≤ k - 1 ∨ k + 1 ≤ form.eval a := by
    intro heq
    refine (extends_binary
      (L := fun a y => (y = 0 → form.eval a ≤ k - 1) ∧ (y = 1 → k + 1 ≤ form.eval a)) hs hout hwidth
      (fun _ a b hab => ?_) fun b => ?_).congr fun a _ => by simp
    · dsimp only
      rw [heval a b hab]
      exact id
    rw [heq, holds_pushIndicator, holds_pushIndicator, and_assoc]
    exact Iff.rfl
  cases collapse with
  | lowerOnly => exact honeRow .le (k - 1) rfl
  | upperOnly => exact honeRow .ge (k + 1) rfl
  | disjunction | alwaysTrue => exact hpair rfl

/-! ## Integer-valued left-hand sides -/

/-- The value an instance of a `<>` is compared with: a hoisted denominator is the size of the group. -/
def groupScaledBound (ec : EvaluatedConstraint) (rows : List Nat) (bound : Bound) : Bound :=
  if ec.neAvgRhsScale then bound.map (· * rows.length) else bound

/-- A bound that counts as an integer is one. -/
def ExactBound (bound : Bound) : Prop :=
  ∀ k, bound = .fin k → |k - round k| < integerTolerance → k ∈ integers ℚ

/-- What binding a `<>` promises of its operands: its decisions have boxes, its constants are integers,
and a bound that counts as an integer is one. -/
structure IntegralOperands (input : SolverInput) (ec : EvaluatedConstraint) : Prop where
  boxed : ∀ t ∈ ec.lhsTerms, ∀ v, t.variableIndex = some v → (input.variableBox v).isSome
  constants : ∀ t ∈ ec.lhsTerms, t.variableIndex = none → ∀ r, r < input.numRows →
    (t.rowCoefficients r).den = 1
  bounds : ∀ rows ∈ constraintInstances ec input.numRows, ∀ r ∈ rows,
    ExactBound (groupScaledBound ec rows (ec.rhsValues r))

/-- The rigid box of every variable contains its box. -/
structure RigidContains (input : SolverInput) : Prop where
  lower : ∀ (v : Nat) (lo : ℚ), input.rigidLowerBounds[v]? = some lo →
    ∃ l : ℚ, input.lowerBounds[v]? = some l ∧ lo ≤ l
  upper : ∀ (v : Nat) (hi : ℚ), input.rigidUpperBounds[v]? = some hi →
    ∃ u : ℚ, input.upperBounds[v]? = some u ∧ u ≤ hi

theorem RigidContains.inBox (h : RigidContains input) {a : Nat → ℚ} (ha : input.InBoxes indexer a)
    {r : Nat} (hr : r < input.numRows) :
    InBox input.rigidLowerBounds input.rigidUpperBounds (rowAssignment indexer a r) := by
  intro v lo hi hlo hhi
  obtain ⟨l, hl, hlol⟩ := h.lower v lo hlo
  obtain ⟨u, hu, huhi⟩ := h.upper v hi hhi
  obtain ⟨hbelow, habove⟩ := inBox_of_inBoxes ha hr v l u hl hu
  exact ⟨hbelow.imp hlol.trans hlol.trans, habove.imp (fun h => h.trans huhi) fun h => h.trans huhi⟩

theorem mem_integers_of_den {q : ℚ} (h : q.den = 1) : q ∈ integers ℚ :=
  ⟨q.num, (Rat.den_eq_one_iff q).mp h⟩

/-- The first part that is not integral decides, so every part is where none does. -/
theorem integrality_of_first {parts : List LhsIntegrality}
    (h : (parts.find? (· ≠ .integer)).getD .integer = .integer) {i : LhsIntegrality} (hi : i ∈ parts) :
    i = .integer := by
  cases hfind : parts.find? (· ≠ .integer) with
  | none => simpa using List.find?_eq_none.mp hfind i hi
  | some j =>
    rw [hfind] at h
    have hj : j ≠ .integer := by simpa using List.find?_some hfind
    exact absurd h hj

/-- The `<>` gate looks at every term. -/
theorem integrality_of_neGate {types : List VarType} {numRows : Nat}
    (h : neLhsIsIntegerValued types numRows ec = .integer) {t : LhsTerm} (ht : t ∈ ec.lhsTerms) :
    t.integrality types numRows = .integer :=
  integrality_of_first h (List.mem_map_of_mem ht)

/-- A decision the `<>` gate lets through takes integers. -/
theorem column_mem_integers
    (hgate : neLhsIsIntegerValued input.variableTypes input.numRows ec = .integer)
    (hops : IntegralOperands input ec) {a : Nat → ℚ} (ha : input.InBoxes indexer a) {t : LhsTerm}
    (ht : t ∈ ec.lhsTerms) {v : Nat} (hv : t.variableIndex = some v) {r : Nat}
    (hr : r < input.numRows) : a (indexer.get v r) ∈ integers ℚ := by
  have hreal : input.variableTypes[v]? ≠ some .real := by
    have hint := integrality_of_neGate hgate ht
    unfold LhsTerm.integrality at hint
    rw [hv] at hint
    dsimp only at hint
    unfold variableIntegrality at hint
    intro hreal
    rw [if_pos hreal] at hint
    cases hint
  obtain ⟨box, hbox⟩ := Option.isSome_iff_exists.mp (hops.boxed t ht v hv)
  refine mem_integers_of_den ((ha v box hbox r hr).integral ?_)
  unfold SolverInput.variableBox at hbox
  split at hbox
  · obtain rfl := Option.some.inj hbox
    exact decide_eq_true hreal
  · cases hbox

/-- The variable part of a row of a `<>` is an integer. -/
theorem rowVariablePart_mem_integers
    (hgate : neLhsIsIntegerValued input.variableTypes input.numRows ec = .integer)
    (hops : IntegralOperands input ec) {a : Nat → ℚ} (ha : input.InBoxes indexer a) {r : Nat}
    (hr : r < input.numRows) :
    rowVariablePart ec.lhsTerms r (rowAssignment indexer a r) ∈ integers ℚ := by
  refine Subring.list_sum_mem _ fun x hx => ?_
  obtain ⟨t, ht, rfl⟩ := List.mem_map.mp hx
  cases hv : t.variableIndex with
  | none => exact zero_mem _
  | some v =>
    exact mul_mem (mem_integers_of_den (integral_of_neGate hgate ht hv hr))
      (column_mem_integers hgate hops ha ht hv hr)

/-- The constants of a row of a `<>` are an integer. -/
theorem fixedOffset_mem_integers (hops : IntegralOperands input ec) {r : Nat}
    (hr : r < input.numRows) : decideRowFixedLhsOffset ec.lhsTerms r ∈ integers ℚ := by
  refine Subring.list_sum_mem _ fun x hx => ?_
  obtain ⟨t, ht, rfl⟩ := List.mem_map.mp hx
  obtain ⟨ht, hv⟩ := List.mem_filter.mp ht
  exact mem_integers_of_den (hops.constants t ht (Option.isNone_iff_eq_none.mp hv) r hr)

/-- No coefficient of a `<>` is small enough for the reach of its rows to drop it. -/
theorem noTinyCoefficient_of_neGate
    (hgate : neLhsIsIntegerValued input.variableTypes input.numRows ec = .integer)
    (hops : IntegralOperands input ec) {r : Nat} (hr : r < input.numRows) :
    NoTinyCoefficient ec.lhsTerms r := by
  intro t ht
  have hint : (t.rowCoefficients r).den = 1 := by
    cases hv : t.variableIndex with
    | none => exact hops.constants t ht hv r hr
    | some v => exact integral_of_neGate hgate ht hv hr
  rcases eq_or_ne (t.rowCoefficients r) 0 with h0 | h0
  · exact Or.inl h0
  · exact Or.inr ((cut_le_of_integral hint).mpr h0)

/-! ## What a `<>` asks -/

/-- The left-hand side over some rows adds up to none of the values the bound takes there. -/
def RowsDiffer (indexer : VarIndexer) (ec : EvaluatedConstraint) (rows : List Nat)
    (a : Nat → ℚ) : Prop :=
  ∀ r ∈ rows,
    Comparison.ne.Holds (rows.map (ec.lhsValue indexer a)).sum (groupScaledBound ec rows (ec.rhsValues r))

/-- What a `<>` asks, of every row or of the rows of every group. -/
def NotEqualAsks (indexer : VarIndexer) (numRows : Nat) (ec : EvaluatedConstraint)
    (a : Nat → ℚ) : Prop :=
  ∀ rows ∈ constraintInstances ec numRows, RowsDiffer indexer ec rows a

theorem rowsDiffer_readsBelow {rows : List Nat} (hrows : ∀ r ∈ rows, r < indexer.numRows) :
    ReadsBelow indexer.globalBlockStart (RowsDiffer indexer ec rows) := by
  intro a b hab h r hr
  have hmap : rows.map (ec.lhsValue indexer a) = rows.map (ec.lhsValue indexer b) :=
    List.map_congr_left fun r hr => lhsValue_congr (hrows r hr) le_rfl hab
  rw [← hmap]
  exact h r hr

/-- What a `<>` asks reads decision columns only. -/
theorem notEqualAsks_readsBelow {numRows : Nat} (hn : numRows = indexer.numRows) :
    ReadsBelow indexer.globalBlockStart (NotEqualAsks indexer numRows ec) := fun a b hab h rows hrows =>
  rowsDiffer_readsBelow (hn ▸ lt_of_mem_constraintInstances hrows) a b hab (h rows hrows)

/-- Moving an integer across leaves a bound as near to an integer as it was. -/
theorem neIsIntegerValuedRhs_sub {off : ℚ} (hoff : off ∈ integers ℚ) (bound : Bound) :
    neIsIntegerValuedRhs (bound.sub off) = neIsIntegerValuedRhs bound := by
  obtain ⟨n, rfl⟩ := hoff
  cases bound with
  | negInf | posInf => rfl
  | fin k =>
    show decide (|k - (n : ℚ) - round (k - (n : ℚ))| < _) = decide (|k - round k| < _)
    rw [round_sub_intCast]
    push_cast
    rw [sub_sub_sub_cancel_right]

/-- No integer equals a bound that does not count as one. -/
theorem ne_of_not_integral {v : ℚ} (hv : v ∈ integers ℚ) {bound : Bound}
    (h : neIsIntegerValuedRhs bound = false) : Comparison.ne.Holds v bound := by
  obtain ⟨n, rfl⟩ := hv
  rw [Comparison.holds_ne]
  rintro rfl
  have hzero : |((n : ℤ) : ℚ) - round ((n : ℤ) : ℚ)| < integerTolerance := by
    rw [round_intCast, sub_self, abs_zero]
    norm_num [integerTolerance]
  exact absurd (decide_eq_true hzero) (by simpa [neIsIntegerValuedRhs] using h)

/-- A bound that counts as an integer, less an integer, is one. -/
theorem ExactBound.sub {bound : Bound} (h : ExactBound bound) {off k : ℚ} (hoff : off ∈ integers ℚ)
    (hk : bound.sub off = .fin k) (hint : neIsIntegerValuedRhs bound = true) : k ∈ integers ℚ := by
  cases bound with
  | negInf | posInf => cases hk
  | fin k₀ =>
    obtain rfl : k₀ - off = k := Bound.fin.inj hk
    exact sub_mem (h k₀ rfl (of_decide_eq_true hint)) hoff

/-! ## A per-row `<>` -/

section Row

variable (hgate : neLhsIsIntegerValued input.variableTypes input.numRows ec = .integer)
  (hops : IntegralOperands input ec)

include hgate hops

/-- **The verdict on a constraint says of each of its rows what the `<>` does.** -/
theorem excludes_row (hrigid : RigidContains input) {a : Nat → ℚ} (ha : input.InBoxes indexer a)
    (hrow : ec.lhsIsAggregate = false) {r : Nat} {rows : List Nat} (hmem : r ∈ rows) (hr : r ∈ notEqualRows ec input.numRows) {k : ℚ}
    (hk : decideRowEffectiveBound ec r = .fin k) {collapse : NECollapse}
    (hc : classifyNEConstraint ec rows input.rigidLowerBounds input.rigidUpperBounds = collapse) :
    (collapse = .alwaysTrue → rowVariablePart ec.lhsTerms r (rowAssignment indexer a r) ≠ k) ∧
      (Excludes collapse k (rowVariablePart ec.lhsTerms r (rowAssignment indexer a r)) ↔
        rowVariablePart ec.lhsTerms r (rowAssignment indexer a r) ≠ k) := by
  obtain ⟨hrange, hkeep⟩ := List.mem_filter.mp hr
  rw [Bool.and_eq_true] at hkeep
  have hlt := List.mem_range.mp hrange
  have hv := rowVariablePart_mem_integers hgate hops ha hlt
  have hoff := fixedOffset_mem_integers hops hlt
  have hbound : ExactBound (ec.rhsValues r) := by
    have hinst : [r] ∈ constraintInstances ec input.numRows := by
      unfold constraintInstances
      rw [if_neg (by rw [hrow]; exact Bool.false_ne_true)]
      exact List.mem_map_of_mem (List.mem_filter.mpr ⟨hrange, hkeep.1⟩)
    have hexact := hops.bounds [r] hinst r (List.mem_singleton_self r)
    unfold groupScaledBound at hexact
    split at hexact
    · cases hb : ec.rhsValues r with
      | negInf | posInf => exact fun k hk => by cases hk
      | fin k => simpa [hb, Bound.map] using hexact
    · exact hexact
  have hkint : k ∈ integers ℚ := hbound.sub hoff hk hkeep.2
  by_cases hdis : collapse = .disjunction
  · subst hdis
    exact ⟨by simp, (ne_iff_apart hv hkint).symm⟩
  · have hverdict := classifyNERow_of_constraint (hc ▸ hdis) hmem
    rw [hc] at hverdict
    unfold classifyNERow at hverdict
    rw [hk] at hverdict
    dsimp only at hverdict
    rw [← hverdict]
    exact excludes_classifyReach hv hkint (decideRowSignedRange_brackets (hrigid.inBox ha hlt)
      (noTinyCoefficient_of_neGate hgate hops hlt))

/-- What a per-row `<>` asks, by the rows that can exclude anything. -/
theorem notEqualAsks_row_iff {a : Nat → ℚ} (ha : input.InBoxes indexer a)
    (hrow : ec.lhsIsAggregate = false) :
    NotEqualAsks indexer input.numRows ec a ↔ ∀ r ∈ notEqualRows ec input.numRows, ∀ k,
      decideRowEffectiveBound ec r = .fin k →
        rowVariablePart ec.lhsTerms r (rowAssignment indexer a r) ≠ k := by
  have hone : ∀ r, groupScaledBound ec [r] (ec.rhsValues r) = ec.rhsValues r := fun r => by
    unfold groupScaledBound
    cases ec.rhsValues r <;> simp [Bound.map]
  have hvalue : ∀ r, ([r].map (ec.lhsValue indexer a)).sum =
      rowVariablePart ec.lhsTerms r (rowAssignment indexer a r) +
        decideRowFixedLhsOffset ec.lhsTerms r := fun r => by
    rw [List.map_singleton, List.sum_singleton]
    rfl
  unfold NotEqualAsks RowsDiffer constraintInstances
  rw [if_neg (by rw [hrow]; exact Bool.false_ne_true)]
  simp only [List.mem_map, forall_exists_index, and_imp, forall_apply_eq_imp_iff₂,
    List.mem_singleton, forall_eq, hone, hvalue, ← Comparison.holds_sub]
  constructor
  · intro h r hr k hk
    obtain ⟨hrange, hkeep⟩ := List.mem_filter.mp hr
    rw [Bool.and_eq_true] at hkeep
    have hne := h r (List.mem_filter.mpr ⟨hrange, hkeep.1⟩)
    change Comparison.ne.Holds _ (decideRowEffectiveBound ec r) at hne
    rw [hk, Comparison.holds_ne] at hne
    exact fun heq => hne (congrArg Bound.fin heq)
  · intro h r hr
    obtain ⟨hrange, hsome⟩ := List.mem_filter.mp hr
    have hv := rowVariablePart_mem_integers hgate hops ha (List.mem_range.mp hrange)
    have hoff := fixedOffset_mem_integers hops (List.mem_range.mp hrange)
    cases hint : neIsIntegerValuedRhs (ec.rhsValues r) with
    | false => exact ne_of_not_integral hv ((neIsIntegerValuedRhs_sub hoff _).trans hint)
    | true =>
      have hmem : r ∈ notEqualRows ec input.numRows :=
        List.mem_filter.mpr ⟨hrange, by rw [hsome, hint]; rfl⟩
      obtain ⟨-, k, hk⟩ := effectiveBound_of_mem_notEqualRows hmem
      have hne := h r hmem k hk
      change Comparison.ne.Holds _ (decideRowEffectiveBound ec r)
      rw [hk, Comparison.holds_ne]
      exact fun heq => hne (Bound.fin.inj heq)

end Row

/-- The left-hand side of a row lies before the globals. -/
theorem rowVariablePart_congr {r : Nat} (hr : r < indexer.numRows) {a b : Nat → ℚ}
    (hab : AgreeBelow indexer.globalBlockStart a b) :
    rowVariablePart ec.lhsTerms r (rowAssignment indexer a r) =
      rowVariablePart ec.lhsTerms r (rowAssignment indexer b r) := by
  have : rowAssignment indexer a r = rowAssignment indexer b r :=
    funext fun v => hab _ (indexer.get_lt v hr)
  rw [this]

/-- One row of a per-row `<>`. -/
theorem emitNotEqualRow_extends (hs : s.WellScoped indexer) {r : Nat} (hr : r < indexer.numRows)
    (collapse : NECollapse) {k : ℚ} (hk : decideRowEffectiveBound ec r = .fin k) :
    System.Extends (s.system indexer) ((emitNotEqualRow indexer ec collapse s r).system indexer)
      fun a => Excludes collapse k (rowVariablePart ec.lhsTerms r (rowAssignment indexer a r)) := by
  unfold emitNotEqualRow
  rw [hk]
  refine (emitNotEqual_extends hs (fun e he => notEqualRowForm_lt hr he) collapse k).congr
    fun a _ => ?_
  have heval : (notEqualRowForm indexer ec.lhsTerms r).eval a =
      rowVariablePart ec.lhsTerms r (rowAssignment indexer a r) := by
    unfold notEqualRowForm
    rw [Form.eval_filter_of_zero _ _ _ fun e _ he => by simpa using he, eval_rowEntries]
    rfl
  rw [heval]

theorem Grown.inBoxes (h : Grown indexer s t) {a : Nat → ℚ} (ha : t.Holds indexer a) :
    s.InBoxes indexer a := by
  have hin := ha.inBoxes
  rw [h.frame] at hin
  exact hin

/-- **A per-row `<>` extends the input**, asking what it says. -/
theorem expandRowNotEqual_extends (hgrown : Grown indexer input s)
    (hgate : neLhsIsIntegerValued input.variableTypes input.numRows ec = .integer)
    (hops : IntegralOperands input ec) (hrigid : RigidContains input)
    (hrow : ec.lhsIsAggregate = false) :
    Grown indexer input (expandRowNotEqual indexer s ec) ∧
      System.Extends (s.system indexer) ((expandRowNotEqual indexer s ec).system indexer)
        (NotEqualAsks indexer input.numRows ec) := by
  have hn : input.numRows = indexer.numRows := hgrown.numRows_eq ▸ hgrown.wellScoped.numRows_eq
  have hboxes : ∀ a, s.Holds indexer a → input.InBoxes indexer a := fun a => hgrown.inBoxes
  refine ⟨hgrown.trans (emits_rowNotEqual hgrown ec).toGrown, ?_⟩
  have hrig : s.rigidLowerBounds = input.rigidLowerBounds ∧
      s.rigidUpperBounds = input.rigidUpperBounds := by
    constructor <;> rw [hgrown.frame]
  unfold expandRowNotEqual
  dsimp only
  rw [hgrown.numRows_eq, hrig.1, hrig.2]
  generalize hc : classifyNEConstraint ec (notEqualRows ec input.numRows) input.rigidLowerBounds
    input.rigidUpperBounds = collapse
  split
  · rename_i htrue
    refine (System.Extends.refl _ hgrown.wellScoped.readsBelow).congr fun a ha => ?_
    rw [notEqualAsks_row_iff hgate hops (hboxes a ha) hrow]
    refine iff_of_true trivial fun r hr k hk => ?_
    exact (excludes_row hgate hops hrigid (hboxes a ha) hrow hr hr hk hc).1 htrue
  · obtain ⟨-, hext⟩ := System.Extends.foldl (fun s => s.system indexer)
      (emitNotEqualRow indexer ec collapse) indexer.globalBlockStart (fun s => s.WellScoped indexer)
      (fun r a => ∀ k, decideRowEffectiveBound ec r = .fin k →
        Excludes collapse k (rowVariablePart ec.lhsTerms r (rowAssignment indexer a r)))
      (fun s hs => ⟨Nat.le_add_right _ _, hs.readsBelow⟩) (notEqualRows ec input.numRows)
      (fun r hr a b hab h k hk => by
        have hlt := (effectiveBound_of_mem_notEqualRows hr).1
        rw [← rowVariablePart_congr (hn ▸ hlt) hab]
        exact h k hk)
      (fun s r hr hs => by
        obtain ⟨hlt, k, hk⟩ := effectiveBound_of_mem_notEqualRows hr
        have hrowlt : r < indexer.numRows := hn ▸ hlt
        refine ⟨?_, (emitNotEqualRow_extends hs hrowlt collapse hk).congr fun a _ => ?_⟩
        · unfold emitNotEqualRow
          rw [hk]
          exact (emits_notEqual hs (fun e he => notEqualRowForm_lt hrowlt he) collapse k).wellScoped
        · rw [hk]
          simp only [Bound.fin.injEq, forall_eq'])
      s hgrown.wellScoped
    refine hext.congr fun a ha => ?_
    rw [notEqualAsks_row_iff hgate hops (hboxes a ha) hrow]
    refine forall₂_congr fun r hr => forall₂_congr fun k hk => ?_
    exact (excludes_row hgate hops hrigid (hboxes a ha) hrow hr hr hk hc).2

/-! ## An aggregate `<>` -/

/-- Forms with the same coefficients are worth the same. -/
theorem Form.eval_eq_of_coefficient {f g : Form Nat ℚ} (h : ∀ c, f.coefficient c = g.coefficient c)
    (a : Nat → ℚ) : f.eval a = g.eval a := by
  have hmem : ∀ e ∈ f ++ g, e.1 ∈ ((f ++ g).map Prod.fst).toFinset := fun e he =>
    List.mem_toFinset.mpr (List.mem_map_of_mem he)
  rw [Form.eval_eq_sum_coefficient (fun e he => hmem e (List.mem_append_left _ he)) a,
    Form.eval_eq_sum_coefficient (fun e he => hmem e (List.mem_append_right _ he)) a]
  exact Finset.sum_congr rfl fun c _ => by rw [h c]

/-- The row of a group is worth the variable parts of its rows. -/
theorem eval_notEqualAggregateRow {types : List VarType}
    (hgate : neLhsIsIntegerValued types indexer.numRows ec = .integer) (dense : Bool)
    {rows : List Nat} (hrows : ∀ r ∈ rows, r < indexer.numRows) (a : Nat → ℚ) :
    Form.eval (notEqualAggregateRow indexer dense ec.lhsTerms rows) a =
      (rows.map fun r => rowVariablePart ec.lhsTerms r (rowAssignment indexer a r)).sum := by
  rw [← eval_quadraticLinearEntries]
  refine Form.eval_eq_of_coefficient (fun c => ?_) a
  rw [coefficient_notEqualAggregateRow hgate dense hrows, coefficient_quadraticLinearEntries]

/-- A bracket moves along with an amount added at both ends. -/
theorem Brackets.add {range range' : Option ℚ × Option ℚ} {x y : ℚ} (h : Brackets range x)
    (h' : Brackets range' y) :
    Brackets (range.1.bind fun l => range'.1.map (l + ·), range.2.bind fun u => range'.2.map (u + ·))
      (x + y) := by
  constructor
  · intro l hl
    obtain ⟨l₁, hl₁, hl⟩ := Option.bind_eq_some_iff.mp hl
    obtain ⟨l₂, hl₂, rfl⟩ := Option.map_eq_some_iff.mp hl
    exact add_le_add (h.1 l₁ hl₁) (h'.1 l₂ hl₂)
  · intro u hu
    obtain ⟨u₁, hu₁, hu⟩ := Option.bind_eq_some_iff.mp hu
    obtain ⟨u₂, hu₂, rfl⟩ := Option.map_eq_some_iff.mp hu
    exact add_le_add (h.2 u₁ hu₁) (h'.2 u₂ hu₂)

/-- The reach of a group brackets what its rows add up to. -/
theorem groupReach_brackets {lower upper : List ℚ} {x : Nat → Nat → ℚ} {rows : List Nat}
    (hrow : ∀ r ∈ rows, Brackets (decideRowSignedRange ec.lhsTerms r lower upper)
      (rowVariablePart ec.lhsTerms r (x r))) :
    Brackets (groupReach ec rows lower upper)
      (rows.map fun r => rowVariablePart ec.lhsTerms r (x r)).sum := by
  suffices h : ∀ (acc : Option ℚ × Option ℚ) (y : ℚ), Brackets acc y →
      Brackets (rows.foldl (fun acc r =>
        (acc.1.bind fun s => (decideRowSignedRange ec.lhsTerms r lower upper).1.map (s + ·),
          acc.2.bind fun s => (decideRowSignedRange ec.lhsTerms r lower upper).2.map (s + ·))) acc)
        (y + (rows.map fun r => rowVariablePart ec.lhsTerms r (x r)).sum) by
    have hzero := h (some 0, some 0) 0 (by simp [Brackets])
    rw [zero_add] at hzero
    exact hzero
  induction rows with
  | nil =>
    intro acc y hacc
    rw [List.map_nil, List.sum_nil, add_zero]
    exact hacc
  | cons r rows ih =>
    intro acc y hacc
    rw [List.foldl_cons, List.map_cons, List.sum_cons, ← add_assoc]
    exact ih (fun r' hr' => hrow r' (List.mem_cons_of_mem _ hr')) _ _
      (hacc.add (hrow r List.mem_cons_self))

/-- **One excluded value of a group extends the input**, asking the row of the group to differ from
it. -/
theorem emitGroupExclusion_extends {form : Form Nat ℚ} {range : Option ℚ × Option ℚ} {bound : Bound}
    (hs : s.WellScoped indexer) (hform : ∀ e ∈ form, e.1 < indexer.globalBlockStart)
    (hreach : ∀ a, s.Holds indexer a → form.eval a ∈ integers ℚ ∧ Brackets range (form.eval a))
    (hbound : ∀ k, bound = .fin k → neIsIntegerValuedRhs bound = true → k ∈ integers ℚ) :
    System.Extends (s.system indexer)
      ((emitGroupExclusion indexer ec form range s bound).system indexer)
      fun a => Comparison.ne.Holds (form.eval a) bound := by
  have hrefl := System.Extends.refl (s.system indexer) hs.readsBelow
  unfold emitGroupExclusion
  cases hint : neIsIntegerValuedRhs bound with
  | false =>
    rw [if_pos (by rfl)]
    exact hrefl.congr fun a ha => iff_of_true trivial (ne_of_not_integral (hreach a ha).1 hint)
  | true =>
    rw [if_neg (by exact Bool.false_ne_true)]
    cases bound with
    | negInf | posInf => cases hint
    | fin k =>
      have hk := hbound k rfl hint
      dsimp only
      generalize hcollapse : (if ec.bilinearTerms.isEmpty && ec.quadraticGroups.isEmpty then
        classifyReach range k else .disjunction) = collapse
      -- whichever way the verdict was reached, it says of the row that it differs
      have htells : ∀ a, s.Holds indexer a →
          (collapse = .alwaysTrue → form.eval a ≠ k) ∧
            (Excludes collapse k (form.eval a) ↔ form.eval a ≠ k) := by
        intro a ha
        obtain ⟨hv, hr⟩ := hreach a ha
        rw [← hcollapse]
        split
        · exact excludes_classifyReach hv hk hr
        · exact ⟨by simp, (ne_iff_apart hv hk).symm⟩
      have hne : ∀ v : ℚ, Comparison.ne.Holds v (.fin k) ↔ v ≠ k := fun v => by simp
      split
      · rename_i htrue
        exact hrefl.congr fun a ha => iff_of_true trivial ((hne _).mpr ((htells a ha).1 htrue))
      · exact (emitNotEqual_extends hs hform collapse k).congr fun a ha =>
          (htells a ha).2.trans (hne _).symm

/-- The constants of a group are those of its rows. -/
theorem sum_decideRowFixedLhsOffset {rows : List Nat} {off : ℚ}
    (hoff : sumFixedAggregateLhsOffset ec.lhsTerms rows = .ok off) :
    (rows.map fun r => decideRowFixedLhsOffset ec.lhsTerms r).sum = off := by
  unfold sumFixedAggregateLhsOffset at hoff
  dsimp only at hoff
  split at hoff
  · cases hoff
  · rw [← sum_fixedLhsOffset]
    exact Except.ok.inj hoff

/-- The rows of a group add up to their variable parts and the constants folded into the bound. -/
theorem sum_lhsValue {rows : List Nat} {off : ℚ}
    (hoff : sumFixedAggregateLhsOffset ec.lhsTerms rows = .ok off) (a : Nat → ℚ) :
    (rows.map (ec.lhsValue indexer a)).sum =
      (rows.map fun r => rowVariablePart ec.lhsTerms r (rowAssignment indexer a r)).sum + off := by
  rw [← sum_decideRowFixedLhsOffset hoff, ← List.sum_map_add]
  rfl

/-- The values excluded of a group, one for every row of it. -/
theorem forall_mem_excludedBounds {rows : List Nat} {off : ℚ} {P : Bound → Prop} :
    (∀ bound ∈ (distinctRhs ec rows).map (excludedBound ec rows off), P bound) ↔
      ∀ r ∈ rows, P ((groupScaledBound ec rows (ec.rhsValues r)).sub off) := by
  unfold distinctRhs
  constructor
  · intro h r hr
    refine h _ (List.mem_map.mpr ⟨ec.rhsValues r, ?_, rfl⟩)
    exact List.mem_eraseDups.mpr (List.mem_map_of_mem hr)
  · intro h bound hbound
    obtain ⟨k, hk, rfl⟩ := List.mem_map.mp hbound
    obtain ⟨r, hr, rfl⟩ := List.mem_map.mp (List.mem_eraseDups.mp hk)
    exact h r hr

/-- **One group of an aggregate `<>`.** -/
theorem expandGroupNotEqual_extends (hgrown : Grown indexer input s)
    (hgate : neLhsIsIntegerValued input.variableTypes input.numRows ec = .integer)
    (hops : IntegralOperands input ec) (hrigid : RigidContains input) {rows : List Nat}
    (hinst : rows ∈ constraintInstances ec input.numRows) (hrows : ∀ r ∈ rows, r < input.numRows)
    (hout : expandGroupNotEqual indexer ec s rows = .ok t) :
    Grown indexer input t ∧
      System.Extends (s.system indexer) (t.system indexer) (RowsDiffer indexer ec rows) := by
  have hn : input.numRows = indexer.numRows := hgrown.numRows_eq ▸ hgrown.wellScoped.numRows_eq
  have hlt : ∀ r ∈ rows, r < indexer.numRows := fun r hr => hn ▸ hrows r hr
  have hrig : s.rigidLowerBounds = input.rigidLowerBounds ∧
      s.rigidUpperBounds = input.rigidUpperBounds := by
    constructor <;> rw [hgrown.frame]
  unfold expandGroupNotEqual at hout
  split at hout
  · cases hout
  rename_i off hoff
  obtain rfl := Except.ok.inj hout
  rw [hrig.1, hrig.2]
  set form : Form Nat ℚ := notEqualAggregateRow indexer (indexer.globalBlockStart ≤ denseCap) ec.lhsTerms rows
    with hformdef
  have heval : ∀ a, form.eval a =
      (rows.map fun r => rowVariablePart ec.lhsTerms r (rowAssignment indexer a r)).sum :=
    fun a => eval_notEqualAggregateRow (hn ▸ hgate) _ hlt a
  have hform : ∀ e ∈ form, e.1 < indexer.globalBlockStart := fun e he =>
    notEqualAggregateRow_lt hlt he
  have hreach : ∀ a, input.InBoxes indexer a → form.eval a ∈ integers ℚ ∧ Brackets
      (groupReach ec rows input.rigidLowerBounds input.rigidUpperBounds) (form.eval a) := by
    intro a ha
    rw [heval]
    constructor
    · refine Subring.list_sum_mem _ fun x hx => ?_
      obtain ⟨r, hr, rfl⟩ := List.mem_map.mp hx
      exact rowVariablePart_mem_integers hgate hops ha (hrows r hr)
    · exact groupReach_brackets fun r hr => decideRowSignedRange_brackets
        (hrigid.inBox ha (hrows r hr)) (noTinyCoefficient_of_neGate hgate hops (hrows r hr))
  have hexact : ∀ bound ∈ (distinctRhs ec rows).map (excludedBound ec rows off), ∀ k,
      bound = .fin k → neIsIntegerValuedRhs bound = true → k ∈ integers ℚ := by
    have hoffint : off ∈ integers ℚ := by
      rw [← sum_decideRowFixedLhsOffset hoff]
      refine Subring.list_sum_mem _ fun x hx => ?_
      obtain ⟨r, hr, rfl⟩ := List.mem_map.mp hx
      exact fixedOffset_mem_integers hops (hrows r hr)
    rw [forall_mem_excludedBounds]
    intro r hr k hk hint
    rw [neIsIntegerValuedRhs_sub hoffint] at hint
    exact (hops.bounds rows hinst r hr).sub hoffint hk hint
  obtain ⟨hgrown', hext⟩ := System.Extends.foldl (fun s => s.system indexer)
    (emitGroupExclusion indexer ec form
      (groupReach ec rows input.rigidLowerBounds input.rigidUpperBounds))
    indexer.globalBlockStart (fun s => Grown indexer input s)
    (fun bound a => Comparison.ne.Holds (form.eval a) bound)
    (fun s hs => ⟨Nat.le_add_right _ _, hs.wellScoped.readsBelow⟩)
    ((distinctRhs ec rows).map (excludedBound ec rows off))
    (fun bound _ a b hab h => by
      dsimp only at h ⊢
      rwa [← Form.eval_congr fun e he => hab e.1 (hform e he)])
    (fun s bound hbound hs => by
      refine ⟨hs.trans (emits_groupExclusion (s := input) hs.wellScoped hform
        (SparseCoeffAccumulator.flush_nodup _).1 bound).toGrown, ?_⟩
      exact emitGroupExclusion_extends hs.wellScoped hform (fun a ha => hreach a (hs.inBoxes ha))
        fun k hk hint => hexact bound hbound k hk hint)
    s hgrown
  refine ⟨hgrown', hext.congr fun a _ => ?_⟩
  unfold RowsDiffer
  rw [forall_mem_excludedBounds, sum_lhsValue hoff, ← heval]
  simp only [Comparison.holds_sub]

/-- **An aggregate `<>` extends the input**, asking what it says. -/
theorem expandAggregateNotEqual_extends (hgrown : Grown indexer input s)
    (hgate : neLhsIsIntegerValued input.variableTypes input.numRows ec = .integer)
    (hops : IntegralOperands input ec) (hrigid : RigidContains input)
    (hagg : ec.lhsIsAggregate = true) (hout : expandAggregateNotEqual indexer s ec = .ok t) :
    Grown indexer input t ∧ System.Extends (s.system indexer) (t.system indexer)
      (NotEqualAsks indexer input.numRows ec) := by
  have hn : input.numRows = indexer.numRows := hgrown.numRows_eq ▸ hgrown.wellScoped.numRows_eq
  have hinst : constraintInstances ec input.numRows = aggregateGroups ec input.numRows := by
    unfold constraintInstances
    rw [if_pos hagg]
  unfold expandAggregateNotEqual at hout
  rw [hgrown.numRows_eq] at hout
  have hmem : ∀ rows ∈ (aggregateGroups ec input.numRows).filter (· ≠ []),
      rows ∈ constraintInstances ec input.numRows := fun rows hrows =>
    hinst ▸ (List.mem_filter.mp hrows).1
  obtain ⟨hgrown', hext⟩ := System.Extends.foldlM (fun s => s.system indexer)
    (expandGroupNotEqual indexer ec) indexer.globalBlockStart (Grown indexer input)
    (RowsDiffer indexer ec) (fun s hs => ⟨Nat.le_add_right _ _, hs.wellScoped.readsBelow⟩) _
    (fun rows hrows =>
      rowsDiffer_readsBelow (hn ▸ lt_of_mem_constraintInstances (hmem rows hrows)))
    (fun s s' rows hrows hs hs' =>
      expandGroupNotEqual_extends hs hgate hops hrigid (hmem rows hrows)
        (lt_of_mem_constraintInstances (hmem rows hrows)) hs')
    s t hgrown hout
  refine ⟨hgrown', hext.congr fun a _ => ?_⟩
  unfold NotEqualAsks
  rw [hinst]
  constructor
  · intro h rows hrows r hr
    exact h rows (List.mem_filter.mpr ⟨hrows, by simpa using List.ne_nil_of_mem hr⟩) r hr
  · intro h rows hrows
    exact h rows (List.mem_filter.mp hrows).1

/-! ## The pass -/

/-- The block does not read the constraints. -/
theorem system_withConstraints (s : SolverInput) (constraints : List EvaluatedConstraint) :
    SolverInput.system { s with constraints } indexer = s.system indexer :=
  congrArg (System.mk _) (funext fun _ => propext
    ⟨fun h => ⟨h.inBoxes, h.globals, h.rows, h.generals, h.indicators⟩,
      fun h => ⟨h.inBoxes, h.globals, h.rows, h.generals, h.indicators⟩⟩)

/-- The constraints that are no `<>`. -/
def withoutNotEqual (constraints : List EvaluatedConstraint) : List EvaluatedConstraint :=
  constraints.filter fun ec => ec.neClauseIdx.isNone

/-- A pass that is not refused: every `<>` passed its gate, and the two loops ran. -/
theorem linearizeNotEqual_ok (hout : linearizeNotEqual input indexer = .ok out) :
    (∀ ec ∈ notEqualConstraints input,
      neLhsIsIntegerValued input.variableTypes input.numRows ec = .integer) ∧
    ((notEqualConstraints input).filter (·.lhsIsAggregate)).foldlM (expandAggregateNotEqual indexer)
      { ((notEqualConstraints input).filter fun ec => !ec.lhsIsAggregate).foldl
          (expandRowNotEqual indexer) input with
        constraints := withoutNotEqual input.constraints } = .ok out := by
  unfold linearizeNotEqual at hout
  dsimp only at hout
  split at hout
  · cases hout
  rename_i hgates
  refine ⟨fun ec hec => ?_, hout⟩
  by_contra hne
  exact hgates (List.any_eq_true.mpr ⟨ec, hec, decide_eq_true hne⟩)

/-- **The two loops**: they append to the block, and ask what every `<>` asks. -/
theorem expandNotEqual_extends (hw : input.WellScoped indexer) (hrigid : RigidContains input)
    (hops : ∀ ec ∈ notEqualConstraints input, IntegralOperands input ec)
    (hout : linearizeNotEqual input indexer = .ok out) :
    Grown indexer { input with constraints := withoutNotEqual input.constraints } out ∧
      System.Extends (input.system indexer) (out.system indexer) fun a =>
        ∀ ec ∈ notEqualConstraints input, NotEqualAsks indexer input.numRows ec a := by
  have hn := hw.numRows_eq
  obtain ⟨hgate, hout⟩ := linearizeNotEqual_ok hout
  set perRow := (notEqualConstraints input).filter fun ec => !ec.lhsIsAggregate with hperRow
  set aggregates := (notEqualConstraints input).filter (·.lhsIsAggregate) with haggregates
  set rest := withoutNotEqual input.constraints with hrest
  obtain ⟨hrows, hfirst⟩ := System.Extends.foldl (fun s => s.system indexer)
    (expandRowNotEqual indexer) indexer.globalBlockStart (Grown indexer input)
    (NotEqualAsks indexer input.numRows)
    (fun s hs => ⟨Nat.le_add_right _ _, hs.wellScoped.readsBelow⟩) perRow
    (fun ec _ => notEqualAsks_readsBelow hn)
    (fun s ec hec hs => by
      obtain ⟨hec, hrow⟩ := List.mem_filter.mp hec
      exact expandRowNotEqual_extends hs (hgate ec hec) (hops ec hec) hrigid (by simpa using hrow))
    input (.refl hw)
  set rows := perRow.foldl (expandRowNotEqual indexer) input with hrowsdef
  -- the constraints left over are no part of the block
  have hsame : SameBlock rows { rows with constraints := rest } := ⟨rfl, rfl, rfl, rfl, rfl⟩
  have hgrown : Grown indexer { input with constraints := rest } { rows with constraints := rest } :=
    ⟨hsame.wellScoped hrows.wellScoped, hrows.width_le, by conv_lhs => rw [hrows.frame]⟩
  have hrigid' : RigidContains { input with constraints := rest } := ⟨hrigid.lower, hrigid.upper⟩
  obtain ⟨hlast, hsecond⟩ := System.Extends.foldlM (fun s => s.system indexer)
    (expandAggregateNotEqual indexer) indexer.globalBlockStart
    (Grown indexer { input with constraints := rest }) (NotEqualAsks indexer input.numRows)
    (fun s hs => ⟨Nat.le_add_right _ _, hs.wellScoped.readsBelow⟩) aggregates
    (fun ec _ => notEqualAsks_readsBelow hn)
    (fun s s' ec hec hs hs' => by
      obtain ⟨hec, hagg⟩ := List.mem_filter.mp hec
      have hop := hops ec hec
      exact expandAggregateNotEqual_extends hs (hgate ec hec) ⟨hop.boxed, hop.constants, hop.bounds⟩
        hrigid' hagg hs')
    _ out hgrown hout
  refine ⟨hlast, ?_⟩
  have hall : System.Extends (input.system indexer) (out.system indexer) fun a =>
      (∀ ec ∈ perRow, NotEqualAsks indexer input.numRows ec a) ∧
        ∀ ec ∈ aggregates, NotEqualAsks indexer input.numRows ec a :=
    hfirst.trans (system_withConstraints rows rest ▸ hsecond)
      ((ReadsBelow.forall_mem fun ec _ => notEqualAsks_readsBelow hn).mono (Nat.le_add_right _ _))
  refine hall.congr fun a _ => ?_
  constructor
  · rintro ⟨hrow, hgroup⟩ ec hec
    cases hagg : ec.lhsIsAggregate with
    | true => exact hgroup ec (List.mem_filter.mpr ⟨hec, hagg⟩)
    | false => exact hrow ec (List.mem_filter.mpr ⟨hec, by rw [hagg]; rfl⟩)
  · intro h
    exact ⟨fun ec hec => h ec (List.mem_filter.mp hec).1, fun ec hec => h ec (List.mem_filter.mp hec).1⟩

/-- `x <> 2` and `SUM(x) <> 3` over two rows, `x` being an integer between 0 and 5. -/
def rowAndSumDiffer : SolverInput where
  numRows := 2
  variableTypes := [.integer]
  lowerBounds := [0]
  upperBounds := [5]
  rigidLowerBounds := [0]
  rigidUpperBounds := [5]
  constraints := [
    { lhsTerms := [{ variableIndex := some 0, rowCoefficients := fun _ => 1 }]
      rhsValues := fun _ => .fin 2
      comparisonType := .ne
      neClauseIdx := some 0 },
    { lhsTerms := [{ variableIndex := some 0, rowCoefficients := fun _ => 1, reduction := .sum }]
      rhsValues := fun _ => .fin 3
      comparisonType := .ne
      lhsIsAggregate := true
      neClauseIdx := some 1 }]

theorem rowAndSumDiffer_operands {ec : EvaluatedConstraint}
    (h : ec ∈ notEqualConstraints rowAndSumDiffer) : IntegralOperands rowAndSumDiffer ec := by
  have hexact : ∀ n : ℤ, ExactBound (.fin n) := fun n k hk _ => by
    obtain rfl := Bound.fin.inj hk
    exact intCast_mem_integers n
  obtain rfl | rfl : ec = rowAndSumDiffer.constraints[0] ∨ ec = rowAndSumDiffer.constraints[1] := by
    simpa [notEqualConstraints, rowAndSumDiffer] using h
  · refine ⟨fun t ht v hv => ?_, fun t ht hv => ?_, fun rows _ r _ => hexact 2⟩
    · rw [List.mem_singleton.mp ht] at hv
      obtain rfl : 0 = v := Option.some.inj hv
      rfl
    · rw [List.mem_singleton.mp ht] at hv
      cases hv
  · refine ⟨fun t ht v hv => ?_, fun t ht hv => ?_, fun rows _ r _ => hexact 3⟩
    · rw [List.mem_singleton.mp ht] at hv
      obtain rfl : 0 = v := Option.some.inj hv
      rfl
    · rw [List.mem_singleton.mp ht] at hv
      cases hv

end Decidb
