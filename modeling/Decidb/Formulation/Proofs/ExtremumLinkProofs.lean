import Decidb.Formulation.ExtremumLink
import Decidb.Linear.Extremum
import Decidb.Formulation.Proofs.SolverInputProofs

/-!
# Extremum links pin the result column

The envelope says the result is beyond every member, the closing side that it reaches one. The
native arm states both at once; the Big-M arm states the closing side exactly as long as `M`
dominates the reach of `result - member` over the accepted assignments.
-/

namespace Decidb

open Linear SolverInput

variable {indexer : VarIndexer} {input : SolverInput} {a b : Nat → ℚ} {n : Nat}

/-! ## Single members -/

/-- The members mention only the first `n` columns. -/
def MembersBelow (n : Nat) (members : List ExtremumMember) : Prop :=
  ∀ m ∈ members, ∀ t ∈ m.link.appendTo, t.1 < n

theorem MembersBelow.mono {members : List ExtremumMember} {k : Nat} (h : MembersBelow n members)
    (hk : n ≤ k) : MembersBelow k members := fun m hm t ht => (h m hm t ht).trans_le hk

theorem MembersBelow.tail {m : ExtremumMember} {members : List ExtremumMember}
    (h : MembersBelow n (m :: members)) : MembersBelow n members :=
  fun k hk => h k (List.mem_cons_of_mem _ hk)

theorem ExtremumMember.value_congr {m : ExtremumMember} (hm : ∀ t ∈ m.link.appendTo, t.1 < n)
    (hab : AgreeBelow n a b) : m.value a = m.value b := by
  unfold ExtremumMember.value
  rw [Form.eval_congr fun t ht => hab t.1 (hm t ht)]

theorem appendTo_eval (link : MinMaxLinkRow)
    (h : ∀ t ∈ link.form, t.2 = 0 ∨ coefficientCut ≤ |t.2|) :
    link.appendTo.eval a = link.form.eval a := by
  refine Form.eval_filter_of_zero _ _ _ fun t ht hp => ?_
  exact (h t ht).resolve_right (by simpa using hp)

/-- The side of the envelope a member asks for. -/
def EnvelopeSide (isMax : Bool) (z e : ℚ) : Prop := if isMax then e ≤ z else z ≤ e

/-- The side on which the result must reach a member. -/
def ClosingSide (isMax : Bool) (z e : ℚ) : Prop := if isMax then z ≤ e else e ≤ z

/-- The span of a bounded family dominates any reach between two of its values. -/
theorem span_dominates {isMax : Bool} {family : AuxRange} {x y z : ℚ} (hund : family.unbounded = false)
    (hx : family.Contains x) (hy : family.Contains y) (hcl : ClosingSide isMax z x) :
    if isMax then z - y ≤ family.span else y - z ≤ family.span := by
  cases isMax with
  | true =>
    have h := AuxRange.sub_le_span hund hx hy
    have hzx : z ≤ x := hcl
    simp only [if_true]
    linarith
  | false =>
    have h := AuxRange.sub_le_span hund hy hx
    have hzx : x ≤ z := hcl
    simp only [Bool.false_eq_true, if_false]
    linarith

theorem envelopeRow_holds_iff (spec : ExtremumLinkSpec) (m : ExtremumMember) :
    (envelopeRow spec m).Holds a ↔ EnvelopeSide spec.isMax (a spec.resultColumn) (m.value a) := by
  unfold envelopeRow Row.Holds EnvelopeSide ExtremumMember.value
  cases spec.isMax <;> simp only [Form.eval_cons, Sense.Holds, Bool.false_eq_true, if_false,
    if_true] <;> constructor <;> intro h <;> linarith

theorem closingRow_holds_max {spec : ExtremumLinkSpec} (hmax : spec.isMax = true)
    (m : ExtremumMember) (y : Nat) :
    (closingRow spec m y).Holds a ↔
      a spec.resultColumn - m.value a + spec.closingBigM * a y ≤ spec.closingBigM := by
  unfold closingRow Row.Holds ExtremumMember.value
  simp only [hmax, if_true, Form.eval_append, Form.eval_cons, Form.eval_nil, Sense.Holds]
  constructor <;> intro h <;> linarith

theorem closingRow_holds_min {spec : ExtremumLinkSpec} (hmin : spec.isMax = false)
    (m : ExtremumMember) (y : Nat) :
    (closingRow spec m y).Holds a ↔
      -spec.closingBigM ≤ a spec.resultColumn - m.value a + -spec.closingBigM * a y := by
  unfold closingRow Row.Holds ExtremumMember.value
  simp only [hmin, Bool.false_eq_true, if_false, Form.eval_append, Form.eval_cons, Form.eval_nil,
    Sense.Holds]
  constructor <;> intro h <;> linarith

/-! ## The envelope -/

theorem envelope_spec (spec : ExtremumLinkSpec) (members : List ExtremumMember) :
    ∀ input : SolverInput, input.WellScoped indexer →
      spec.resultColumn < input.width indexer → MembersBelow (input.width indexer) members →
      let out := members.foldl (fun input m => input.pushRow (envelopeRow spec m)) input
      out.WellScoped indexer ∧ out.width indexer = input.width indexer ∧
        ∀ a, out.Holds indexer a ↔ input.Holds indexer a ∧
          ∀ m ∈ members, EnvelopeSide spec.isMax (a spec.resultColumn) (m.value a) := by
  induction members with
  | nil => intro input hw _ _; exact ⟨hw, rfl, by simp⟩
  | cons m members ih =>
    intro input hw hz hmem
    have hscope : ∀ t ∈ (envelopeRow spec m).form, t.1 < input.width indexer := by
      intro t ht
      rcases List.mem_cons.mp ht with rfl | ht
      · exact hz
      · exact hmem m List.mem_cons_self t ht
    obtain ⟨hw', hwidth, hiff⟩ := ih _ (hw.pushRow hscope) hz hmem.tail
    refine ⟨hw', hwidth, fun a => ?_⟩
    rw [List.foldl_cons, hiff a, holds_pushRow, envelopeRow_holds_iff, and_assoc,
      List.forall_mem_cons]

/-! ## The native arm -/

/-- The value of the extremum over a family, at an assignment. -/
def ExtremumOf (isMax : Bool) (members : List ExtremumMember) (a : Nat → ℚ) (z : ℚ) : Prop :=
  if isMax then (members.map fun m => m.value a).max? = some z
  else (members.map fun m => m.value a).min? = some z

/-- The envelope of all members is the envelope of their extremum. -/
theorem ExtremumOf.envelope_iff {isMax : Bool} {members : List ExtremumMember} {v : ℚ}
    (h : ExtremumOf isMax members a v) (z : ℚ) :
    (∀ m ∈ members, EnvelopeSide isMax z (m.value a)) ↔ EnvelopeSide isMax z v := by
  cases isMax with
  | true => simpa [EnvelopeSide] using (listMax_le_iff h z).symm
  | false => simpa [EnvelopeSide] using (le_listMin_iff h z).symm

/-- Reaching some member is reaching the extremum. -/
theorem ExtremumOf.closing_iff {isMax : Bool} {members : List ExtremumMember} {v : ℚ}
    (h : ExtremumOf isMax members a v) (z : ℚ) :
    (∃ m ∈ members, ClosingSide isMax z (m.value a)) ↔ ClosingSide isMax z v := by
  cases isMax with
  | true => simpa [ClosingSide] using (le_listMax_iff h z).symm
  | false => simpa [ClosingSide] using (listMin_le_iff h z).symm

theorem MinMaxLinkRow.soleColumn?_eq_some {link : MinMaxLinkRow} {c : Nat}
    (h : link.soleColumn? = some c) : link.appendTo = [(c, -1)] ∧ link.constant = 0 := by
  unfold soleColumn? at h
  generalize link.appendTo = f at h
  match f, h with
  | [(d, k)], h =>
    by_cases hk : k = -1 ∧ link.constant = 0
    · obtain rfl : d = c := by simpa [hk] using h
      exact ⟨by rw [hk.1], hk.2⟩
    · simp [hk] at h

/-- The argument column of a member carries the member's value in every accepted assignment, and
costs no assignment. -/
theorem extremumArgumentColumn_spec (hw : input.WellScoped indexer) {m : ExtremumMember}
    (hm : ∀ t ∈ m.link.appendTo, t.1 < input.width indexer)
    (hrange : ∀ a, input.Holds indexer a → m.range.Contains (m.value a)) :
    let out := extremumArgumentColumn input indexer m
    out.1.WellScoped indexer ∧ out.2 < out.1.width indexer ∧
      (∀ b, out.1.Holds indexer b → b out.2 = m.value b) ∧
      System.Extends (input.system indexer) (out.1.system indexer) fun _ => True := by
  have hfresh : let t := input.width indexer
      let out := (input.addGlobalContinuousAux indexer m.range).1.pushRow
        ⟨(t, 1) :: m.link.appendTo, .eq, m.link.constant⟩
      out.WellScoped indexer ∧ t < out.width indexer ∧
        (∀ b, out.Holds indexer b → b t = m.value b) ∧
        System.Extends (input.system indexer) (out.system indexer) fun _ => True := by
    intro t out
    have hpin : ∀ b, Row.Holds ⟨(t, 1) :: m.link.appendTo, .eq, m.link.constant⟩ b ↔
        b t = m.value b := by
      intro b
      unfold Row.Holds ExtremumMember.value
      simp only [Form.eval_cons, Sense.Holds]
      constructor <;> intro h <;> linarith
    have hout : ∀ b, out.Holds indexer b ↔ (input.Holds indexer b ∧
        (⟨if m.range.loUnbounded then -openBound else m.range.lo,
          if m.range.hiUnbounded then openBound else m.range.hi, false⟩ : ColumnBox).Admits (b t)) ∧
        b t = m.value b := by
      intro b
      rw [holds_pushRow, hpin b]
      unfold addGlobalContinuousAux
      rw [holds_appendColumn]
    have hww : out.width indexer = input.width indexer + 1 := by
      rw [pushRow_width, addGlobalContinuousAux_width]
    refine ⟨(hw.appendColumn _).pushRow ?_, ?_, fun b hb => ((hout b).mp hb).2, ?_, ?_⟩
    · intro u hu
      have : input.width indexer < out.width indexer := by omega
      rcases List.mem_cons.mp hu with rfl | hu
      · exact this
      · exact (hm u hu).trans this
    · omega
    · show input.width indexer ≤ out.width indexer
      omega
    · intro a
      constructor
      · rintro ⟨b, hab, hb⟩
        exact ⟨hw.readsBelow b a hab ((hout b).mp hb).1.1, trivial⟩
      · rintro ⟨ha, -⟩
        obtain ⟨b, hext, hb⟩ := AgreeBelow.exists_extend (input.width indexer) a fun _ => m.value a
        have hval : b t = m.value b := by
          rw [ExtremumMember.value_congr hm hext]
          exact hb 0
        refine ⟨b, hext, (hout b).mpr ⟨⟨hw.readsBelow _ _ hext.symm ha, ?_⟩, hval⟩⟩
        rw [show b t = m.value a from hb 0]
        exact admits_of_contains (hrange a ha)
  unfold extremumArgumentColumn
  cases hsole : m.link.soleColumn? with
  | none => exact hfresh
  | some c =>
    obtain ⟨happ, hconst⟩ := MinMaxLinkRow.soleColumn?_eq_some hsole
    refine ⟨hw, hm (c, -1) (by rw [happ]; simp), fun b _ => ?_,
      System.Extends.refl _ hw.readsBelow⟩
    simp [ExtremumMember.value, happ, hconst]

/-- The argument columns carry the members' values and cost no assignment. -/
theorem emitArguments_spec (members : List ExtremumMember) :
    ∀ input : SolverInput, input.WellScoped indexer →
      MembersBelow (input.width indexer) members →
      (∀ a, input.Holds indexer a → ∀ m ∈ members, m.range.Contains (m.value a)) →
      let out := emitArguments indexer input members
      out.1.WellScoped indexer ∧ (∀ c ∈ out.2, c < out.1.width indexer) ∧
        (∀ b, out.1.Holds indexer b → out.2.map b = members.map fun m => m.value b) ∧
        System.Extends (input.system indexer) (out.1.system indexer) fun _ => True := by
  induction members with
  | nil =>
    intro input hw _ _
    exact ⟨hw, by simp [emitArguments], by simp [emitArguments],
      System.Extends.refl _ hw.readsBelow⟩
  | cons m members ih =>
    intro input hw hmem hrange
    obtain ⟨hw1, hc1, hval1, hext1⟩ := extremumArgumentColumn_spec hw
      (hmem m List.mem_cons_self) fun a ha => hrange a ha m List.mem_cons_self
    obtain ⟨hw2, hc2, hval2, hext2⟩ := ih _ hw1 (hmem.tail.mono hext1.width_le) fun a ha k hk =>
      hrange a (hext1.holds ha).1 k (List.mem_cons_of_mem _ hk)
    refine ⟨hw2, ?_, fun b hb => ?_, ?_⟩
    · intro c hc
      rcases List.mem_cons.mp hc with rfl | hc
      · exact hc1.trans_le hext2.width_le
      · exact hc2 c hc
    · have h1 := hval1 b (hext2.holds hb).1
      have h2 := hval2 b hb
      simp only [emitArguments, List.map_cons]
      rw [h1, h2]
    · exact (hext1.trans hext2 fun _ _ _ _ => trivial).congr fun _ _ => by simp

/-! ## The Big-M arm -/

/-- The selectors are fresh 0/1 columns, one closing row each. -/
theorem emitSelectors_spec (spec : ExtremumLinkSpec) (members : List ExtremumMember) :
    ∀ input : SolverInput, input.WellScoped indexer →
      spec.resultColumn < input.width indexer → MembersBelow (input.width indexer) members →
      let out := emitSelectors indexer spec input members
      out.1.WellScoped indexer ∧ out.1.width indexer = input.width indexer + members.length ∧
        out.2 = (List.range members.length).map (input.width indexer + ·) ∧
        ∀ b, out.1.Holds indexer b ↔ input.Holds indexer b ∧ ∀ i m, members[i]? = some m →
          (b (input.width indexer + i) = 0 ∨ b (input.width indexer + i) = 1) ∧
            (closingRow spec m (input.width indexer + i)).Holds b := by
  induction members with
  | nil => intro input hw _ _; exact ⟨hw, rfl, rfl, by simp [emitSelectors]⟩
  | cons m members ih =>
    intro input hw hz hmem
    set w := input.width indexer with hwdef
    let next := (input.addGlobalBinaryAux indexer).1.pushRow (closingRow spec m w)
    have hnext : next.width indexer = w + 1 := by
      rw [pushRow_width, addGlobalBinaryAux_width]
    have hscope : ∀ t ∈ (closingRow spec m w).form, t.1 < next.width indexer := by
      intro t ht
      simp only [closingRow, List.cons_append, List.mem_cons, List.mem_append, List.not_mem_nil,
        or_false] at ht
      rcases ht with rfl | ht | rfl
      · exact hz.trans (by omega)
      · exact (hmem m List.mem_cons_self t ht).trans (by omega)
      · show w < next.width indexer
        omega
    obtain ⟨hw', hwidth, hys, hiff⟩ := ih next ((hw.appendColumn ⟨0, 1, true⟩).pushRow hscope)
      (by omega) (hmem.tail.mono (by omega))
    have hstep : ∀ b, next.Holds indexer b ↔
        (input.Holds indexer b ∧ (b w = 0 ∨ b w = 1)) ∧ (closingRow spec m w).Holds b := by
      intro b
      rw [holds_pushRow]
      unfold addGlobalBinaryAux
      rw [holds_appendColumn, binary_admits_iff]
    have hemit : emitSelectors indexer spec input (m :: members) =
        ((emitSelectors indexer spec next members).1,
          w :: (emitSelectors indexer spec next members).2) := rfl
    rw [hemit]
    refine ⟨hw', ?_, ?_, fun b => ?_⟩
    · simp only [List.length_cons]
      omega
    · simp only [List.length_cons, List.range_succ_eq_map, List.map_cons, List.map_map,
        Nat.add_zero]
      refine congrArg _ (hys.trans (List.map_congr_left fun i _ => ?_))
      show next.width indexer + i = w + (i + 1)
      omega
    · rw [hiff b, hstep b, and_assoc, and_assoc]
      refine and_congr_right fun _ => ?_
      rw [← and_assoc, hnext]
      constructor
      · rintro ⟨h0, hrest⟩ i k hk
        cases i with
        | zero =>
          obtain rfl : m = k := by simpa using hk
          exact h0
        | succ i =>
          rw [show w + (i + 1) = w + 1 + i by omega]
          exact hrest i k (by simpa using hk)
      · intro h
        refine ⟨h 0 m rfl, fun i k hk => ?_⟩
        rw [show w + 1 + i = w + (i + 1) by omega]
        exact h (i + 1) k (by simpa using hk)

/-- What the closing Big-M has to dominate once the result reaches a member. -/
def DominatesReach (spec : ExtremumLinkSpec) (members : List ExtremumMember) (a : Nat → ℚ) : Prop :=
  (∃ m ∈ members, ClosingSide spec.isMax (a spec.resultColumn) (m.value a)) → ∀ m ∈ members,
    if spec.isMax then a spec.resultColumn - m.value a ≤ spec.closingBigM
    else m.value a - a spec.resultColumn ≤ spec.closingBigM

theorem sum_map_range (f : Nat → ℚ) (n : Nat) :
    ((List.range n).map f).sum = ∑ i : Fin n, f i := by
  rw [Fin.sum_univ_eq_sum_range]
  rfl

/-- The closing side of the Big-M arm: the result reaches some member. -/
theorem emitSelectors_extends {spec : ExtremumLinkSpec} {members : List ExtremumMember}
    (hw : input.WellScoped indexer) (hz : spec.resultColumn < input.width indexer)
    (hmem : MembersBelow (input.width indexer) members)
    (hM : ∀ a, input.Holds indexer a → DominatesReach spec members a) :
    let sel := emitSelectors indexer spec input members
    let out := sel.1.pushRow ⟨sel.2.map fun y => (y, 1), .ge, 1⟩
    out.WellScoped indexer ∧
      System.Extends (input.system indexer) (out.system indexer) fun a =>
        ∃ m ∈ members, ClosingSide spec.isMax (a spec.resultColumn) (m.value a) := by
  intro sel out
  obtain ⟨hw', hwidth, hys, hiff⟩ := emitSelectors_spec spec members input hw hz hmem
  set w := input.width indexer with hwdef
  have hsum : ∀ b, Row.Holds ⟨sel.2.map fun y => (y, (1 : ℚ)), .ge, 1⟩ b ↔
      1 ≤ ∑ i : Fin members.length, b (w + i) := by
    intro b
    have heval : Form.eval (sel.2.map fun y => (y, (1 : ℚ))) b =
        ∑ i : Fin members.length, b (w + i) := by
      rw [Form.eval_map_unit, hys, List.map_map, ← sum_map_range fun i => b (w + i)]
      rfl
    unfold Row.Holds
    rw [heval]
    exact Iff.rfl
  have hscope : ∀ t ∈ sel.2.map fun y => (y, (1 : ℚ)), t.1 < sel.1.width indexer := by
    intro t ht
    rw [hys] at ht
    simp only [List.map_map, List.mem_map, List.mem_range, Function.comp] at ht
    obtain ⟨i, hi, rfl⟩ := ht
    rw [hwidth]
    exact Nat.add_lt_add_left hi w
  -- the rows of the family, read as conditions on the selector values
  have hrows : ∀ b, out.Holds indexer b ↔ input.Holds indexer b ∧
      (∀ i : Fin members.length, b (w + i) = 0 ∨ b (w + i) = 1) ∧
      (∀ i : Fin members.length, (closingRow spec members[i] (w + i)).Holds b) ∧
      1 ≤ ∑ i : Fin members.length, b (w + i) := by
    intro b
    rw [holds_pushRow, hiff b, hsum b, and_assoc]
    refine and_congr_right fun _ => ?_
    constructor
    · rintro ⟨h, hs⟩
      exact ⟨fun i => (h i _ (List.getElem?_eq_getElem i.2)).1,
        fun i => (h i _ (List.getElem?_eq_getElem i.2)).2, hs⟩
    · rintro ⟨h01, hrow, hs⟩
      refine ⟨fun i m hm => ?_, hs⟩
      obtain ⟨hi, rfl⟩ := List.getElem?_eq_some_iff.mp hm
      exact ⟨h01 ⟨i, hi⟩, hrow ⟨i, hi⟩⟩
  refine ⟨hw'.pushRow hscope, ?_, fun a => ?_⟩
  · show w ≤ out.width indexer
    rw [pushRow_width, hwidth]
    omega
  have hmemi : ∀ i : Fin members.length, ∀ t ∈ members[i].link.appendTo, t.1 < w :=
    fun i => hmem _ (List.getElem_mem i.2)
  -- the selectors live on fresh columns, so members and result read the same on either side
  have hval : ∀ b, AgreeBelow w b a → ∀ i : Fin members.length,
      members[i].value b = members[i].value a :=
    fun b hab i => ExtremumMember.value_congr (hmemi i) hab
  have hclose : ∀ (y : Nat → ℚ) (b : Nat → ℚ), AgreeBelow w b a → (∀ i, b (w + i) = y i) →
      ((∀ i : Fin members.length, (closingRow spec members[i] (w + i)).Holds b) ↔
        ∀ i : Fin members.length,
          if spec.isMax then a spec.resultColumn - members[i].value a + spec.closingBigM * y i ≤
            spec.closingBigM
          else -spec.closingBigM ≤ a spec.resultColumn - members[i].value a +
            -spec.closingBigM * y i) := by
    intro y b hab hy
    refine forall_congr' fun i => ?_
    cases hmax : spec.isMax with
    | true => rw [closingRow_holds_max hmax, hval b hab i, hab _ hz, hy i]; rfl
    | false => rw [closingRow_holds_min hmax, hval b hab i, hab _ hz, hy i]; simp
  have hkey : input.Holds indexer a → ((∃ y : Fin members.length → ℚ,
      (∀ i, y i = 0 ∨ y i = 1) ∧ (∀ i, if spec.isMax then
          a spec.resultColumn - members[i].value a + spec.closingBigM * y i ≤ spec.closingBigM
        else -spec.closingBigM ≤ a spec.resultColumn - members[i].value a +
          -spec.closingBigM * y i) ∧ 1 ≤ ∑ i, y i) ↔
      ∃ m ∈ members, ClosingSide spec.isMax (a spec.resultColumn) (m.value a)) := by
    intro ha
    have hdom := hM a ha
    have hex : (∃ m ∈ members, ClosingSide spec.isMax (a spec.resultColumn) (m.value a)) ↔
        ∃ i : Fin members.length,
          ClosingSide spec.isMax (a spec.resultColumn) (members[i].value a) := by
      constructor
      · rintro ⟨m, hm, h⟩
        obtain ⟨i, hi, rfl⟩ := List.getElem_of_mem hm
        exact ⟨⟨i, hi⟩, h⟩
      · rintro ⟨i, h⟩
        exact ⟨_, List.getElem_mem i.2, h⟩
    rw [hex]
    cases hmax : spec.isMax with
    | true =>
      have := exists_selectors_le_iff (a spec.resultColumn) spec.closingBigM
        (fun i : Fin members.length => members[i].value a)
        fun hi j => by
          have := hdom (hex.mpr (by simpa [hmax, ClosingSide] using hi)) _ (List.getElem_mem j.2)
          simpa [hmax] using this
      simpa [ClosingSide] using this
    | false =>
      have := exists_selectors_ge_iff (a spec.resultColumn) spec.closingBigM
        (fun i : Fin members.length => members[i].value a)
        fun hi j => by
          have := hdom (hex.mpr (by simpa [hmax, ClosingSide] using hi)) _ (List.getElem_mem j.2)
          simpa [hmax] using this
      simpa [ClosingSide] using this
  constructor
  · rintro ⟨b, hab, hb⟩
    obtain ⟨hin, h01, hrow, hs⟩ := (hrows b).mp hb
    have hab' : AgreeBelow w b a := hab
    have ha : input.Holds indexer a := hw.readsBelow b a hab' hin
    refine ⟨ha, (hkey ha).mp ⟨fun i => b (w + i), h01, ?_, hs⟩⟩
    exact (hclose (fun i => b (w + i)) b hab' fun _ => rfl).mp hrow
  · rintro ⟨ha, hex⟩
    obtain ⟨y, h01, hrow, hs⟩ := (hkey ha).mpr hex
    let v : Nat → ℚ := fun i => if h : i < members.length then y ⟨i, h⟩ else 0
    have hv : ∀ i : Fin members.length, v i = y i := fun i => by simp [v, i.2]
    obtain ⟨b, hext, hb⟩ := AgreeBelow.exists_extend w a v
    refine ⟨b, hext, (hrows b).mpr ⟨hw.readsBelow _ _ hext.symm ha, fun i => ?_, ?_, ?_⟩⟩
    · rw [hb, hv]
      exact h01 i
    · exact (hclose v b hext hb).mpr fun i => by rw [hv]; exact hrow i
    · rw [Finset.sum_congr rfl fun (i : Fin members.length) _ => (hb i).trans (hv i)]
      exact hs

/-! ## The whole link -/

/-- What a link asks of the columns that were there before it. -/
def LinkAsks (spec : ExtremumLinkSpec) (members : List ExtremumMember)
    (policy : NativeConstructPolicy) (a : Nat → ℚ) : Prop :=
  (spec.needEnvelope = true →
      ∀ m ∈ members, EnvelopeSide spec.isMax (a spec.resultColumn) (m.value a)) ∧
    (spec.needClosing = true →
      if policy.use spec.closingUnderivable then
        ExtremumOf spec.isMax members a (a spec.resultColumn)
      else ∃ m ∈ members, ClosingSide spec.isMax (a spec.resultColumn) (m.value a))

theorem linkAsks_readsBelow {spec : ExtremumLinkSpec} {members : List ExtremumMember}
    {policy : NativeConstructPolicy} (hz : spec.resultColumn < n)
    (hmem : MembersBelow n members) : ReadsBelow n (LinkAsks spec members policy) := by
  intro a b hab h
  have hval : ∀ m ∈ members, m.value b = m.value a := fun m hm =>
    (ExtremumMember.value_congr (hmem m hm) hab).symm
  have hmap : (members.map fun m => m.value b) = members.map fun m => m.value a :=
    List.map_congr_left hval
  refine ⟨fun henv m hm => ?_, fun hcl => ?_⟩
  · rw [hval m hm, ← hab _ hz]
    exact h.1 henv m hm
  · have hc := h.2 hcl
    by_cases hu : policy.use spec.closingUnderivable = true
    · simp only [hu, if_true, ExtremumOf] at hc ⊢
      rw [hmap, ← hab _ hz]
      exact hc
    · simp only [hu] at hc ⊢
      obtain ⟨m, hm, hs⟩ := hc
      exact ⟨m, hm, by rw [hval m hm, ← hab _ hz]; exact hs⟩

/-- **One extremum link.** On nonempty members the link extends the input and asks exactly
`LinkAsks`: the member ranges only have to hold the members' values, and the Big-M only has to
dominate their reach. -/
theorem emitExtremumLink_spec (spec : ExtremumLinkSpec) {members : List ExtremumMember}
    {varNames : List String} {policy : NativeConstructPolicy} {out : SolverInput}
    (hw : input.WellScoped indexer) (hz : spec.resultColumn < input.width indexer)
    (hmem : MembersBelow (input.width indexer) members) (hne : members ≠ [])
    (hrange : ∀ a, input.Holds indexer a → ∀ m ∈ members, m.range.Contains (m.value a))
    (hM : policy.use spec.closingUnderivable = false → spec.closingUnderivable = false →
      ∀ a, input.Holds indexer a → DominatesReach spec members a)
    (hok : emitExtremumLink input indexer spec members varNames policy = .ok out) :
    out.WellScoped indexer ∧ System.Extends (input.system indexer) (out.system indexer)
      (LinkAsks spec members policy) := by
  unfold emitExtremumLink at hok
  rw [if_neg (by simpa using hne)] at hok
  -- the envelope, when the site needs it
  set env : SolverInput := if spec.needEnvelope then
      members.foldl (fun input member => input.pushRow (envelopeRow spec member)) input
    else input with henv
  obtain ⟨hwE, hwidthE, hiffE⟩ : env.WellScoped indexer ∧
      env.width indexer = input.width indexer ∧ ∀ a, env.Holds indexer a ↔
        input.Holds indexer a ∧ (spec.needEnvelope = true → ∀ m ∈ members,
          EnvelopeSide spec.isMax (a spec.resultColumn) (m.value a)) := by
    cases hne' : spec.needEnvelope with
    | true =>
      rw [show env = _ from if_pos hne']
      obtain ⟨h1, h2, h3⟩ := envelope_spec spec members input hw hz hmem
      exact ⟨h1, h2, fun a => by rw [h3 a]; simp⟩
    | false =>
      rw [show env = input from if_neg (by simp [hne'])]
      exact ⟨hw, rfl, fun a => by simp⟩
  have hextE : System.Extends (input.system indexer) (env.system indexer) fun a =>
      spec.needEnvelope = true → ∀ m ∈ members,
        EnvelopeSide spec.isMax (a spec.resultColumn) (m.value a) := by
    refine System.Extends.of_holds_iff hwidthE ?_ hiffE
    show ReadsBelow (input.width indexer) (env.Holds indexer)
    rw [← hwidthE]
    exact hwE.readsBelow
  have hzE : spec.resultColumn < env.width indexer := hwidthE ▸ hz
  have hmemE : MembersBelow (env.width indexer) members := hwidthE ▸ hmem
  have hholdsE : ∀ a, env.Holds indexer a → input.Holds indexer a := fun a h => ((hiffE a).mp h).1
  cases hcl : spec.needClosing with
  | false =>
    simp only [hcl, Bool.not_false, if_true, Except.ok.injEq] at hok
    subst hok
    exact ⟨hwE, hextE.congr fun a _ => by simp [LinkAsks, hcl]⟩
  | true =>
    simp only [hcl, Bool.not_true, Bool.false_eq_true, if_false] at hok
    cases hu : policy.use spec.closingUnderivable with
    | true =>
      simp only [hu, if_true, Except.ok.injEq] at hok
      obtain ⟨hwA, hcA, hvalA, hextA⟩ := emitArguments_spec members env hwE hmemE fun a ha =>
        hrange a (hholdsE a ha)
      set arg := emitArguments indexer env members with harg
      have hzA : spec.resultColumn < arg.1.width indexer := hzE.trans_le hextA.width_le
      have hwO := hwA.pushGeneral ⟨if spec.isMax then .max else .min, spec.resultColumn, arg.2⟩ hzA hcA
      have hgen : ∀ b, arg.1.Holds indexer b →
          (GeneralConstraintSpec.Holds ⟨if spec.isMax then .max else .min, spec.resultColumn,
            arg.2⟩ b ↔ ExtremumOf spec.isMax members b (b spec.resultColumn)) := by
        intro b hb
        unfold GeneralConstraintSpec.Holds ExtremumOf
        rw [← hvalA b hb]
        cases spec.isMax <;> rfl
      have hextG : System.Extends (arg.1.system indexer) (out.system indexer) fun b =>
          ExtremumOf spec.isMax members b (b spec.resultColumn) := by
        refine (System.Extends.of_holds_iff (by rw [← hok]; rfl) ?_ fun b => ?_).congr hgen
        · rw [← hok]
          exact hwO.readsBelow
        · rw [← hok]
          exact holds_pushGeneral _
      have hreads : ReadsBelow (env.width indexer) fun b =>
          ExtremumOf spec.isMax members b (b spec.resultColumn) := by
        intro a b hab h
        have hmap : (members.map fun m => m.value a) = members.map fun m => m.value b :=
          List.map_congr_left fun m hm => ExtremumMember.value_congr (hmemE m hm) hab
        unfold ExtremumOf at h ⊢
        rw [← hmap, ← hab _ hzE]
        exact h
      have hreadsIn : ReadsBelow (input.width indexer) fun b =>
          True ∧ ExtremumOf spec.isMax members b (b spec.resultColumn) := by
        rw [← hwidthE]
        exact ReadsBelow.and (fun _ _ _ _ => trivial) hreads
      refine ⟨hok ▸ hwO, (hextE.trans (hextA.trans hextG hreads) hreadsIn).congr fun a _ => ?_⟩
      simp [LinkAsks, hcl, hu]
    | false =>
      simp only [hu, Bool.false_eq_true, if_false] at hok
      cases hund : spec.closingUnderivable with
      | true =>
        simp only [hund, if_true, throwUnboundedBigMNaming] at hok
        split at hok <;> cases hok
      | false =>
        simp only [hund, Bool.false_eq_true, if_false, Except.ok.injEq] at hok
        obtain ⟨hwS, hextS⟩ := emitSelectors_extends hwE hzE hmemE fun a ha =>
          hM hu hund a (hholdsE a ha)
        rw [hok] at hwS hextS
        have hreads : ReadsBelow (input.width indexer) fun a =>
            ∃ m ∈ members, ClosingSide spec.isMax (a spec.resultColumn) (m.value a) := by
          rintro a b hab ⟨m, hm, h⟩
          exact ⟨m, hm, by
            rw [← ExtremumMember.value_congr (hmem m hm) hab, ← hab _ hz]; exact h⟩
        exact ⟨hwS, (hextE.trans hextS hreads).congr fun a _ => by
          simp [LinkAsks, hcl, hu]⟩

end Decidb
