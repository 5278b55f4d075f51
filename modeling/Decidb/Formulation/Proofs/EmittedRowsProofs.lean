import Decidb.Formulation.FormulateModel
import Decidb.Formulation.Proofs.AbsLinkProofs
import Decidb.Formulation.Proofs.CoeffAccumulatorProofs
import Decidb.Formulation.Proofs.ComposedMinMaxProofs
import Decidb.Formulation.Proofs.MinMaxConstraintProofs
import Decidb.Formulation.Proofs.NotEqualProofs
import Decidb.Linear.Columns

/-!
# What the passes append lists its columns once

A pass appends to the global block and leaves the rest of the input alone. Whether what it appended
lists every column once is decided by a condition on what the pass was given; the conditions of the
passes of a run add up.
-/

namespace Decidb

open Linear SolverInput

variable {indexer : VarIndexer} {s t u : SolverInput}

/-! ## The global block -/

/-- A row over flat columns has entries, one for a column. -/
structure RowListed (r : RawConstraint) : Prop where
  nodup : (r.form.map (·.1)).Nodup
  ne_nil : r.form ≠ []

/-- The global block lists every column once in each of its parts. -/
structure SolverInput.Listed (input : SolverInput) : Prop where
  rows : ∀ r ∈ input.globalConstraints, RowListed r
  generals : ∀ gc ∈ input.generalConstraints, (gc.resultColumn :: gc.argumentColumns).Nodup
  indicators : ∀ ic ∈ input.indicatorConstraints,
    (ic.binaryColumn :: ic.row.form.map (·.1)).Nodup

theorem listed_pushRow (r : RawConstraint) : (s.pushRow r).Listed ↔ s.Listed ∧ RowListed r := by
  constructor
  · intro h
    exact ⟨⟨fun q hq => h.rows q (List.mem_append_left _ hq), h.generals, h.indicators⟩,
      h.rows r (List.mem_append_right _ (List.mem_singleton_self r))⟩
  · rintro ⟨h, hr⟩
    refine ⟨fun q hq => ?_, h.generals, h.indicators⟩
    rcases List.mem_append.mp hq with hq | hq
    · exact h.rows q hq
    · rw [List.mem_singleton.mp hq]
      exact hr

theorem listed_pushGeneral (gc : GeneralConstraintSpec) :
    (s.pushGeneral gc).Listed ↔ s.Listed ∧ (gc.resultColumn :: gc.argumentColumns).Nodup := by
  constructor
  · intro h
    exact ⟨⟨h.rows, fun q hq => h.generals q (List.mem_append_left _ hq), h.indicators⟩,
      h.generals gc (List.mem_append_right _ (List.mem_singleton_self gc))⟩
  · rintro ⟨h, hgc⟩
    refine ⟨h.rows, fun q hq => ?_, h.indicators⟩
    rcases List.mem_append.mp hq with hq | hq
    · exact h.generals q hq
    · rw [List.mem_singleton.mp hq]
      exact hgc

theorem listed_pushIndicator (ic : IndicatorConstraintSpec) :
    (s.pushIndicator ic).Listed ↔
      s.Listed ∧ (ic.binaryColumn :: ic.row.form.map (·.1)).Nodup := by
  constructor
  · intro h
    exact ⟨⟨h.rows, h.generals, fun q hq => h.indicators q (List.mem_append_left _ hq)⟩,
      h.indicators ic (List.mem_append_right _ (List.mem_singleton_self ic))⟩
  · rintro ⟨h, hic⟩
    refine ⟨h.rows, h.generals, fun q hq => ?_⟩
    rcases List.mem_append.mp hq with hq | hq
    · exact h.indicators q hq
    · rw [List.mem_singleton.mp hq]
      exact hic

/-! ## Steps that append -/

/-- `t` is `s` with its global block grown. -/
structure Grown (indexer : VarIndexer) (s t : SolverInput) : Prop where
  wellScoped : t.WellScoped indexer
  width_le : s.width indexer ≤ t.width indexer
  frame : t = { s with
    globalColumns := t.globalColumns
    globalConstraints := t.globalConstraints
    generalConstraints := t.generalConstraints
    indicatorConstraints := t.indicatorConstraints }

theorem Grown.refl (h : s.WellScoped indexer) : Grown indexer s s := ⟨h, le_rfl, rfl⟩

theorem Grown.trans (h : Grown indexer s t) (h' : Grown indexer t u) : Grown indexer s u where
  wellScoped := h'.wellScoped
  width_le := h.width_le.trans h'.width_le
  frame := by rw [h'.frame, h.frame]

theorem Grown.numRows_eq (h : Grown indexer s t) : t.numRows = s.numRows := by rw [h.frame]

theorem Grown.sameDecisions (h : Grown indexer s t) : SameDecisions t s := by
  constructor <;> rw [h.frame]

/-- `t` is `s` with its global block grown by parts that list every column once just when `clean`. -/
structure Emits (indexer : VarIndexer) (s t : SolverInput) (clean : Prop) : Prop extends
    Grown indexer s t where
  listed_iff : t.Listed ↔ s.Listed ∧ clean

namespace Emits

variable {clean clean' : Prop}

theorem refl (h : s.WellScoped indexer) : Emits indexer s s True :=
  ⟨.refl h, by rw [and_true]⟩

theorem trans (h : Emits indexer s t clean) (h' : Emits indexer t u clean') :
    Emits indexer s u (clean ∧ clean') :=
  ⟨h.toGrown.trans h'.toGrown, by rw [h'.listed_iff, h.listed_iff, and_assoc]⟩

theorem congr (h : Emits indexer s t clean) (hc : clean ↔ clean') : Emits indexer s t clean' :=
  ⟨h.toGrown, by rw [h.listed_iff, hc]⟩

/-- A step whose condition is met. -/
theorem always (h : Emits indexer s t clean) (hc : clean) : Emits indexer s t True :=
  h.congr (iff_true_intro hc)

theorem trans_true (h : Emits indexer s t clean) (h' : Emits indexer t u True) :
    Emits indexer s u clean := (h.trans h').congr (by rw [and_true])

theorem true_trans (h : Emits indexer s t True) (h' : Emits indexer t u clean) :
    Emits indexer s u clean := (h.trans h').congr (by rw [true_and])

/-- A loop over steps that append. -/
theorem foldl {α : Type} {f : SolverInput → α → SolverInput} {l : List α} {C : α → Prop}
    (hf : ∀ x ∈ l, ∀ t, Grown indexer s t → Emits indexer t (f t x) (C x)) : ∀ {t : SolverInput},
    Grown indexer s t → Emits indexer t (l.foldl f t) (∀ x ∈ l, C x) := by
  induction l with
  | nil => exact fun ht => (refl ht.wellScoped).congr (by simp)
  | cons x l ih =>
    intro t ht
    have hx := hf x List.mem_cons_self t ht
    have hrest := ih (fun y hy => hf y (List.mem_cons_of_mem _ hy)) (ht.trans hx.toGrown)
    exact (hx.trans hrest).congr (by rw [List.forall_mem_cons])

/-- A loop over steps that append or refuse, `input` being what a state of the loop holds of it. -/
theorem foldlM {α σ : Type} (input : σ → SolverInput) {f : σ → α → Except String σ} {l : List α}
    {C : α → Prop}
    (hf : ∀ x ∈ l, ∀ t u, Grown indexer s (input t) → f t x = .ok u →
      Emits indexer (input t) (input u) (C x)) :
    ∀ {t u : σ}, Grown indexer s (input t) → l.foldlM f t = .ok u →
      Emits indexer (input t) (input u) (∀ x ∈ l, C x) := by
  induction l with
  | nil =>
    intro t u ht h
    obtain rfl : t = u := Except.ok.inj h
    exact (refl ht.wellScoped).congr (by simp)
  | cons x l ih =>
    intro t u ht h
    rw [List.foldlM_cons] at h
    cases hx : f t x with
    | error e =>
      rw [hx] at h
      cases h
    | ok v =>
      rw [hx] at h
      have hstep := hf x List.mem_cons_self t v ht hx
      have hrest := ih (fun y hy => hf y (List.mem_cons_of_mem _ hy)) (ht.trans hstep.toGrown) h
      exact (hstep.trans hrest).congr (by rw [List.forall_mem_cons])

end Emits

theorem emits_pushRow (h : s.WellScoped indexer) {r : RawConstraint}
    (hr : ∀ e ∈ r.form, e.1 < s.width indexer) : Emits indexer s (s.pushRow r) (RowListed r) :=
  ⟨⟨h.pushRow hr, le_rfl, rfl⟩, listed_pushRow r⟩

theorem emits_pushGeneral (h : s.WellScoped indexer) {g : GeneralConstraintSpec}
    (hres : g.resultColumn < s.width indexer) (hargs : ∀ c ∈ g.argumentColumns, c < s.width indexer) :
    Emits indexer s (s.pushGeneral g) (g.resultColumn :: g.argumentColumns).Nodup :=
  ⟨⟨h.pushGeneral g hres hargs, le_rfl, rfl⟩, listed_pushGeneral g⟩

theorem emits_pushIndicator (h : s.WellScoped indexer) {i : IndicatorConstraintSpec}
    (hbin : i.binaryColumn < s.width indexer) (hrow : ∀ e ∈ i.row.form, e.1 < s.width indexer) :
    Emits indexer s (s.pushIndicator i) (i.binaryColumn :: i.row.form.map (·.1)).Nodup :=
  ⟨⟨h.pushIndicator hbin hrow, le_rfl, rfl⟩, listed_pushIndicator i⟩

/-- A new column has no entries anywhere. -/
theorem emits_appendColumn (h : s.WellScoped indexer) (box : ColumnBox) :
    Emits indexer s { s with globalColumns := s.globalColumns ++ [box] } True := by
  refine ⟨⟨h.appendColumn box, ?_, rfl⟩, ?_⟩
  · simp [width]
  · rw [and_true]
    exact ⟨fun h => ⟨h.rows, h.generals, h.indicators⟩, fun h => ⟨h.rows, h.generals, h.indicators⟩⟩

theorem emits_addGlobalContinuousAux (h : s.WellScoped indexer) (range : AuxRange) :
    Emits indexer s (s.addGlobalContinuousAux indexer range).1 True := emits_appendColumn h _

theorem emits_addGlobalBinaryAux (h : s.WellScoped indexer) :
    Emits indexer s (s.addGlobalBinaryAux indexer).1 True := emits_appendColumn h _

/-! ## Extremum links -/

/-- A member's expression lists every column once, all of them below `n`, and not the result. -/
structure MemberListed (n result : Nat) (m : ExtremumMember) : Prop where
  nodup : (m.link.form.map (·.1)).Nodup
  lt : ∀ e ∈ m.link.form, e.1 < n
  ne_result : ∀ e ∈ m.link.form, e.1 ≠ result

namespace MemberListed

variable {n result : Nat} {m : ExtremumMember}

theorem mono (h : MemberListed n result m) {k : Nat} (hk : n ≤ k) : MemberListed k result m :=
  ⟨h.nodup, fun e he => (h.lt e he).trans_le hk, h.ne_result⟩

theorem appendTo_lt (h : MemberListed n result m) {e : Nat × ℚ} (he : e ∈ m.link.appendTo) :
    e.1 < n := h.lt e (List.mem_filter.mp he).1

/-- The result stands before the expression in every row of a link. -/
theorem row_nodup (h : MemberListed n result m) :
    (((result, (1 : ℚ)) :: m.link.appendTo).map (·.1)).Nodup := by
  rw [List.map_cons, List.nodup_cons]
  refine ⟨fun hmem => ?_, Form.nodup_filter h.nodup _⟩
  obtain ⟨e, he, heq⟩ := List.mem_map.mp hmem
  exact h.ne_result e (List.mem_filter.mp he).1 heq

theorem soleColumn_lt (h : MemberListed n result m) {c : Nat} (hc : m.link.soleColumn? = some c) :
    c < n ∧ c ≠ result := by
  obtain ⟨happ, -⟩ := MinMaxLinkRow.soleColumn?_eq_some hc
  have hmem : (c, (-1 : ℚ)) ∈ m.link.form := by
    refine (List.mem_filter (p := fun t => decide (coefficientCut ≤ |t.2|)).mp ?_).1
    show (c, (-1 : ℚ)) ∈ m.link.appendTo
    rw [happ]
    exact List.mem_singleton_self _
  exact ⟨h.lt _ hmem, h.ne_result _ hmem⟩

theorem closingRow_listed {spec : ExtremumLinkSpec} (h : MemberListed n spec.resultColumn m) {y : Nat}
    (hy : n ≤ y) (hres : spec.resultColumn < n) : RowListed (closingRow spec m y) := by
  refine ⟨?_, by simp [closingRow]⟩
  unfold closingRow
  simp only [List.map_append, List.map_cons, List.map_nil]
  refine List.Nodup.append h.row_nodup (List.nodup_singleton y) ?_
  rw [List.disjoint_singleton]
  intro hmem
  rcases List.mem_cons.mp hmem with heq | hmem
  · omega
  · obtain ⟨e, he, heq⟩ := List.mem_map.mp hmem
    have := h.appendTo_lt he
    omega

end MemberListed

section Links

variable {spec : ExtremumLinkSpec} {members : List ExtremumMember}

theorem emits_envelope (hs : s.WellScoped indexer) (hres : spec.resultColumn < s.width indexer)
    (hmem : ∀ m ∈ members, MemberListed (s.width indexer) spec.resultColumn m) :
    Emits indexer s (members.foldl (fun input m => input.pushRow (envelopeRow spec m)) s) True := by
  refine (Emits.foldl (C := fun _ => True) (fun m hm t ht => ?_) (.refl hs)).always fun _ _ => trivial
  have hm' := hmem m hm
  refine (emits_pushRow ht.wellScoped fun e he => ?_).always ⟨hm'.row_nodup, by simp [envelopeRow]⟩
  rcases List.mem_cons.mp he with rfl | he
  · exact hres.trans_le ht.width_le
  · exact (hm'.appendTo_lt he).trans_le ht.width_le

/-- The argument of one member: the column it renames, or a fresh one. -/
theorem emits_argumentColumn {n result : Nat} {m : ExtremumMember} (hs : s.WellScoped indexer)
    (hn : n ≤ s.width indexer) (hm : MemberListed n result m) :
    Emits indexer s (extremumArgumentColumn s indexer m).1 True ∧
      (match m.link.soleColumn? with
        | some c => (extremumArgumentColumn s indexer m).2 = c
        | none => (extremumArgumentColumn s indexer m).2 = s.width indexer ∧
            (extremumArgumentColumn s indexer m).1.width indexer = s.width indexer + 1) := by
  unfold extremumArgumentColumn
  cases hsole : m.link.soleColumn? with
  | some c => exact ⟨.refl hs, rfl⟩
  | none =>
    have hadd := emits_addGlobalContinuousAux hs m.range
    have hwidth := @addGlobalContinuousAux_width s indexer m.range
    refine ⟨hadd.trans_true ((emits_pushRow hadd.wellScoped fun e he => ?_).always ⟨?_, by simp⟩),
      rfl, hwidth⟩
    · rw [hwidth]
      rcases List.mem_cons.mp he with rfl | he
      · exact Nat.lt_succ_self _
      · exact ((hm.appendTo_lt he).trans_le hn).trans (Nat.lt_succ_self _)
    · rw [List.map_cons, List.nodup_cons]
      refine ⟨fun hmem => ?_, Form.nodup_filter hm.nodup _⟩
      obtain ⟨e, he, heq⟩ := List.mem_map.mp hmem
      have hlt := hm.appendTo_lt he
      have heq' : e.1 = s.width indexer := heq
      omega

/-- The arguments are distinct just when the members that rename a column rename distinct ones. -/
theorem emits_arguments {n result : Nat} (members : List ExtremumMember) : ∀ {s : SolverInput},
    s.WellScoped indexer → n ≤ s.width indexer → (∀ m ∈ members, MemberListed n result m) →
      let out := emitArguments indexer s members
      Emits indexer s out.1 True ∧ (∀ c ∈ out.2, c < out.1.width indexer) ∧
        (∀ c ∈ out.2, c ∈ members.filterMap (·.link.soleColumn?) ∨ s.width indexer ≤ c) ∧
        (∀ c ∈ members.filterMap (·.link.soleColumn?), c ∈ out.2) ∧
        (out.2.Nodup ↔ RenamesDistinct members) := by
  induction members with
  | nil =>
    intro s hs _ _
    exact ⟨.refl hs, by simp [emitArguments], by simp [emitArguments], by simp [emitArguments],
      by simp [emitArguments, RenamesDistinct]⟩
  | cons m members ih =>
    intro s hs hn hmem
    obtain ⟨hfirst, harg⟩ := emits_argumentColumn hs hn (hmem m List.mem_cons_self)
    obtain ⟨hrest, hlt, hold, hnew, hnodup⟩ := ih hfirst.wellScoped (hn.trans hfirst.width_le)
      fun m hm => hmem m (List.mem_cons_of_mem _ hm)
    have hsole_lt : ∀ c ∈ members.filterMap (·.link.soleColumn?), c < n := by
      intro c hc
      obtain ⟨m', hm', hc⟩ := List.mem_filterMap.mp hc
      exact ((hmem m' (List.mem_cons_of_mem _ hm')).soleColumn_lt hc).1
    set first := extremumArgumentColumn s indexer m with hfirst_eq
    show Emits indexer s (emitArguments indexer first.1 members).1 True ∧
      (∀ c ∈ first.2 :: (emitArguments indexer first.1 members).2,
        c < (emitArguments indexer first.1 members).1.width indexer) ∧
      (∀ c ∈ first.2 :: (emitArguments indexer first.1 members).2,
        c ∈ (m :: members).filterMap (·.link.soleColumn?) ∨ s.width indexer ≤ c) ∧
      (∀ c ∈ (m :: members).filterMap (·.link.soleColumn?),
        c ∈ first.2 :: (emitArguments indexer first.1 members).2) ∧
      ((first.2 :: (emitArguments indexer first.1 members).2).Nodup ↔ RenamesDistinct (m :: members))
    unfold RenamesDistinct at hnodup ⊢
    have hle := hfirst.width_le
    cases hsole : m.link.soleColumn? with
    | some c =>
      rw [hsole] at harg
      have hc := ((hmem m List.mem_cons_self).soleColumn_lt hsole).1
      rw [List.filterMap_cons_some (f := fun m : ExtremumMember => m.link.soleColumn?) hsole, harg]
      refine ⟨hfirst.trans_true hrest, ?_, ?_, ?_, ?_⟩
      · intro d hd
        rcases List.mem_cons.mp hd with rfl | hd
        · exact hc.trans_le (hn.trans (hle.trans hrest.width_le))
        · exact hlt d hd
      · intro d hd
        rcases List.mem_cons.mp hd with rfl | hd
        · exact Or.inl List.mem_cons_self
        · exact (hold d hd).imp (List.mem_cons_of_mem _) hle.trans
      · intro d hd
        rcases List.mem_cons.mp hd with rfl | hd
        · exact List.mem_cons_self
        · exact List.mem_cons_of_mem _ (hnew d hd)
      · rw [List.nodup_cons, List.nodup_cons, hnodup]
        refine and_congr_left fun _ => not_congr ⟨fun hd => ?_, hnew c⟩
        exact (hold c hd).resolve_right (by omega)
    | none =>
      rw [hsole] at harg
      obtain ⟨hcol, hwidth⟩ := harg
      rw [List.filterMap_cons_none (f := fun m : ExtremumMember => m.link.soleColumn?) hsole, hcol]
      refine ⟨hfirst.trans_true hrest, ?_, ?_, ?_, ?_⟩
      · intro d hd
        rcases List.mem_cons.mp hd with rfl | hd
        · have := hrest.width_le
          omega
        · exact hlt d hd
      · intro d hd
        rcases List.mem_cons.mp hd with rfl | hd
        · exact Or.inr le_rfl
        · exact (hold d hd).imp_right hle.trans
      · exact fun d hd => List.mem_cons_of_mem _ (hnew d hd)
      · rw [List.nodup_cons, hnodup]
        refine and_iff_right fun hd => ?_
        rcases hold _ hd with hd | hd
        · have := hsole_lt _ hd
          omega
        · omega

/-- The selectors are fresh columns, each in the closing row of its member. -/
theorem emits_selectors (members : List ExtremumMember) : ∀ {s : SolverInput}, s.WellScoped indexer →
    spec.resultColumn < s.width indexer →
    (∀ m ∈ members, MemberListed (s.width indexer) spec.resultColumn m) →
      let out := emitSelectors indexer spec s members
      Emits indexer s out.1 True ∧ (∀ y ∈ out.2, s.width indexer ≤ y ∧ y < out.1.width indexer) ∧
        out.2.Nodup ∧ out.2.length = members.length := by
  induction members with
  | nil =>
    intro s hs _ _
    exact ⟨.refl hs, by simp [emitSelectors], by simp [emitSelectors], rfl⟩
  | cons m members ih =>
    intro s hs hres hmem
    have hadd := emits_addGlobalBinaryAux hs
    have hwidth := @addGlobalBinaryAux_width s indexer
    have hm := hmem m List.mem_cons_self
    set y := s.width indexer with hy
    set added := (s.addGlobalBinaryAux indexer).1 with hadded
    have hrow : Emits indexer added (added.pushRow (closingRow spec m y)) True := by
      refine (emits_pushRow hadd.wellScoped fun e he => ?_).always (hm.closingRow_listed le_rfl hres)
      rw [hwidth]
      simp only [closingRow, List.cons_append, List.mem_cons, List.mem_append, List.not_mem_nil,
        or_false] at he
      rcases he with rfl | he | rfl
      · exact hres.trans (Nat.lt_succ_self _)
      · exact (hm.appendTo_lt he).trans (Nat.lt_succ_self _)
      · exact Nat.lt_succ_self _
    have hnext : (added.pushRow (closingRow spec m y)).width indexer = y + 1 := hwidth
    obtain ⟨hrest, hlt, hnodup, hlen⟩ := ih hrow.wellScoped (by omega) fun m hm =>
      (hmem m (List.mem_cons_of_mem _ hm)).mono (by omega)
    set rest := emitSelectors indexer spec (added.pushRow (closingRow spec m y)) members with hrest_eq
    show Emits indexer s rest.1 True ∧ (∀ z ∈ y :: rest.2, y ≤ z ∧ z < rest.1.width indexer) ∧
      (y :: rest.2).Nodup ∧ (y :: rest.2).length = members.length + 1
    refine ⟨(hadd.trans_true hrow).trans_true hrest, fun z hz => ?_, ?_, congrArg (· + 1) hlen⟩
    · have hle := hrest.width_le
      rcases List.mem_cons.mp hz with rfl | hz
      · exact ⟨le_rfl, by omega⟩
      · have := hlt z hz
        exact ⟨by omega, this.2⟩
    · refine List.nodup_cons.mpr ⟨fun hmem => ?_, hnodup⟩
      have := (hlt _ hmem).1
      omega

/-- **One extremum link lists every column once just when its native arm renames distinct columns.** -/
theorem emits_extremumLink {varNames : List String} {policy : NativeConstructPolicy}
    {out : SolverInput} (hs : s.WellScoped indexer) (hres : spec.resultColumn < s.width indexer)
    (hmem : ∀ m ∈ members, MemberListed (s.width indexer) spec.resultColumn m)
    (hout : emitExtremumLink s indexer spec members varNames policy = .ok out) :
    Emits indexer s out
      (LinkClean policy spec.needClosing spec.closingUnderivable members) := by
  unfold emitExtremumLink at hout
  by_cases hempty : members.isEmpty = true
  · rw [if_pos hempty] at hout
    obtain rfl := Except.ok.inj hout
    refine (Emits.refl hs).congr (iff_of_true trivial fun _ _ => ?_)
    rw [List.isEmpty_iff.mp hempty]
    exact List.nodup_nil
  rw [if_neg hempty] at hout
  set env := if spec.needEnvelope then
      members.foldl (fun input m => input.pushRow (envelopeRow spec m)) s else s with henv
  have hE : Emits indexer s env True := by
    rw [henv]
    split
    · exact emits_envelope hs hres hmem
    · exact .refl hs
  have hresE := hres.trans_le hE.width_le
  have hmemE : ∀ m ∈ members, MemberListed (env.width indexer) spec.resultColumn m :=
    fun m hm => (hmem m hm).mono hE.width_le
  dsimp only at hout
  cases hclosing : spec.needClosing with
  | false =>
    rw [hclosing] at hout
    obtain rfl := Except.ok.inj hout
    exact hE.congr (iff_of_true trivial fun h => by simp at h)
  | true =>
    rw [hclosing] at hout
    simp only [Bool.not_true, Bool.false_eq_true, if_false] at hout
    cases huse : policy.use spec.closingUnderivable with
    | true =>
      rw [huse, if_pos rfl] at hout
      obtain ⟨hA, hlt, hold, -, hnodup⟩ := emits_arguments members hE.wellScoped le_rfl hmemE
      obtain rfl := Except.ok.inj hout
      have hG := emits_pushGeneral
        (g := ⟨if spec.isMax then .max else .min, spec.resultColumn,
          (emitArguments indexer env members).2⟩) hA.wellScoped (hresE.trans_le hA.width_le) hlt
      refine (hE.true_trans (hA.true_trans hG)).congr ?_
      have hnot : spec.resultColumn ∉ (emitArguments indexer env members).2 := by
        intro hc
        rcases hold _ hc with hc | hc
        · obtain ⟨m, hm, hsole⟩ := List.mem_filterMap.mp hc
          exact ((hmem m hm).soleColumn_lt hsole).2 rfl
        · omega
      rw [List.nodup_cons, and_iff_right hnot, hnodup]
      exact ⟨fun h _ _ => h, fun h => h rfl huse⟩
    | false =>
      rw [huse, if_neg (by simp)] at hout
      have hvacuous : True ↔ LinkClean policy true spec.closingUnderivable members :=
        iff_of_true trivial fun _ h => absurd (huse.symm.trans h) (by simp)
      cases hund : spec.closingUnderivable with
      | true =>
        rw [hund, if_pos rfl] at hout
        unfold throwUnboundedBigMNaming at hout
        split at hout <;> cases hout
      | false =>
        rw [hund, if_neg (by simp)] at hout
        rw [hund] at hvacuous
        obtain ⟨hS, hys, hnodup, hlen⟩ := emits_selectors members hE.wellScoped hresE hmemE
        obtain rfl := Except.ok.inj hout
        refine Emits.congr (hE.true_trans (hS.trans_true ((emits_pushRow hS.wellScoped ?_).always ?_)))
          hvacuous
        · intro e he
          obtain ⟨y, hy, rfl⟩ := List.mem_map.mp he
          exact (hys y hy).2
        · refine ⟨?_, fun hnil => hempty ?_⟩
          · rw [List.map_map]
            exact (List.map_id' _).symm ▸ hnodup
          · rw [List.map_eq_nil_iff] at hnil
            rw [hnil] at hlen
            exact List.isEmpty_iff.mpr (List.length_eq_zero_iff.mp hlen.symm)

end Links

end Decidb
