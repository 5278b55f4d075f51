import Decidb.Formulation.Proofs.AbsExactProofs
import Decidb.Formulation.Proofs.EmittedRowsProofs
import Decidb.Relational.ExceptLists

/-!
# What each pass emits lists its columns once

One lemma a pass: what it appends lists every column once just when the pass is clean on its input.
-/

namespace Decidb

open Linear SolverInput

variable {indexer : VarIndexer} {s t u : SolverInput}

/-! ## Linking rows -/

/-- A linking row lists every column once, all of them below `n`. -/
structure LinkListed (n : Nat) (link : MinMaxLinkRow) : Prop where
  nodup : (link.form.map (·.1)).Nodup
  lt : ∀ e ∈ link.form, e.1 < n

namespace LinkListed

variable {n : Nat} {link : MinMaxLinkRow}

theorem empty (n : Nat) : LinkListed n {} := ⟨List.nodup_nil, fun _ h => absurd h List.not_mem_nil⟩

theorem addColumn (h : LinkListed n link) {c : Nat} (hc : c < n) (k : ℚ) :
    LinkListed n (link.addColumn c k) := by
  refine ⟨Form.nodup_addColumn h.nodup c k, fun e he => ?_⟩
  rcases Form.mem_addColumn he with heq | ⟨w, hw, hwe⟩
  · rw [heq]
    exact hc
  · rw [← hwe]
    exact h.lt w hw

/-- Accumulating keeps a linking row listed. -/
theorem foldl {α : Type} {f : MinMaxLinkRow → α → MinMaxLinkRow} (l : List α)
    (hf : ∀ x ∈ l, ∀ link, LinkListed n link → LinkListed n (f link x)) :
    ∀ {link : MinMaxLinkRow}, LinkListed n link → LinkListed n (l.foldl f link) := by
  induction l with
  | nil => exact fun h => h
  | cons x l ih =>
    exact fun h => ih (fun y hy => hf y (List.mem_cons_of_mem _ hy)) (hf x List.mem_cons_self _ h)

/-- A linking row over the decision columns is one of a member whose result is a global. -/
theorem member {m : ExtremumMember} (h : LinkListed indexer.globalBlockStart m.link) {result : Nat}
    (hres : indexer.globalBlockStart ≤ result) (hn : indexer.globalBlockStart ≤ n) :
    MemberListed n result m :=
  ⟨h.nodup, fun e he => (h.lt e he).trans_le hn, fun e he => ((h.lt e he).trans_le hres).ne⟩

end LinkListed

theorem minMaxLink_listed (terms : List LhsTerm) {r : Nat} (hr : r < indexer.numRows) :
    LinkListed indexer.globalBlockStart (minMaxLink indexer terms r) := by
  have hfold : LinkListed indexer.globalBlockStart (terms.foldl (addLinkTerm indexer r) {}) := by
    refine LinkListed.foldl terms (fun t _ link h => ?_) (.empty _)
    unfold addLinkTerm
    cases t.variableIndex with
    | none => exact h
    | some v =>
      simp only
      split
      · exact h
      · exact h.addColumn (indexer.get_lt v hr) _
  exact ⟨hfold.nodup, hfold.lt⟩

theorem composedLink_listed (terms : List LhsTerm) {r : Nat} (hr : r < indexer.numRows) :
    LinkListed indexer.globalBlockStart (composedLink indexer terms r) := by
  refine LinkListed.foldl terms (fun t _ link h => ?_) (.empty _)
  unfold addComposedRowTerm
  cases t.variableIndex with
  | none => exact ⟨h.nodup, h.lt⟩
  | some v => exact h.addColumn (indexer.get_lt v hr) _

theorem addObjectiveRowTerms_listed (terms : List LhsTerm) (scale : ℚ) {link : MinMaxLinkRow}
    (h : LinkListed indexer.globalBlockStart link) {r : Nat} (hr : r < indexer.numRows) :
    LinkListed indexer.globalBlockStart (addObjectiveRowTerms indexer terms scale link r) := by
  refine LinkListed.foldl terms (fun t _ link h => ?_) h
  unfold addObjectiveRowTerm
  simp only
  split
  · exact h
  · cases t.variableIndex with
    | none => exact ⟨h.nodup, h.lt⟩
    | some v => exact h.addColumn (indexer.get_lt v hr) _

/-! ## Hard MIN/MAX constraints -/

theorem widenToBound_unbounded (family : AuxRange) (k : ℚ) (isMax : Bool) :
    (widenToBound family k isMax).unbounded = family.unbounded := by
  unfold widenToBound
  split
  · cases isMax <;> rfl
  · rfl

/-- Opening an end of the members' ranges does not touch what they rename. -/
theorem renamesDistinct_map_range (members : List ExtremumMember) (f : AuxRange → AuxRange) :
    RenamesDistinct (members.map fun m => { m with range := f m.range }) ↔ RenamesDistinct members := by
  unfold RenamesDistinct
  rw [List.filterMap_map]
  rfl

/-- A group whose bound is a number has a link. -/
def GroupClean (policy : NativeConstructPolicy) (ec : EvaluatedConstraint) (group : MinMaxGroup) :
    Prop :=
  (∃ r k, group.firstRow = some r ∧ ec.rhsValues r = .fin k) →
    LinkClean policy true group.family.unbounded group.members

theorem emits_minMaxGroup {ec : EvaluatedConstraint} {isMax : Bool} {varNames : List String}
    {policy : NativeConstructPolicy} {group : MinMaxGroup} (ht : t.WellScoped indexer)
    (hmem : ∀ m ∈ group.members, LinkListed indexer.globalBlockStart m.link)
    (hout : linearizeMinMaxGroup indexer ec isMax varNames policy t group = .ok u) :
    Emits indexer t u (GroupClean policy ec group) := by
  unfold linearizeMinMaxGroup at hout
  cases hfirst : group.firstRow with
  | none =>
    rw [hfirst] at hout
    obtain rfl := Except.ok.inj hout
    refine (Emits.refl ht).congr (iff_of_true trivial fun ⟨r, k, hr, _⟩ => ?_)
    rw [hfirst] at hr
    cases hr
  | some r =>
    rw [hfirst] at hout
    dsimp only at hout
    cases hrhs : ec.rhsValues r with
    | negInf | posInf =>
      rw [hrhs] at hout
      obtain rfl := Except.ok.inj hout
      refine (Emits.refl ht).congr (iff_of_true trivial fun ⟨r', k, hr, hk⟩ => ?_)
      rw [hfirst] at hr
      obtain rfl := Option.some.inj hr
      rw [hrhs] at hk
      cases hk
    | fin k =>
      rw [hrhs] at hout
      dsimp only at hout
      generalize hzRange : (if (boundOutOfReach group.family k isMax &&
        policy.use (widenToBound group.family k isMax).unbounded) = true then _ else _) = zRange at hout
      generalize hmembers : (if (boundOutOfReach group.family k isMax &&
        policy.use (widenToBound group.family k isMax).unbounded) = true then
          group.members.map _ else group.members) = members at hout
      have hlinks : ∀ m ∈ members, LinkListed indexer.globalBlockStart m.link := by
        rw [← hmembers]
        split
        · intro m hm
          obtain ⟨m', hm', rfl⟩ := List.mem_map.mp hm
          exact hmem m' hm'
        · exact hmem
      have hdistinct : RenamesDistinct members ↔ RenamesDistinct group.members := by
        rw [← hmembers]
        split
        · exact renamesDistinct_map_range _ _
        · rfl
      have hadd := emits_addGlobalContinuousAux ht zRange
      have hwidth := @addGlobalContinuousAux_width t indexer zRange
      have hz : indexer.globalBlockStart ≤ t.width indexer := Nat.le_add_right _ _
      cases hlink : emitExtremumLink (t.addGlobalContinuousAux indexer zRange).1 indexer
          { resultColumn := t.width indexer
            isMax
            needClosing := true
            closingUnderivable := (widenToBound group.family k isMax).unbounded
            closingBigM := if (widenToBound group.family k isMax).unbounded then 0
              else (widenToBound group.family k isMax).span
            blameVar := findUnboundedContributor ec
              (t.addGlobalContinuousAux indexer zRange).1.lowerBounds
              (t.addGlobalContinuousAux indexer zRange).1.upperBounds } members varNames policy with
      | error e =>
        have hout' := hout
        erw [hlink] at hout'
        cases hout'
      | ok v =>
        have hout' := hout
        erw [hlink] at hout'
        obtain rfl := Except.ok.inj hout'
        have hemit := emits_extremumLink hadd.wellScoped (by rw [hwidth]; exact Nat.lt_succ_self _)
          (fun m hm => (hlinks m hm).member hz (by omega)) hlink
        have hpin := emits_pushRow (r := ⟨[(t.width indexer, 1)], if isMax then .ge else .le, k⟩)
          hemit.wellScoped fun e he => by
            rw [List.mem_singleton.mp he]
            have := hemit.width_le
            show t.width indexer < v.width indexer
            omega
        refine Emits.congr (hadd.true_trans (hemit.trans_true
          (hpin.always ⟨List.nodup_singleton _, by simp⟩))) ?_
        unfold GroupClean LinkClean
        rw [widenToBound_unbounded, hdistinct]
        exact ⟨fun h _ => h, fun h => h ⟨r, k, hfirst, hrhs⟩⟩

theorem buildMinMaxGroups_congr (h : SameDecisions t s) (ec : EvaluatedConstraint) :
    buildMinMaxGroups t indexer ec = buildMinMaxGroups s indexer ec := by
  unfold buildMinMaxGroups minMaxMember
  rw [h.numRows_eq, h.lower_eq, h.upper_eq]

/-- The members of a group are the linking rows of its rows. -/
theorem minMaxGroup_listed (hrows : s.numRows = indexer.numRows) {ec : EvaluatedConstraint}
    {group : MinMaxGroup} (hgroup : group ∈ buildMinMaxGroups s indexer ec) :
    ∀ m ∈ group.members, LinkListed indexer.globalBlockStart m.link := by
  obtain ⟨g, -, rfl⟩ := List.mem_map.mp hgroup
  intro m hm
  obtain ⟨r, hr, rfl⟩ := List.mem_map.mp hm
  refine minMaxLink_listed ec.lhsTerms ?_
  rw [← hrows]
  exact List.mem_range.mp (List.mem_filter.mp hr).1

/-- One constraint of the pass, on an input grown from `s`. -/
theorem emits_minMaxConstraint {ec : EvaluatedConstraint} {varNames : List String}
    {policy : NativeConstructPolicy} {a b : SolverInput × List EvaluatedConstraint}
    (h : Grown indexer s a.1)
    (hout : linearizeMinMaxConstraint indexer varNames policy a ec = .ok b) :
    Emits indexer a.1 b.1 (MinMaxConstraintClean indexer policy s ec) := by
  unfold linearizeMinMaxConstraint at hout
  cases hagg : ec.minmaxAggType with
  | none =>
    rw [hagg] at hout
    obtain rfl := Except.ok.inj hout
    refine (Emits.refl h.wellScoped).congr (iff_of_true trivial fun agg hagg' => ?_)
    rw [hagg] at hagg'
    cases hagg'
  | some agg =>
    rw [hagg] at hout
    dsimp only at hout
    rw [h.numRows_eq] at hout
    cases hclass : classifyMinMaxGroups ec s.numRows (agg = .max) with
    | mk left new =>
      rw [hclass] at hout
      cases left with
      | none =>
        obtain rfl := Except.ok.inj hout
        refine (Emits.refl h.wellScoped).congr (iff_of_true trivial fun agg' hagg' ec' hec' => ?_)
        obtain rfl : agg = agg' := Option.some.inj (hagg.symm.trans hagg')
        rw [hclass] at hec'
        cases hec'
      | some ec' =>
        dsimp only at hout
        rw [buildMinMaxGroups_congr h.sameDecisions] at hout
        cases hloop : (buildMinMaxGroups s indexer ec').foldlM
            (linearizeMinMaxGroup indexer ec' (agg = .max) varNames policy) a.1 with
        | error e =>
          rw [hloop] at hout
          cases hout
        | ok v =>
          rw [hloop] at hout
          obtain rfl := Except.ok.inj hout
          have hrows : s.numRows = indexer.numRows := by
            rw [← h.numRows_eq]
            exact h.wellScoped.numRows_eq
          refine (Emits.foldlM id (C := GroupClean policy ec')
            (fun group hgroup t u ht htu => emits_minMaxGroup ht.wellScoped
              (minMaxGroup_listed hrows hgroup) htu) h hloop).congr ?_
          constructor
          · intro hall agg' hagg' ec'' hec'' group hgroup
            obtain rfl : agg = agg' := Option.some.inj (hagg.symm.trans hagg')
            rw [hclass] at hec''
            obtain rfl : ec' = ec'' := Option.some.inj hec''
            exact hall group hgroup
          · intro hclean group hgroup
            exact hclean agg hagg ec' (by rw [hclass]) group hgroup

/-! ## Passes -/

/-- The constraints read variables below `n`. -/
def SolverInput.ReadsBelow (input : SolverInput) (n : Nat) : Prop :=
  ∀ ec ∈ input.constraints, TermsBelow n ec.lhsTerms

/-- `t` has a global block that lists its columns once just when `s` has one and `clean` holds, and
reads no further variables. -/
structure Lists (indexer : VarIndexer) (n : Nat) (s t : SolverInput) (clean : Prop) : Prop where
  wellScoped : t.WellScoped indexer
  listed_iff : t.Listed ↔ s.Listed ∧ clean
  readsBelow : s.ReadsBelow n → t.ReadsBelow n

theorem Emits.lists {clean : Prop} {n : Nat} (h : Emits indexer s t clean) :
    Lists indexer n s t clean := by
  refine ⟨h.wellScoped, h.listed_iff, fun hs => ?_⟩
  rw [h.frame]
  exact hs

/-- Two inputs have the same global block. -/
structure SameBlock (s t : SolverInput) : Prop where
  numRows_eq : t.numRows = s.numRows
  columns_eq : t.globalColumns = s.globalColumns
  rows_eq : t.globalConstraints = s.globalConstraints
  generals_eq : t.generalConstraints = s.generalConstraints
  indicators_eq : t.indicatorConstraints = s.indicatorConstraints

namespace SameBlock

theorem refl (s : SolverInput) : SameBlock s s := ⟨rfl, rfl, rfl, rfl, rfl⟩

theorem trans (h : SameBlock s t) (h' : SameBlock t u) : SameBlock s u :=
  ⟨h'.numRows_eq.trans h.numRows_eq, h'.columns_eq.trans h.columns_eq, h'.rows_eq.trans h.rows_eq,
    h'.generals_eq.trans h.generals_eq, h'.indicators_eq.trans h.indicators_eq⟩

theorem wellScoped (h : SameBlock s t) (hs : s.WellScoped indexer) : t.WellScoped indexer := by
  have hwidth : t.width indexer = s.width indexer := by
    unfold width
    rw [h.columns_eq]
  refine ⟨h.numRows_eq.trans hs.numRows_eq, ?_, ?_, ?_⟩
  · rw [h.rows_eq, hwidth]
    exact hs.rows
  · rw [h.generals_eq, hwidth]
    exact hs.generals
  · rw [h.indicators_eq, hwidth]
    exact hs.indicators

theorem listed_iff (h : SameBlock s t) : t.Listed ↔ s.Listed := by
  constructor
  · intro ht
    exact ⟨h.rows_eq ▸ ht.rows, h.generals_eq ▸ ht.generals, h.indicators_eq ▸ ht.indicators⟩
  · intro hs
    exact ⟨h.rows_eq ▸ hs.rows, h.generals_eq ▸ hs.generals, h.indicators_eq ▸ hs.indicators⟩

theorem lists {n : Nat} (h : SameBlock s t) (hs : s.WellScoped indexer)
    (hreads : s.ReadsBelow n → t.ReadsBelow n) : Lists indexer n s t True :=
  ⟨h.wellScoped hs, by rw [and_true, h.listed_iff], hreads⟩

theorem foldl {α : Type} {f : SolverInput → α → SolverInput} (hf : ∀ s x, SameBlock s (f s x))
    (l : List α) : ∀ s, SameBlock s (l.foldl f s) := by
  induction l with
  | nil => exact refl
  | cons x l ih => exact fun s => (hf s x).trans (ih _)

theorem foldlM {α σ : Type} (input : σ → SolverInput) {f : σ → α → Except String σ}
    (hf : ∀ s x t, f s x = .ok t → SameBlock (input s) (input t)) (l : List α) : ∀ {s t : σ},
    l.foldlM f s = .ok t → SameBlock (input s) (input t) := by
  induction l with
  | nil =>
    intro s t h
    obtain rfl : s = t := Except.ok.inj h
    exact refl _
  | cons x l ih =>
    intro s t h
    rw [List.foldlM_cons] at h
    cases hx : f s x with
    | error e =>
      rw [hx] at h
      cases h
    | ok v =>
      rw [hx] at h
      exact (hf s x v hx).trans (ih h)

end SameBlock

/-- What a constraint leaves behind reads the terms it read. -/
theorem mem_linearizeMinMaxConstraint {varNames : List String} {policy : NativeConstructPolicy}
    {ec e : EvaluatedConstraint} {a b : SolverInput × List EvaluatedConstraint}
    (hout : linearizeMinMaxConstraint indexer varNames policy a ec = .ok b) (he : e ∈ b.2) :
    e ∈ a.2 ∨ e.lhsTerms = ec.lhsTerms := by
  have hnew : ∀ e ∈ (classifyMinMaxGroups ec a.1.numRows (ec.minmaxAggType = some .max)).2,
      e.lhsTerms = ec.lhsTerms := by
    intro e he
    unfold classifyMinMaxGroups at he
    dsimp only at he
    split at he
    · dsimp only at he
      split at he
      · rw [List.mem_singleton.mp he]
        rfl
      · simp at he
    · simp at he
  unfold linearizeMinMaxConstraint at hout
  cases hagg : ec.minmaxAggType with
  | none =>
    rw [hagg] at hout
    obtain rfl := Except.ok.inj hout
    rcases List.mem_append.mp he with he | he
    · exact Or.inl he
    · rw [List.mem_singleton.mp he]
      exact Or.inr rfl
  | some agg =>
    rw [hagg] at hout hnew
    dsimp only at hout
    simp only [Option.some.injEq] at hnew
    have happend : b.2 = a.2 ++ (classifyMinMaxGroups ec a.1.numRows (agg = .max)).2 := by
      cases hclass : classifyMinMaxGroups ec a.1.numRows (agg = .max) with
      | mk left new =>
        rw [hclass] at hout
        cases left with
        | none =>
          obtain rfl := Except.ok.inj hout
          rfl
        | some ec' =>
          dsimp only at hout
          split at hout
          · cases hout
          · obtain rfl := Except.ok.inj hout
            rfl
    rw [happend] at he
    exact (List.mem_append.mp he).imp id (hnew e)

/-- **Hard MIN/MAX constraints.** -/
theorem lists_minMaxConstraints {varNames : List String} {policy : NativeConstructPolicy} {n : Nat}
    (hs : s.WellScoped indexer)
    (hout : linearizeMinMaxConstraints s indexer varNames policy = .ok t) :
    Lists indexer n s t (∀ ec ∈ s.constraints, MinMaxConstraintClean indexer policy s ec) := by
  unfold linearizeMinMaxConstraints at hout
  cases hloop : s.constraints.foldlM (linearizeMinMaxConstraint indexer varNames policy) (s, []) with
  | error e =>
    rw [hloop] at hout
    cases hout
  | ok b =>
    rw [hloop] at hout
    obtain rfl := Except.ok.inj hout
    have hemit := Emits.foldlM (σ := SolverInput × List EvaluatedConstraint) Prod.fst
      (C := MinMaxConstraintClean indexer policy s)
      (fun ec _ a b ha hab => emits_minMaxConstraint ha hab) (Grown.refl hs) hloop
    have hsame : SameBlock b.1 { b.1 with constraints := b.2 } := ⟨rfl, rfl, rfl, rfl, rfl⟩
    refine ⟨hsame.wellScoped hemit.wellScoped, hsame.listed_iff.trans hemit.listed_iff, fun hreads => ?_⟩
    refine Relational.foldlM_keeps
      (P := fun a : SolverInput × List EvaluatedConstraint => ∀ e ∈ a.2, TermsBelow n e.lhsTerms)
      (fun ec hec a b ha hab e he => ?_) (by simp) hloop
    rcases mem_linearizeMinMaxConstraint hab he with he | heq
    · exact ha e he
    · rw [heq]
      exact hreads ec hec

/-! ## Exclusions -/

/-- One exclusion: its conditional rows stand on a fresh binary, its plain row on nothing else. -/
theorem emits_notEqual {form : Form Nat ℚ} (hs : s.WellScoped indexer)
    (hform : ∀ e ∈ form, e.1 < indexer.globalBlockStart) (collapse : NECollapse) (k : ℚ) :
    Emits indexer s (emitNotEqual indexer s collapse form k)
      ((form.map (·.1)).Nodup ∧ (collapse.isOneRow = true → form ≠ [])) := by
  have hadd := emits_addGlobalBinaryAux hs
  have hwidth := @addGlobalBinaryAux_width s indexer
  set added := (s.addGlobalBinaryAux indexer).1 with hadded
  have hlt : ∀ e ∈ form, e.1 < s.width indexer := fun e he =>
    (hform e he).trans_le (Nat.le_add_right _ _)
  have hcols : ∀ e ∈ form, e.1 < added.width indexer := fun e he => by
    have := hlt e he
    omega
  have hz : s.width indexer < added.width indexer := by omega
  have hfresh : s.width indexer ∉ form.map (·.1) := fun hmem => by
    obtain ⟨e, he, heq⟩ := List.mem_map.mp hmem
    have := hlt e he
    omega
  have hrow : ∀ r : RawConstraint, r.form = form → collapse.isOneRow = true →
      Emits indexer s (added.pushRow r)
        ((form.map (·.1)).Nodup ∧ (collapse.isOneRow = true → form ≠ [])) := by
    rintro r rfl hone
    refine (hadd.true_trans (emits_pushRow hadd.wellScoped hcols)).congr ?_
    exact ⟨fun h => ⟨h.nodup, fun _ => h.ne_nil⟩, fun h => ⟨h.1, h.2 hone⟩⟩
  have hpair : collapse.isOneRow = false → Emits indexer s
      ((added.pushIndicator ⟨s.width indexer, 0, ⟨form, .le, k - 1⟩⟩).pushIndicator
        ⟨s.width indexer, 1, ⟨form, .ge, k + 1⟩⟩)
      ((form.map (·.1)).Nodup ∧ (collapse.isOneRow = true → form ≠ [])) := by
    intro hone
    have hfirst := emits_pushIndicator (i := ⟨s.width indexer, 0, ⟨form, .le, k - 1⟩⟩)
      hadd.wellScoped hz hcols
    have hsecond := emits_pushIndicator (i := ⟨s.width indexer, 1, ⟨form, .ge, k + 1⟩⟩)
      hfirst.wellScoped hz hcols
    refine (hadd.true_trans (hfirst.trans hsecond)).congr ?_
    rw [hone, List.nodup_cons, and_iff_right hfresh, and_self]
    simp
  unfold emitNotEqual
  cases collapse with
  | lowerOnly | upperOnly => exact hrow _ rfl rfl
  | disjunction | alwaysTrue => exact hpair rfl

theorem map_fst_notEqualRowForm (terms : List LhsTerm) (r : Nat) :
    (notEqualRowForm indexer terms r).map (·.1) = terms.filterMap fun t =>
      if t.rowCoefficients r = 0 then none else t.variableIndex.map fun v => indexer.get v r := by
  unfold notEqualRowForm rowEntries
  induction terms with
  | nil => rfl
  | cons t terms ih =>
    rw [List.filterMap_cons, List.filterMap_cons]
    cases hv : t.variableIndex with
    | none =>
      rw [Option.map_none, Option.map_none, ite_self]
      exact ih
    | some v =>
      by_cases h0 : t.rowCoefficients r = 0
      · rw [if_pos h0, Option.map_some]
        dsimp only
        rw [List.filter_cons_of_neg (by simpa using h0)]
        exact ih
      · rw [if_neg h0, Option.map_some, Option.map_some]
        dsimp only
        rw [List.filter_cons_of_pos (by simpa using h0), List.map_cons, ih]

theorem notEqualRowForm_ne_nil_iff (terms : List LhsTerm) (r : Nat) :
    notEqualRowForm indexer terms r ≠ [] ↔
      ∃ t ∈ terms, t.variableIndex.isSome ∧ t.rowCoefficients r ≠ 0 := by
  rw [← List.length_pos_iff_ne_nil, ← List.length_map (f := (·.1)), map_fst_notEqualRowForm,
    List.length_filterMap_pos_iff]
  refine exists_congr fun t => ?_
  rw [exists_prop]
  refine and_congr_right fun _ => ?_
  by_cases h0 : t.rowCoefficients r = 0 <;> cases t.variableIndex <;> simp [h0]

/-- A bound that excludes anything is a number. -/
theorem effectiveBound_of_mem_notEqualRows {ec : EvaluatedConstraint} {numRows r : Nat}
    (hr : r ∈ notEqualRows ec numRows) : r < numRows ∧ ∃ k, decideRowEffectiveBound ec r = .fin k := by
  obtain ⟨hrange, hkeep⟩ := List.mem_filter.mp hr
  refine ⟨List.mem_range.mp hrange, ?_⟩
  rw [Bool.and_eq_true] at hkeep
  unfold decideRowEffectiveBound
  cases hrhs : ec.rhsValues r with
  | fin k => exact ⟨_, rfl⟩
  | negInf | posInf =>
    rw [hrhs] at hkeep
    simp [neIsIntegerValuedRhs] at hkeep

/-- **A per-row `<>`.** -/
theorem emits_rowNotEqual (hst : Grown indexer s t) (ec : EvaluatedConstraint) :
    Emits indexer t (expandRowNotEqual indexer t ec) (RowNotEqualClean indexer s ec) := by
  have hrig : t.rigidLowerBounds = s.rigidLowerBounds ∧ t.rigidUpperBounds = s.rigidUpperBounds := by
    constructor <;> rw [hst.frame]
  unfold expandRowNotEqual RowNotEqualClean
  dsimp only
  rw [hst.numRows_eq, hrig.1, hrig.2]
  generalize classifyNEConstraint ec (notEqualRows ec s.numRows) s.rigidLowerBounds
    s.rigidUpperBounds = collapse
  split
  · rename_i htrue
    exact (Emits.refl hst.wellScoped).congr (iff_of_true trivial fun h => absurd htrue h)
  · rename_i htrue
    refine (Emits.foldl (C := fun r => DistinctColumns indexer ec.lhsTerms r ∧
      (collapse.isOneRow = true →
        ∃ t ∈ ec.lhsTerms, t.variableIndex.isSome ∧ t.rowCoefficients r ≠ 0))
      (fun r hr v hv => ?_) (.refl hst.wellScoped)).congr ⟨fun h _ => h, fun h => h htrue⟩
    obtain ⟨hlt, k, hk⟩ := effectiveBound_of_mem_notEqualRows hr
    have hrow : r < indexer.numRows := by
      rw [← hst.wellScoped.numRows_eq, hst.numRows_eq]
      exact hlt
    unfold emitNotEqualRow
    rw [hk]
    refine (emits_notEqual hv.wellScoped (fun e he => notEqualRowForm_lt hrow he) collapse k).congr ?_
    unfold DistinctColumns
    rw [map_fst_notEqualRowForm, notEqualRowForm_ne_nil_iff]

/-- An accumulated row has an entry when some column keeps a coefficient. -/
theorem notEqualAggregateRow_ne_nil_iff (dense : Bool) (terms : List LhsTerm) (rows : List Nat) :
    notEqualAggregateRow indexer dense terms rows ≠ [] ↔ GroupKeepsColumn indexer terms rows := by
  have hflush := SparseCoeffAccumulator.flush_nodup
    ((notEqualEntries indexer terms rows).foldl (fun acc e => SparseCoeffAccumulator.add acc e.1 e.2)
      ({ useDense := dense } : SparseCoeffAccumulator))
  unfold notEqualAggregateRow GroupKeepsColumn
  rw [Form.ne_nil_iff_coefficient hflush.1 hflush.2]
  refine exists_congr fun c => ?_
  rw [SparseCoeffAccumulator.coefficient_accumulated]

/-- One excluded value of a group. -/
theorem emits_groupExclusion {ec : EvaluatedConstraint} {form : Form Nat ℚ} {rows : List Nat}
    (ht : t.WellScoped indexer) (hform : ∀ e ∈ form, e.1 < indexer.globalBlockStart)
    (hnodup : (form.map (·.1)).Nodup) (bound : Bound) :
    Emits indexer t (emitGroupExclusion indexer ec form
        (groupReach ec rows s.rigidLowerBounds s.rigidUpperBounds) t bound)
      (neIsIntegerValuedRhs bound = true → ∀ k, bound = .fin k →
        (groupCollapse s ec rows k).isOneRow = true → form ≠ []) := by
  unfold emitGroupExclusion
  by_cases hint : neIsIntegerValuedRhs bound = true
  · rw [if_neg (by rw [hint]; simp)]
    cases bound with
    | negInf | posInf => simp [neIsIntegerValuedRhs] at hint
    | fin k =>
      dsimp only
      change Emits indexer t (if groupCollapse s ec rows k = .alwaysTrue then t
        else emitNotEqual indexer t (groupCollapse s ec rows k) form k) _
      split
      · rename_i htrue
        refine (Emits.refl ht).congr (iff_of_true trivial fun _ k' hk' hone => ?_)
        obtain rfl := Bound.fin.inj hk'
        rw [htrue] at hone
        cases hone
      · refine (emits_notEqual ht hform _ k).congr ?_
        rw [and_iff_right hnodup]
        constructor
        · intro h _ k' hk'
          obtain rfl := Bound.fin.inj hk'
          exact h
        · exact fun h => h hint k rfl
  · rw [if_pos (by simpa using hint)]
    exact (Emits.refl ht).congr (iff_of_true trivial fun h => absurd h hint)

/-- **An aggregate `<>`.** -/
theorem emits_aggregateNotEqual (hst : Grown indexer s t) {ec : EvaluatedConstraint}
    (hout : expandAggregateNotEqual indexer t ec = .ok u) :
    Emits indexer t u (GroupNotEqualClean indexer s ec) := by
  unfold expandAggregateNotEqual at hout
  rw [hst.numRows_eq] at hout
  have hemit := Emits.foldlM id (C := fun rows => ∀ offset,
      sumFixedAggregateLhsOffset ec.lhsTerms rows = .ok offset →
        ∀ bound ∈ (distinctRhs ec rows).map (excludedBound ec rows offset),
          neIsIntegerValuedRhs bound = true → ∀ k, bound = .fin k →
            (groupCollapse s ec rows k).isOneRow = true → GroupKeepsColumn indexer ec.lhsTerms rows)
    (fun rows hrows v w hv hvw => ?_) hst hout
  · refine hemit.congr ⟨fun h rows hrows hne => h rows (List.mem_filter.mpr ⟨hrows, by simpa using hne⟩),
      fun h rows hrows => ?_⟩
    obtain ⟨hrows, hne⟩ := List.mem_filter.mp hrows
    exact h rows hrows (by simpa using hne)
  · have hlt : ∀ r ∈ rows, r < indexer.numRows := by
      rw [← hst.wellScoped.numRows_eq, hst.numRows_eq]
      exact lt_of_mem_aggregateGroups (List.mem_filter.mp hrows).1
    unfold expandGroupNotEqual at hvw
    cases hoffset : sumFixedAggregateLhsOffset ec.lhsTerms rows with
    | error e =>
      rw [hoffset] at hvw
      cases hvw
    | ok offset =>
      rw [hoffset] at hvw
      obtain rfl := Except.ok.inj hvw
      have hrig : (id v).rigidLowerBounds = s.rigidLowerBounds ∧
          (id v).rigidUpperBounds = s.rigidUpperBounds := by
        constructor <;> rw [hv.frame]
      dsimp only [id] at hrig ⊢
      rw [hrig.1, hrig.2]
      refine (Emits.foldl (fun bound _ x hx => emits_groupExclusion (s := s) hx.wellScoped
        (fun e he => notEqualAggregateRow_lt hlt he)
        (SparseCoeffAccumulator.flush_nodup _).1 bound) (.refl hv.wellScoped)).congr ?_
      constructor
      · intro h offset' hoffset'
        obtain rfl := Except.ok.inj hoffset'
        intro bound hbound hint k hk hone
        exact (notEqualAggregateRow_ne_nil_iff _ _ _).mp (h bound hbound hint k hk hone)
      · intro h bound hbound hint k hk hone
        exact (notEqualAggregateRow_ne_nil_iff _ _ _).mpr (h offset rfl bound hbound hint k hk hone)

/-- **The `<>` pass.** -/
theorem lists_notEqual {n : Nat} (hs : s.WellScoped indexer)
    (hout : linearizeNotEqual s indexer = .ok t) :
    Lists indexer n s t (NotEqualClean indexer s) := by
  unfold linearizeNotEqual at hout
  dsimp only at hout
  split at hout
  · cases hout
  set perRow := (notEqualConstraints s).filter fun ec => !ec.lhsIsAggregate with hperRow
  set rest := s.constraints.filter fun ec => ec.neClauseIdx.isNone with hrest
  set rows := perRow.foldl (expandRowNotEqual indexer) s with hrows
  have hfirst : Emits indexer s rows (∀ ec ∈ perRow, RowNotEqualClean indexer s ec) :=
    Emits.foldl (fun ec _ v hv => emits_rowNotEqual hv ec) (.refl hs)
  have hframe : ({ rows with constraints := rest } : SolverInput) = { { s with constraints := rest } with
      globalColumns := rows.globalColumns
      globalConstraints := rows.globalConstraints
      generalConstraints := rows.generalConstraints
      indicatorConstraints := rows.indicatorConstraints } := by
    conv_lhs => rw [hfirst.frame]
  have hsame : SameBlock rows { rows with constraints := rest } := ⟨rfl, rfl, rfl, rfl, rfl⟩
  have hgrown : Grown indexer { s with constraints := rest } { rows with constraints := rest } :=
    ⟨hsame.wellScoped hfirst.wellScoped, hfirst.width_le, hframe⟩
  -- the verdict on a group does not read the constraints
  have hsecond := Emits.foldlM (s := { s with constraints := rest }) id
    (C := fun ec => GroupNotEqualClean indexer { s with constraints := rest } ec)
    (fun ec _ v w hv hvw => emits_aggregateNotEqual hv hvw) hgrown hout
  refine ⟨hsecond.wellScoped, ?_, fun hreads => ?_⟩
  swap
  · rw [show t = id t from rfl, hsecond.frame]
    exact fun ec hec => hreads ec (List.mem_filter.mp hec).1
  rw [show t = id t from rfl, hsecond.listed_iff]
  show SolverInput.Listed { rows with constraints := rest } ∧ _ ↔ _
  rw [hsame.listed_iff, hfirst.listed_iff, and_assoc]
  refine and_congr_right fun _ => ?_
  unfold NotEqualClean
  constructor
  · rintro ⟨hrow, hgroup⟩ ec hec
    cases hagg : ec.lhsIsAggregate with
    | true => exact hgroup ec (List.mem_filter.mpr ⟨hec, hagg⟩)
    | false => exact hrow ec (List.mem_filter.mpr ⟨hec, by rw [hagg]; rfl⟩)
  · intro h
    refine ⟨fun ec hec => ?_, fun ec hec => ?_⟩
    · obtain ⟨hec, hagg⟩ := List.mem_filter.mp hec
      have := h ec hec
      rwa [if_neg (by simpa using hagg)] at this
    · obtain ⟨hec, hagg⟩ := List.mem_filter.mp hec
      have := h ec hec
      rwa [if_pos hagg] at this

/-! ## Lowered conditional rows -/

/-- A relaxed row lists the column of its condition after those of the row. -/
theorem map_fst_relaxedRow (ic : IndicatorConstraintSpec) (M : ℚ) :
    (relaxedRow ic M).form.map (·.1) = ic.row.form.map (·.1) ++ [ic.binaryColumn] := by
  unfold relaxedRow
  dsimp only
  split <;> simp

theorem relaxedRow_listed_iff (ic : IndicatorConstraintSpec) (M : ℚ) :
    RowListed (relaxedRow ic M) ↔ (ic.binaryColumn :: ic.row.form.map (·.1)).Nodup := by
  have hform := map_fst_relaxedRow ic M
  have hne : (relaxedRow ic M).form ≠ [] := by
    intro hnil
    rw [hnil] at hform
    simp at hform
  have hperm : (ic.row.form.map (·.1) ++ [ic.binaryColumn]).Perm
      (ic.binaryColumn :: ic.row.form.map (·.1)) := List.perm_append_singleton _ _
  rw [← hperm.nodup_iff, ← hform]
  exact ⟨fun h => h.nodup, fun h => ⟨h, hne⟩⟩

/-- **The lowering of conditional rows.** -/
theorem lists_lowerConstructs {layout : ColumnLayout} {box : SolvedBox} {varNames : List String}
    {native : Bool} {n : Nat} (hs : s.WellScoped indexer)
    (hout : lowerDecideConstructs s layout box varNames native = .ok t) :
    Lists indexer n s t True := by
  unfold lowerDecideConstructs at hout
  split at hout
  · obtain rfl := Except.ok.inj hout
    exact (Emits.refl hs).lists
  cases hrows : s.indicatorConstraints.mapM (lowerIndicator s box layout varNames) with
  | error e =>
    rw [hrows] at hout
    cases hout
  | ok rows =>
    rw [hrows] at hout
    obtain rfl := Except.ok.inj hout
    have hrelaxed : ∀ ic row, lowerIndicator s box layout varNames ic = .ok row →
        ∃ M, row = relaxedRow ic M := by
      intro ic row hrow
      unfold lowerIndicator at hrow
      dsimp only at hrow
      split at hrow
      · unfold throwUnboundedBigMNaming at hrow
        split at hrow <;> cases hrow
      · exact ⟨_, (Except.ok.inj hrow).symm⟩
    have hscoped := Relational.forall_mem_iff_of_mapM
      (P := fun ic => ∀ c ∈ ic.binaryColumn :: ic.row.form.map (·.1), c < s.width indexer)
      (Q := fun row : RawConstraint => ∀ c ∈ row.form.map (·.1), c < s.width indexer) hrows
      (fun ic row hrow => by
        obtain ⟨M, rfl⟩ := hrelaxed ic row hrow
        rw [map_fst_relaxedRow, List.forall_mem_cons, List.forall_mem_append,
          List.forall_mem_singleton, and_comm])
    have hlisted := Relational.forall_mem_iff_of_mapM
      (P := fun ic => (ic.binaryColumn :: ic.row.form.map (·.1)).Nodup) (Q := RowListed) hrows
      (fun ic row hrow => by
        obtain ⟨M, rfl⟩ := hrelaxed ic row hrow
        exact (relaxedRow_listed_iff ic M).symm)
    have hnew := hscoped.mp fun ic hic c hc => by
      obtain ⟨hbin, hcols⟩ := hs.indicators ic hic
      rcases List.mem_cons.mp hc with rfl | hc
      · exact hbin
      · obtain ⟨e, he, rfl⟩ := List.mem_map.mp hc
        exact hcols e he
    refine ⟨⟨hs.numRows_eq, fun r hr => ?_, hs.generals, by simp⟩, ?_, fun hreads => hreads⟩
    · rcases List.mem_append.mp hr with hr | hr
      · exact hs.rows r hr
      · exact fun e he => hnew r hr e.1 (List.mem_map_of_mem he)
    · rw [and_true]
      constructor
      · intro h
        exact ⟨fun r hr => h.rows r (List.mem_append_left _ hr), h.generals,
          hlisted.mpr fun r hr => h.rows r (List.mem_append_right _ hr)⟩
      · intro h
        refine ⟨fun r hr => ?_, h.generals, by simp⟩
        rcases List.mem_append.mp hr with hr | hr
        · exact h.rows r hr
        · exact hlisted.mp h.indicators r hr

/-! ## Native ABS -/

/-- The variables below `n` have columns of their own at every row. -/
def SeparatesVariables (indexer : VarIndexer) (n : Nat) : Prop :=
  ∀ v w r, v < n → w < n → r < indexer.numRows → indexer.get v r = indexer.get w r → v = w

theorem map_fst_argumentEntries (c1 : EvaluatedConstraint) (aux r : Nat) :
    (argumentEntries indexer c1 aux r).map (·.1) =
      (c1.lhsTerms.filter fun t => t.variableIndex ≠ some aux).filterMap fun t =>
        if t.rowCoefficients r = 0 then none else t.variableIndex.map fun v => indexer.get v r := by
  unfold argumentEntries
  induction c1.lhsTerms with
  | nil => rfl
  | cons t terms ih =>
    rw [List.filterMap_cons]
    cases hv : t.variableIndex with
    | none =>
      rw [List.filter_cons_of_pos (by simp [hv]), List.filterMap_cons, hv, Option.map_none, ite_self]
      exact ih
    | some v =>
      dsimp only
      by_cases haux : v = aux
      · rw [if_pos (Or.inl haux), List.filter_cons_of_neg (by simp [hv, haux])]
        exact ih
      · rw [List.filter_cons_of_pos (by simp [hv, haux]), List.filterMap_cons, hv, Option.map_some]
        by_cases h0 : t.rowCoefficients r = 0
        · rw [if_pos (Or.inr h0), if_pos h0]
          exact ih
        · rw [if_neg (by tauto), if_neg h0, List.map_cons, ih]

/-- The argument of a native ABS lists the entries of its row once just when they are distinct. -/
theorem emits_absArgumentColumn (c1 : EvaluatedConstraint) (aux : Nat) {r : Nat} (ht : t.WellScoped indexer)
    (hr : r < indexer.numRows) (k : ℚ) :
    let out := absArgumentColumn indexer t c1 aux r k
    Emits indexer t out.1 ((argumentEntries indexer c1 aux r).map (·.1)).Nodup ∧
      out.2 < out.1.width indexer ∧
      (out.2 = t.width indexer ∨ ∃ e ∈ argumentEntries indexer c1 aux r, e.1 = out.2) := by
  have hlt : ∀ e ∈ argumentEntries indexer c1 aux r, e.1 < t.width indexer := fun e he =>
    (argumentEntries_below hr e he).trans_le (Nat.le_add_right _ _)
  have hadd := emits_addGlobalContinuousAux ht (argumentRange t c1 aux r k)
  have hwidth := @addGlobalContinuousAux_width t indexer
    (argumentRange t c1 aux r k)
  set added := (t.addGlobalContinuousAux indexer (argumentRange t c1 aux r k)).1 with hadded
  have hfresh : Emits indexer t
      (added.pushRow ⟨(t.width indexer, 1) :: argumentEntries indexer c1 aux r, .eq, k⟩)
      ((argumentEntries indexer c1 aux r).map (·.1)).Nodup := by
    refine (hadd.true_trans (emits_pushRow hadd.wellScoped fun e he => ?_)).congr ?_
    · rw [hwidth]
      rcases List.mem_cons.mp he with rfl | he
      · exact Nat.lt_succ_self _
      · exact (hlt e he).trans (Nat.lt_succ_self _)
    · have hnot : t.width indexer ∉ (argumentEntries indexer c1 aux r).map (·.1) := fun hmem => by
        obtain ⟨e, he, heq⟩ := List.mem_map.mp hmem
        have := hlt e he
        omega
      constructor
      · intro h
        exact (List.nodup_cons.mp h.nodup).2
      · exact fun h => ⟨List.nodup_cons.mpr ⟨hnot, h⟩, by simp⟩
  have hnew : t.width indexer <
      (added.pushRow ⟨(t.width indexer, 1) :: argumentEntries indexer c1 aux r, .eq, k⟩).width
        indexer := by
    rw [pushRow_width, hwidth]
    exact Nat.lt_succ_self _
  unfold absArgumentColumn
  dsimp only
  split
  · rename_i column coefficient hentries
    split
    · refine ⟨(Emits.refl ht).congr (iff_of_true trivial ?_), ?_, Or.inr ?_⟩
      · rw [hentries]
        exact List.nodup_singleton _
      · exact hlt (column, coefficient) (by rw [hentries]; exact List.mem_singleton_self _)
      · exact ⟨(column, coefficient), by rw [hentries]; exact List.mem_singleton_self _, rfl⟩
    · exact ⟨hfresh, hnew, Or.inl rfl⟩
  · exact ⟨hfresh, hnew, Or.inl rfl⟩

/-- One row of a native ABS. -/
theorem emits_nativeAbsRow {c1 : EvaluatedConstraint} {n aux r : Nat}
    (hsep : SeparatesVariables indexer n) (hterms : TermsBelow n c1.lhsTerms) (haux : aux < n)
    (ht : t.WellScoped indexer) (hr : r < indexer.numRows) :
    Emits indexer t (emitNativeAbsRow indexer c1 aux t r)
      ((c1.groupOf r).isSome → (∃ k, c1.rhsValues r = .fin k) →
        DistinctColumns indexer (c1.lhsTerms.filter fun t => t.variableIndex ≠ some aux) r) := by
  unfold emitNativeAbsRow
  cases hgroup : c1.groupOf r with
  | none => exact (Emits.refl ht).congr (iff_of_true trivial fun h => by simp at h)
  | some g =>
    dsimp only [Option.isNone]
    rw [if_neg (by simp)]
    cases hrhs : c1.rhsValues r with
    | negInf | posInf =>
      refine (Emits.refl ht).congr (iff_of_true trivial fun _ ⟨k, hk⟩ => ?_)
      cases hk
    | fin k =>
      dsimp only
      obtain ⟨hemit, hlt, hcol⟩ := emits_absArgumentColumn c1 aux ht hr k
      set out := absArgumentColumn indexer t c1 aux r k with hout
      have hauxlt : indexer.get aux r < t.width indexer :=
        (indexer.get_lt aux hr).trans_le (Nat.le_add_right _ _)
      have hne : indexer.get aux r ≠ out.2 := by
        intro heq
        rcases hcol with hcol | ⟨e, he, hcol⟩
        · omega
        · obtain ⟨u, hu, hue⟩ := List.mem_filterMap.mp he
          cases hv : u.variableIndex with
          | none => simp [hv] at hue
          | some v =>
            simp only [hv] at hue
            split at hue
            · cases hue
            · rename_i hno
              obtain rfl := Option.some.inj hue
              rw [not_or] at hno
              exact hno.1 (hsep v aux r (hterms u hu v hv) haux hr (hcol.trans heq.symm))
      have hgen := emits_pushGeneral (g := ⟨.abs, indexer.get aux r, [out.2]⟩) hemit.wellScoped
        (hauxlt.trans_le hemit.width_le) fun c hc => by
          rw [List.mem_singleton.mp hc]
          exact hlt
      refine (hemit.trans_true (hgen.always ?_)).congr ?_
      · rw [List.nodup_cons]
        exact ⟨by simpa using hne, List.nodup_singleton _⟩
      · unfold DistinctColumns
        rw [map_fst_argumentEntries]
        exact ⟨fun h _ _ => h, fun h => h rfl ⟨k, rfl⟩⟩

/-- **Native ABS.** -/
theorem emits_nativeAbs {n : Nat} (hsep : SeparatesVariables indexer n)
    (hterms : ∀ ec ∈ s.constraints, TermsBelow n ec.lhsTerms) {links : List AbsMaximizeLinkSpec}
    (hlinks : ∀ link ∈ links, link.auxIdx < n) (hs : s.WellScoped indexer) :
    Emits indexer s (emitNativeAbs indexer s links)
      (∀ link ∈ links, NativeAbsClean indexer s link) := by
  refine Emits.foldl (fun link hlink t ht => ?_) (.refl hs)
  have hconstraints : t.constraints = s.constraints := by rw [ht.frame]
  unfold emitNativeAbsLink NativeAbsClean
  rw [hconstraints, ht.numRows_eq]
  cases hpair : absConstraintPair s.constraints link.auxIdx with
  | none =>
    refine (Emits.refl ht.wellScoped).congr (iff_of_true trivial fun pair h => ?_)
    cases h
  | some pair =>
    dsimp only
    have hc1 : pair.c1 ∈ s.constraints := (absConstraintPair_mem hpair).1
    refine (Emits.foldl (f := emitNativeAbsRow indexer pair.c1 link.auxIdx) (fun r hr v hv =>
      emits_nativeAbsRow (r := r) hsep (hterms _ hc1) (hlinks link hlink) hv.wellScoped ?_)
      (.refl ht.wellScoped)).congr ?_
    · rw [← ht.wellScoped.numRows_eq, ht.numRows_eq]
      exact List.mem_range.mp hr
    · constructor
      · intro h pair' hpair' r hr
        obtain rfl := Option.some.inj hpair'
        exact h r (List.mem_range.mpr hr)
      · exact fun h r hr => h pair rfl r (List.mem_range.mp hr)

end Decidb
