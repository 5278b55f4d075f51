import Decidb.Formulation.ComposedObjective
import Decidb.Formulation.Proofs.ComposedMinMaxProofs

/-!
# What a composed objective is worth

Optimized over the auxiliaries, the built objective is the composed expression less the constants of
its SUM and AVG bodies, except that a query-wide decision in such a body enters with its coefficient on
the first row instead of the sum over the rows.
-/

namespace Decidb

open Linear SolverInput

variable {indexer : VarIndexer} {input : SolverInput} {a b : Nat → ℚ}

/-! ## The best value -/

theorem DecideSense.IsBest.unique {sense : DecideSense} {s : Set ℚ} {v w : ℚ}
    (hv : sense.IsBest s v) (hw : sense.IsBest s w) : v = w := by
  cases sense with
  | minimize => exact IsLeast.unique hv hw
  | maximize => exact IsGreatest.unique hv hw

/-- The comparison an objective presses its terms with. -/
def DecideSense.pressure : DecideSense → Comparison
  | .minimize => .le
  | .maximize => .ge

/-- The values the objective takes over the completions of an assignment. -/
def ObjectiveValues (indexer : VarIndexer) (input out : SolverInput) (obj : LinearObjective)
    (a : Nat → ℚ) : Set ℚ :=
  {v | ∃ b, AgreeBelow (input.width indexer) b a ∧ out.Holds indexer b ∧
    v = (buildLinearObjective indexer obj).eval b}

/-! ## Linear readings of an additive expression -/

/-- An additive expression with a number for each of its reducers. -/
def AggregateSum.combine (f : Aggregate → ℚ) : AggregateSum → ℚ
  | .reducer scale agg => scaleFactorValue scale * f agg
  | .constant _ => 0
  | .add l r => l.combine f + r.combine f
  | .sub l r => l.combine f - r.combine f
  | .neg e => -e.combine f

/-- The reducer a term was walked from. -/
def ComposedMinMaxTerm.aggregate (t : ComposedMinMaxTerm) : Aggregate where
  name := t.aggName
  child := t.innerTerms
  filter := t.filter

theorem walkComposedLhs_combine (f : Aggregate → ℚ) {down exact : Bool} (lhs : AggregateSum) :
    ∀ (sign : ℤ) (terms : List ComposedMinMaxTerm),
      walkComposedLhs down exact lhs sign = .ok terms →
        (terms.map fun t => t.sign * scaleFactorValue t.scale * f t.aggregate).sum =
          sign * lhs.combine f := by
  induction lhs with
  | reducer scale agg =>
    intro sign terms h
    obtain rfl := Except.ok.inj h
    simp only [List.map_cons, List.map_nil, List.sum_cons, List.sum_nil, add_zero,
      AggregateSum.combine, mul_assoc]
    rfl
  | constant k =>
    intro sign terms h
    unfold walkComposedLhs at h
    split at h
    · obtain rfl := Except.ok.inj h
      simp [AggregateSum.combine]
    · cases h
  | neg e ih =>
    intro sign terms h
    rw [ih _ _ h, AggregateSum.combine]
    push_cast
    ring
  | add l r ihl ihr =>
    intro sign terms h
    unfold walkComposedLhs at h
    split at h
    · cases h
    rename_i ls hls
    split at h
    · cases h
    rename_i rs hrs
    obtain rfl := Except.ok.inj h
    rw [List.map_append, List.sum_append, ihl _ _ hls, ihr _ _ hrs, AggregateSum.combine]
    ring
  | sub l r ihl ihr =>
    intro sign terms h
    unfold walkComposedLhs at h
    split at h
    · cases h
    rename_i ls hls
    split at h
    · cases h
    rename_i rs hrs
    obtain rfl := Except.ok.inj h
    rw [List.map_append, List.sum_append, ihl _ _ hls, ihr _ _ hrs, AggregateSum.combine]
    push_cast
    ring

/-! ## What a SUM or AVG body loses -/

/-- What a plain reducer divides the sum of its body by. -/
def Aggregate.divisor (agg : Aggregate) (numRows : Nat) : ℚ :=
  if agg.name = .avg then (filteredRows agg.filter numRows).length else 1

/-- The part of a SUM or AVG body that mentions no decision. -/
def Aggregate.fixedPart (agg : Aggregate) (numRows : Nat) : ℚ :=
  if agg.name.isMinMax then 0
  else
    (agg.child.map fun t => match t.variableIndex with
      | none => ((filteredRows agg.filter numRows).map t.rowCoefficients).sum
      | some _ => 0).sum / agg.divisor numRows

/-- For a query-wide decision in a SUM or AVG body, its coefficient on the first row less the sum of its
coefficients over the surviving rows, times its value. -/
def Aggregate.misweight (agg : Aggregate) (indexer : VarIndexer) (numRows : Nat) (a : Nat → ℚ) : ℚ :=
  if agg.name.isMinMax then 0
  else
    let rows := filteredRows agg.filter numRows
    (agg.child.map fun t => match t.variableIndex with
      | none => 0
      | some v =>
        match indexer.varScope v with
        | .scalar _ => ((if 0 ∈ rows then t.rowCoefficients 0 else 0) -
            (rows.map t.rowCoefficients).sum) * a (indexer.get v 0)
        | _ => 0).sum / agg.divisor numRows

/-- What the objective counts too much of query-wide decisions. -/
def AggregateSum.misweight (lhs : AggregateSum) (indexer : VarIndexer) (numRows : Nat)
    (a : Nat → ℚ) : ℚ :=
  lhs.combine fun agg => agg.misweight indexer numRows a

/-! ## The built objective -/

/-- The value of one objective term as the model builder enters it. -/
def enteredValue (indexer : VarIndexer) (a : Nat → ℚ) (v : Nat) (col : Nat → ℚ) : ℚ :=
  (objectiveTermEntries indexer v col false).eval a

theorem enteredValue_eq (v : Nat) (col : Nat → ℚ) :
    enteredValue indexer a v col =
      ((List.range indexer.numRows).map fun r => col r * a (indexer.get v r)).sum +
        match indexer.varScope v with
        | .scalar _ => (col 0 - ((List.range indexer.numRows).map col).sum) * a (indexer.get v 0)
        | _ => 0 := by
  have hrows : Form.eval ((List.range indexer.numRows).map fun r => (indexer.get v r, col r)) a =
      ((List.range indexer.numRows).map fun r => col r * a (indexer.get v r)).sum := by
    simp [Form.eval, List.map_map, Function.comp_def]
  unfold enteredValue objectiveTermEntries
  cases hs : indexer.varScope v with
  | row offset => simpa using hrows
  | entity base rowToEntity => simpa using hrows
  | scalar column =>
    have hget : ∀ r, indexer.get v r = indexer.get v 0 := fun r => by
      simp [VarIndexer.get, hs, DecideVarScope.column]
    have hsum : ((List.range indexer.numRows).map fun r => col r * a (indexer.get v r)).sum =
        ((List.range indexer.numRows).map col).sum * a (indexer.get v 0) := by
      rw [← List.sum_map_mul_right]
      exact congrArg List.sum (List.map_congr_left fun r _ => by rw [hget r])
    simp only [hsum, Bool.false_eq_true, if_false, Form.eval_cons, Form.eval_nil, add_zero]
    ring

theorem enteredValue_add (v : Nat) (f g : Nat → ℚ) :
    enteredValue indexer a v (f + g) = enteredValue indexer a v f + enteredValue indexer a v g := by
  have hsum : ((List.range indexer.numRows).map (f + g)).sum =
      ((List.range indexer.numRows).map f).sum + ((List.range indexer.numRows).map g).sum :=
    List.sum_map_add
  simp only [enteredValue_eq, Pi.add_apply, add_mul, List.sum_map_add, hsum]
  cases indexer.varScope v <;> simp only <;> ring

/-- The value the columns of an accumulator enter with. -/
def accumulatedValue (indexer : VarIndexer) (a : Nat → ℚ) (acc : Form Nat (Nat → ℚ)) : ℚ :=
  (acc.map fun p => enteredValue indexer a p.1 p.2).sum

theorem accumulatedValue_addColumn (acc : Form Nat (Nat → ℚ)) (v : Nat) (col : Nat → ℚ) :
    accumulatedValue indexer a (Form.addColumn acc v col) =
      accumulatedValue indexer a acc + enteredValue indexer a v col := by
  unfold accumulatedValue
  induction acc with
  | nil => simp [Form.addColumn]
  | cons p acc ih =>
    by_cases h : p.1 = v
    · simp only [Form.addColumn, h, if_true, List.map_cons, List.sum_cons, enteredValue_add]
      ring
    · simp only [Form.addColumn, h, if_false, List.map_cons, List.sum_cons, ih]
      ring

/-- With no reduction marks, the builder enters every accumulated column as an unreduced term. -/
theorem buildLinearObjective_eval (acc : Form Nat (Nat → ℚ)) (globals : Form Nat ℚ) :
    (buildLinearObjective indexer
      { globalObjCoeffs := globals
        objectiveVariableIndices := acc.map fun p => some p.1
        objectiveCoefficients := acc.map (·.2) }).eval a =
      globals.eval a + accumulatedValue indexer a acc := by
  have hfst : acc.flatMap (fun p => objectiveTermEntries indexer p.1 p.2 false) =
      acc.zipIdx.flatMap fun q => objectiveTermEntries indexer q.1.1 q.1.2 false := by
    conv_lhs => rw [← List.zipIdx_map_fst 0 acc]
    rw [List.flatMap_map]
  unfold buildLinearObjective
  rw [Form.eval_append]
  congr 1
  refine Eq.trans (congrArg (Form.eval · a) ?_)
    (Form.eval_flatMap acc (fun p => objectiveTermEntries indexer p.1 p.2 false) a)
  rw [hfst, List.zipIdx_map, List.flatMap_map]
  refine List.flatMap_congr fun q hq => ?_
  obtain ⟨p, i⟩ := q
  have hp : acc[i]? = some p := List.mem_zipIdx_iff_getElem?.mp hq
  simp [hp]

/-! ## One term of the loop -/

/-- The reducer of a term. -/
def ComposedMinMaxTermData.aggregate (ta : ComposedMinMaxTermData) : Aggregate where
  name := ta.aggName
  child := ta.innerTerms
  filter := some ta.filterMask

theorem sum_masked (m : RowMask) (f : Nat → ℚ) (l : List Nat) :
    (l.map fun r => if m r then f r else 0).sum = ((l.filter fun r => m r).map f).sum := by
  induction l with
  | nil => rfl
  | cons r l ih =>
    rw [List.map_cons, List.sum_cons, ih]
    cases h : m r <;> simp [h]

/-- A body's rows summed term by term: its decisions, and its fixed part. -/
theorem sum_rowValues (rows : List Nat) (terms : List LhsTerm) (a : Nat → ℚ) :
    (rows.map fun r => rowValue terms r fun v => a (indexer.get v r)).sum =
      (terms.map fun t => match t.variableIndex with
        | none => (rows.map t.rowCoefficients).sum
        | some v => (rows.map fun r => t.rowCoefficients r * a (indexer.get v r)).sum).sum := by
  induction terms with
  | nil => simp [rowValue_nil]
  | cons t terms ih =>
    simp only [rowValue_cons, List.sum_map_add, List.map_cons, List.sum_cons, ih]
    congr 1
    unfold termValue
    cases t.variableIndex <;> rfl

/-- The column of one inner term, as it is entered. -/
theorem enteredValue_column {ta : ComposedMinMaxTermData} (hne : ta.rows indexer.numRows ≠ [])
    (d : ℚ) (inner : LhsTerm) (v : Nat) :
    enteredValue indexer a v (composedObjectiveColumn ta d inner) =
      ta.sign * ta.scale * (((ta.rows indexer.numRows).map fun r =>
        inner.rowCoefficients r * a (indexer.get v r)).sum / d +
      (match indexer.varScope v with
        | .scalar _ => ((if 0 ∈ ta.rows indexer.numRows then inner.rowCoefficients 0 else 0) -
            ((ta.rows indexer.numRows).map inner.rowCoefficients).sum) * a (indexer.get v 0)
        | _ => 0) / d) := by
  have hfactor : ∀ x : Nat → ℚ,
      ((List.range indexer.numRows).map fun r => composedObjectiveColumn ta d inner r * x r).sum =
        ta.sign * ta.scale * (((ta.rows indexer.numRows).map fun r =>
          inner.rowCoefficients r * x r).sum / d) := by
    intro x
    have hcol : ∀ r, composedObjectiveColumn ta d inner r * x r =
        if ta.filterMask r then ta.sign * ta.scale / d * (inner.rowCoefficients r * x r) else 0 := by
      intro r
      unfold composedObjectiveColumn
      split
      · ring
      · rw [zero_mul]
    simp only [hcol, sum_masked, ComposedMinMaxTermData.rows, List.sum_map_mul_left]
    ring
  have hone : ((List.range indexer.numRows).map (composedObjectiveColumn ta d inner)).sum =
      ta.sign * ta.scale * (((ta.rows indexer.numRows).map inner.rowCoefficients).sum / d) := by
    simpa using hfactor fun _ => 1
  have hmem : 0 ∈ ta.rows indexer.numRows ↔ ta.filterMask 0 = true := by
    obtain ⟨r, hr⟩ := List.exists_mem_of_ne_nil _ hne
    have hpos : 0 < indexer.numRows :=
      Nat.zero_lt_of_lt (List.mem_range.mp (List.mem_filter.mp hr).1)
    simp [ComposedMinMaxTermData.rows, hpos]
  rw [enteredValue_eq, hfactor]
  cases hs : indexer.varScope v with
  | row offset => simp
  | entity base rowToEntity => simp
  | scalar column =>
    simp only [hone, hmem]
    unfold composedObjectiveColumn
    split <;> ring

/-- The columns of one SUM or AVG term add its value less its fixed part, with the query-wide decisions
misweighted. -/
theorem accumulatedValue_term {ta : ComposedMinMaxTermData} (hplain : ta.aggName.isMinMax = false)
    (hne : ta.rows indexer.numRows ≠ []) (acc : Form Nat (Nat → ℚ)) :
    accumulatedValue indexer a (accumulateObjectiveTerm indexer.numRows acc ta) =
      accumulatedValue indexer a acc + ta.sign * ta.scale *
        (ta.value indexer indexer.numRows a - ta.aggregate.fixedPart indexer.numRows +
          ta.aggregate.misweight indexer indexer.numRows a) := by
  set rows := ta.rows indexer.numRows with hrows
  have hfiltered : filteredRows ta.aggregate.filter indexer.numRows = rows := rfl
  have hlen : rows.length ≠ 0 := fun h => hne (List.length_eq_zero_iff.mp h)
  have hloop : ∀ (d : ℚ) (terms : List LhsTerm) (acc : Form Nat (Nat → ℚ)),
      accumulatedValue indexer a (terms.foldl (fun acc inner =>
        match inner.variableIndex with
        | none => acc
        | some v => Form.addColumn acc v (composedObjectiveColumn ta d inner)) acc) =
      accumulatedValue indexer a acc + ta.sign * ta.scale * (((terms.map fun t =>
          match t.variableIndex with
          | none => (rows.map t.rowCoefficients).sum
          | some v => (rows.map fun r => t.rowCoefficients r * a (indexer.get v r)).sum).sum -
        (terms.map fun t => match t.variableIndex with
          | none => (rows.map t.rowCoefficients).sum
          | some _ => 0).sum +
        (terms.map fun t => match t.variableIndex with
          | none => 0
          | some v =>
            match indexer.varScope v with
            | .scalar _ => ((if 0 ∈ rows then t.rowCoefficients 0 else 0) -
                (rows.map t.rowCoefficients).sum) * a (indexer.get v 0)
            | _ => 0).sum) / d) := by
    intro d terms
    induction terms with
    | nil => intro acc; simp
    | cons t terms ih =>
      intro acc
      rw [List.foldl_cons, ih]
      simp only [List.map_cons, List.sum_cons]
      cases hv : t.variableIndex with
      | none => simp only; ring
      | some v =>
        simp only [accumulatedValue_addColumn, enteredValue_column hne]
        ring
  have hvalue : ∀ d, d = ta.aggregate.divisor indexer.numRows →
      ta.value indexer indexer.numRows a =
        (rows.map fun r => rowValue ta.innerTerms r fun v => a (indexer.get v r)).sum / d := by
    rintro d rfl
    unfold ComposedMinMaxTermData.value Aggregate.divisor
    rw [hfiltered, ← hrows]
    change _ = _ / (if ta.aggName = .avg then (rows.length : ℚ) else 1)
    cases hname : ta.aggName with
    | min => simp [hname, AggregateName.isMinMax] at hplain
    | max => simp [hname, AggregateName.isMinMax] at hplain
    | sum => simp [AggregateName.reduce]
    | avg => simp [AggregateName.reduce]
  have hkind : ¬ ta.aggregate.name.isMinMax = true := by
    simp [ComposedMinMaxTermData.aggregate, hplain]
  have hfixed : ta.aggregate.fixedPart indexer.numRows = (ta.innerTerms.map fun t =>
      match t.variableIndex with
      | none => (rows.map t.rowCoefficients).sum
      | some _ => 0).sum / ta.aggregate.divisor indexer.numRows := by
    unfold Aggregate.fixedPart
    rw [if_neg hkind]
    rfl
  have hmis : ta.aggregate.misweight indexer indexer.numRows a = (ta.innerTerms.map fun t =>
      match t.variableIndex with
      | none => 0
      | some v =>
        match indexer.varScope v with
        | .scalar _ => ((if 0 ∈ rows then t.rowCoefficients 0 else 0) -
            (rows.map t.rowCoefficients).sum) * a (indexer.get v 0)
        | _ => 0).sum / ta.aggregate.divisor indexer.numRows := by
    unfold Aggregate.misweight
    rw [if_neg hkind]
    rfl
  unfold accumulateObjectiveTerm
  rw [if_neg (by simp [hplain]), if_neg (by simp [hlen, ← hrows])]
  refine (hloop (ta.aggregate.divisor indexer.numRows) ta.innerTerms acc).trans ?_
  rw [hvalue _ rfl, hfixed, hmis, sum_rowValues]
  ring

/-! ## The whole objective -/

/-- A term's factor times a number read off its reducer, summed over the terms. -/
def weighted (terms : List ComposedMinMaxTermData) (f : Aggregate → ℚ) : ℚ :=
  (terms.map fun t => t.share (f t.aggregate)).sum

theorem accumulatedValue_terms (terms : List ComposedMinMaxTermData)
    (hne : ∀ t ∈ terms, t.rows indexer.numRows ≠ []) : ∀ acc : Form Nat (Nat → ℚ),
    accumulatedValue indexer a (terms.foldl (accumulateObjectiveTerm indexer.numRows) acc) =
      accumulatedValue indexer a acc +
        (terms.map fun t => if t.aggName.isMinMax then 0
          else t.share (t.value indexer indexer.numRows a)).sum -
        weighted terms (fun agg => agg.fixedPart indexer.numRows) +
        weighted terms (fun agg => agg.misweight indexer indexer.numRows a) := by
  induction terms with
  | nil => intro acc; simp [weighted]
  | cons t terms ih =>
    intro acc
    rw [List.foldl_cons, ih (fun u hu => hne u (List.mem_cons_of_mem _ hu))]
    unfold weighted
    simp only [List.map_cons, List.sum_cons]
    cases hmm : t.aggName.isMinMax with
    | true =>
      have hacc : accumulateObjectiveTerm indexer.numRows acc t = acc := if_pos hmm
      have hfixed : t.aggregate.fixedPart indexer.numRows = 0 := if_pos hmm
      have hmis : t.aggregate.misweight indexer indexer.numRows a = 0 := if_pos hmm
      rw [hacc, hfixed, hmis]
      simp [ComposedMinMaxTermData.share]
    | false =>
      rw [accumulatedValue_term hmm (hne t List.mem_cons_self)]
      unfold ComposedMinMaxTermData.share
      simp only [Bool.false_eq_true, if_false]
      ring

/-- The built objective of a composition, as its terms are seen. -/
theorem rebuild_eval (terms : List ComposedMinMaxTermData)
    (hne : ∀ t ∈ terms, t.rows indexer.numRows ≠ []) :
    (buildLinearObjective indexer
      (LinearObjective.rebuild {} indexer.numRows terms)).eval a =
      (terms.map fun t => t.share (t.seen indexer indexer.numRows a)).sum -
        weighted terms (fun agg => agg.fixedPart indexer.numRows) +
        weighted terms (fun agg => agg.misweight indexer indexer.numRows a) := by
  have hglobal : ∀ terms : List ComposedMinMaxTermData,
      Form.eval ((terms.filter fun ta => ta.aggName.isMinMax).map fun ta =>
        (ta.zIdx, (ta.sign : ℚ) * ta.scale)) a +
        (terms.map fun t => if t.aggName.isMinMax then 0
          else t.share (t.value indexer indexer.numRows a)).sum =
      (terms.map fun t => t.share (t.seen indexer indexer.numRows a)).sum := by
    intro terms
    induction terms with
    | nil => simp
    | cons t terms ih =>
      rw [List.map_cons, List.map_cons, List.sum_cons, List.sum_cons, ← ih]
      cases hmm : t.aggName.isMinMax with
      | true =>
        simp only [List.filter_cons_of_pos (p := fun ta : ComposedMinMaxTermData =>
          ta.aggName.isMinMax) hmm, List.map_cons, Form.eval_cons, if_true,
          ComposedMinMaxTermData.seen, hmm, ComposedMinMaxTermData.share]
        ring
      | false =>
        have hdrop : (t :: terms).filter (fun ta => ta.aggName.isMinMax) =
            terms.filter fun ta => ta.aggName.isMinMax :=
          List.filter_cons_of_neg (by simp [hmm])
        simp only [hdrop, ComposedMinMaxTermData.seen, hmm, Bool.false_eq_true, if_false]
        ring
  refine (buildLinearObjective_eval _ _).trans ?_
  rw [accumulatedValue_terms terms hne, ← hglobal terms]
  unfold accumulatedValue
  rw [List.map_nil, List.sum_nil, List.nil_append]
  ring

theorem weighted_congr {terms : List ComposedMinMaxTermData} {f g : Aggregate → ℚ}
    (h : ∀ t ∈ terms, f t.aggregate = g t.aggregate) : weighted terms f = weighted terms g :=
  congrArg List.sum (List.map_congr_left fun t ht => by rw [h t ht])

/-- The misweight of a reducer reads the decision columns of the first row. -/
theorem misweight_congr {n : Nat} (hn : indexer.globalBlockStart ≤ n) (hab : AgreeBelow n a b)
    (agg : Aggregate) :
    agg.misweight indexer indexer.numRows a = agg.misweight indexer indexer.numRows b := by
  by_cases hpos : 0 < indexer.numRows
  · have hget : ∀ v, a (indexer.get v 0) = b (indexer.get v 0) := fun v =>
      hab _ ((indexer.get_lt v hpos).trans_le hn)
    unfold Aggregate.misweight
    simp only [hget]
  · have hzero : indexer.numRows = 0 := Nat.eq_zero_of_not_pos hpos
    simp [Aggregate.misweight, filteredRows, hzero]

/-- **`LinearizeComposedMinMaxObjective`**, optimized over the auxiliaries. -/
theorem linearizeComposedObjective_best {out : SolverInput} {obj : LinearObjective}
    {terms : List ComposedMinMaxTermData} {sense : DecideSense} {varNames : List String}
    {policy : NativeConstructPolicy} (hw : input.WellScoped indexer)
    (hne : ∀ t ∈ terms, t.rows input.numRows ≠ [])
    (hclean : ∀ t ∈ terms, t.aggName.isMinMax = true →
      ∀ r ∈ t.rows input.numRows, ComposedCutClean indexer t.innerTerms r)
    (heasy : ∀ t ∈ terms, t.aggName.isMinMax = true → EasyFits sense.pressure t)
    (hok : linearizeComposedMinMaxObjective input indexer {} terms varNames policy = .ok (out, obj))
    (ha : input.Holds indexer a) :
    sense.IsBest (ObjectiveValues indexer input out obj a)
      (composedValue indexer indexer.numRows terms a -
        weighted terms (fun agg => agg.fixedPart indexer.numRows) +
        weighted terms (fun agg => agg.misweight indexer indexer.numRows a)) := by
  have hnr := hw.numRows_eq
  unfold linearizeComposedMinMaxObjective at hok
  cases hlinks : emitComposedMinMaxAuxiliaries input indexer terms varNames policy with
  | error e => rw [hlinks] at hok; cases hok
  | ok pair =>
    obtain ⟨linked, ts⟩ := pair
    rw [hlinks] at hok
    simp only [Except.ok.injEq, Prod.mk.injEq] at hok
    obtain ⟨rfl, rfl⟩ := hok
    have haux := emitComposedMinMaxAuxiliaries_spec hw (fun t ht hmm => ⟨hne t ht, hclean t ht hmm⟩)
      hlinks
    have hne' : ∀ t ∈ ts, t.rows indexer.numRows ≠ [] :=
      hnr ▸ forall_same haux.same (fun _ _ h => h) hne
    have heasy' : ∀ t ∈ ts, t.aggName.isMinMax = true → EasyFits sense.pressure t :=
      forall_same haux.same (fun _ _ h => h) heasy
    have hweighted : ∀ f, weighted ts f = weighted terms f := fun f =>
      congrArg List.sum (map_same haux.same fun _ _ => rfl)
    have hvalue : ∀ b, AgreeBelow (input.width indexer) b a → ∀ t : ComposedMinMaxTermData,
        t.value indexer indexer.numRows b = t.value indexer indexer.numRows a := fun b hb t =>
      value_congr (Nat.le_add_right _ _) le_rfl hb
    -- at every completion the objective is the terms as they are seen, up to what `a` settles
    have hobj : ∀ b, AgreeBelow (input.width indexer) b a →
        (buildLinearObjective indexer (LinearObjective.rebuild {} input.numRows ts)).eval b =
        (ts.map fun t => t.share (t.seen indexer indexer.numRows b)).sum -
          weighted terms (fun agg => agg.fixedPart indexer.numRows) +
          weighted terms (fun agg => agg.misweight indexer indexer.numRows a) := by
      intro b hb
      rw [hnr, rebuild_eval ts hne', hweighted, hweighted]
      congr 1
      exact weighted_congr fun t _ => misweight_congr (Nat.le_add_right _ _) hb t.aggregate
    rw [← composedValue_same haux.same]
    have hcase : ∀ b, AgreeBelow (input.width indexer) b a → linked.Holds indexer b → ∀ t ∈ ts,
        t.seen indexer indexer.numRows b = t.value indexer indexer.numRows a ∨
          (EasyFits sense.pressure t ∧ t.isEasy = true ∧ EnvelopeSide (t.aggName = .max)
            (t.seen indexer indexer.numRows b) (t.value indexer indexer.numRows a)) := by
      intro b hba hb t ht
      refine seen_eq_or_easy (heasy' t ht) (fun hmm => ?_) (fun hmm => ?_)
      · have hp := (haux.pinned b hb).2 t ht hmm
        rw [hnr, hvalue b hba] at hp
        simpa [ComposedMinMaxTermData.seen, hmm] using hp
      · simp [ComposedMinMaxTermData.seen, hmm, hvalue b hba]
    have hattained : composedValue indexer indexer.numRows ts a -
        weighted terms (fun agg => agg.fixedPart indexer.numRows) +
        weighted terms (fun agg => agg.misweight indexer indexer.numRows a) ∈
          ObjectiveValues indexer input linked (LinearObjective.rebuild {} input.numRows ts) a := by
      obtain ⟨c, hca, hc, hcz⟩ := haux.completes a ha
      refine ⟨c, hca, hc, ?_⟩
      rw [hobj c hca]
      congr 2
      refine congrArg List.sum (List.map_congr_left fun t ht => ?_)
      unfold ComposedMinMaxTermData.seen
      split
      · rename_i hmm
        rw [hcz t ht hmm, hnr]
      · rw [hvalue c hca]
    cases sense with
    | minimize =>
      refine ⟨hattained, ?_⟩
      rintro _ ⟨b, hba, hb, rfl⟩
      rw [hobj b hba]
      have hle : composedValue indexer indexer.numRows ts a ≤
          (ts.map fun t => t.share (t.seen indexer indexer.numRows b)).sum := by
        refine sum_shares_le (f := fun t => t.value indexer indexer.numRows a) fun t ht => ?_
        rcases hcase b hba hb t ht with heq | ⟨hfit, he, henv⟩
        · rw [heq]
        · exact hfit he _ _ henv
      linarith
    | maximize =>
      refine ⟨hattained, ?_⟩
      rintro _ ⟨b, hba, hb, rfl⟩
      rw [hobj b hba]
      have hle : (ts.map fun t => t.share (t.seen indexer indexer.numRows b)).sum ≤
          composedValue indexer indexer.numRows ts a := by
        refine sum_shares_le (g := fun t => t.value indexer indexer.numRows a) fun t ht => ?_
        rcases hcase b hba hb t ht with heq | ⟨hfit, he, henv⟩
        · rw [heq]
        · exact hfit he _ _ henv
      linarith

/-! ## From the expression to the model -/

/-- An objective presses its terms as a one-sided comparison does. -/
theorem walk_pressure (sense : DecideSense) (lhs : AggregateSum) (sign : ℤ) :
    walkComposedLhs (sense = .minimize) false lhs sign =
      walkComposedLhs (sense.pressure = .lt || sense.pressure = .le) (sense.pressure = .eq) lhs
        sign := by
  cases sense <;> rfl

/-- The reducer of an evaluated term reads the rows its own WHEN admits. -/
theorem evaluate_aggregate (t : ComposedMinMaxTerm) (numRows : Nat) :
    (evaluateComposedTerm t).aggregate.fixedPart numRows = t.aggregate.fixedPart numRows ∧
      (evaluateComposedTerm t).aggregate.misweight indexer numRows a =
        t.aggregate.misweight indexer numRows a := ⟨rfl, rfl⟩

theorem weighted_walk {sense : DecideSense} {lhs : AggregateSum} {terms : List ComposedMinMaxTerm}
    (h : walkComposedLhs (sense = .minimize) false lhs 1 = .ok terms) (f : Aggregate → ℚ)
    (hf : ∀ t : ComposedMinMaxTerm, f (evaluateComposedTerm t).aggregate = f t.aggregate) :
    weighted (terms.map evaluateComposedTerm) f = lhs.combine f := by
  have hsum := walkComposedLhs_combine f lhs 1 terms h
  rw [Int.cast_one, one_mul] at hsum
  rw [← hsum]
  unfold weighted
  rw [List.map_map]
  refine congrArg List.sum (List.map_congr_left fun t _ => ?_)
  change t.sign * scaleFactorValue t.scale * f (evaluateComposedTerm t).aggregate = _
  rw [hf]

/-- **The built objective**, optimized over the auxiliaries: the composed expression less its fixed
parts, with the query-wide decisions of its SUM and AVG bodies misweighted. -/
theorem lowerComposedObjective_best {out : SolverInput} {obj : LinearObjective} {lhs : AggregateSum}
    {sense : DecideSense} {wrapped : Bool} {varNames : List String}
    {policy : NativeConstructPolicy} (hw : input.WellScoped indexer)
    (hclean : ReducersClean indexer input.numRows lhs)
    (hok : lowerComposedObjective input indexer sense wrapped lhs varNames policy =
      .ok (some (out, obj))) (ha : input.Holds indexer a) :
    sense.IsBest (ObjectiveValues indexer input out obj a)
      (lhs.value indexer indexer.numRows a -
        lhs.combine (fun agg => agg.fixedPart indexer.numRows) +
        lhs.misweight indexer indexer.numRows a) := by
  unfold lowerComposedObjective rewriteComposedMinMaxObjectiveTop at hok
  have hnr := hw.numRows_eq
  cases hwrap : wrapped with
  | true =>
    simp only [hwrap, if_true] at hok
    by_cases hrefused : (lhs.additiveContainsMinMax && (lhs.isAddNode || lhs.isSubNode)) = true
    · simp [hrefused] at hok
    · simp [hrefused] at hok
  | false =>
    simp only [hwrap, Bool.false_eq_true, if_false] at hok
    by_cases hcomposed : (lhs.isScaledLoneMinMax ||
        ((lhs.isAddNode || lhs.isSubNode) && lhs.additiveContainsMinMax)) = true
    · rw [if_pos hcomposed] at hok
      cases hwalk : walkComposedLhs (sense = .minimize) false lhs 1 with
      | error e => rw [hwalk] at hok; cases hok
      | ok terms =>
        rw [hwalk] at hok
        simp only [Except.map] at hok
        cases hev : evaluateComposedClause "objective" input.numRows terms with
        | error e => rw [hev] at hok; cases hok
        | ok ds =>
          rw [hev] at hok
          obtain ⟨rfl, hrows⟩ := evaluateComposedClause_ok hev
          simp only at hok
          cases hlin : linearizeComposedMinMaxObjective input indexer {}
              (terms.map evaluateComposedTerm) varNames policy with
          | error e => rw [hlin] at hok; cases hok
          | ok pair =>
            rw [hlin] at hok
            obtain rfl : pair = (out, obj) := Option.some.inj (Except.ok.inj hok)
            have hwalk' := hwalk
            rw [walk_pressure] at hwalk'
            have hterms := fun a => walkComposedLhs_spec indexer indexer.numRows a lhs 1 terms hwalk'
            have hne : sense.pressure ≠ .ne := by cases sense <;> decide
            have hbest := @linearizeComposedObjective_best _ _ _ _ _ _ sense _ _ hw hrows
              (fun d hd hmm r hr => ?_) (fun d hd _ => ?_) hlin ha
            · rw [(hterms a).1, Int.cast_one, one_mul, weighted_walk hwalk _ fun t => rfl,
                weighted_walk hwalk _ fun t => rfl] at hbest
              exact hbest
            · obtain ⟨t, ht, rfl⟩ := List.mem_map.mp hd
              obtain ⟨⟨agg, hagg, hname, hinner, hfilter⟩, -⟩ := (hterms a).2 t ht
              have hr' : r ∈ filteredRows agg.filter input.numRows := hfilter ▸ hr
              have hclean' := hclean agg hagg (hname ▸ hmm) r hr'
              rwa [← hinner] at hclean'
            · obtain ⟨t, ht, rfl⟩ := List.mem_map.mp hd
              exact composedIsEasy_fits ((hterms a).2 t ht).2 hne
    · rw [if_neg hcomposed] at hok
      simp at hok

/-- **A composed objective is exact up to a constant exactly when what it misweights is constant.** -/
theorem composedObjective_exact_iff {out : SolverInput} {obj : LinearObjective} {lhs : AggregateSum}
    {sense : DecideSense} {wrapped : Bool} {varNames : List String}
    {policy : NativeConstructPolicy} (hw : input.WellScoped indexer)
    (hclean : ReducersClean indexer input.numRows lhs)
    (hok : lowerComposedObjective input indexer sense wrapped lhs varNames policy =
      .ok (some (out, obj))) :
    (∃ k, ∀ a, input.Holds indexer a → sense.IsBest (ObjectiveValues indexer input out obj a)
        (lhs.value indexer indexer.numRows a + k)) ↔
      ∃ k, ∀ a, input.Holds indexer a → lhs.misweight indexer indexer.numRows a = k := by
  set fixed := lhs.combine (fun agg => agg.fixedPart indexer.numRows) with hfixed
  have hbest := fun a ha => lowerComposedObjective_best (a := a) hw hclean hok ha
  constructor
  · rintro ⟨k, hk⟩
    refine ⟨k + fixed, fun a ha => ?_⟩
    have heq := (hk a ha).unique (hbest a ha)
    linarith
  · rintro ⟨k, hk⟩
    refine ⟨k - fixed, fun a ha => ?_⟩
    have hval : lhs.value indexer indexer.numRows a + (k - fixed) =
        lhs.value indexer indexer.numRows a - fixed + lhs.misweight indexer indexer.numRows a := by
      rw [hk a ha]
      ring
    rw [hval]
    exact hbest a ha

/-! ## A query-wide decision in a SUM body -/

/-- Two rows, a query-wide variable `s` and a row variable `y`. -/
def scalarBesideRows : VarIndexer where
  numRows := 2
  numRowVars := 1
  globalBlockStart := 3
  varScope := fun v => if v = 0 then .scalar 2 else .row 0
  column_lt := by
    intro v row h
    by_cases hv : v = 0
    · simp [hv, DecideVarScope.column]
    · simp only [hv, if_false, DecideVarScope.column]
      omega

/-- `s` and `y` are INTEGER over `[0, 10]`. -/
def scalarInput : SolverInput where
  numRows := 2
  variableTypes := [.integer, .integer]
  lowerBounds := [0, 0]
  upperBounds := [10, 10]

/-- `SUM(s) + MAX(y)`. -/
def scalarSumPlusMax : AggregateSum :=
  .add (.reducer none { name := .sum, child := [{ variableIndex := some 0, rowCoefficients := fun _ => 1 }] })
    (.reducer none { name := .max, child := [{ variableIndex := some 1, rowCoefficients := fun _ => 1 }] })

theorem scalarInput_wellScoped : scalarInput.WellScoped scalarBesideRows :=
  ⟨rfl, fun r hr => absurd hr (by simp [scalarInput]),
    fun r hr => absurd hr (by simp [scalarInput]), fun r hr => absurd hr (by simp [scalarInput])⟩

theorem scalarSumPlusMax_clean : ReducersClean scalarBesideRows 2 scalarSumPlusMax := by
  intro agg hagg hmm r _
  simp only [scalarSumPlusMax, AggregateSum.reducers, List.cons_append, List.nil_append,
    List.mem_cons, List.not_mem_nil, or_false] at hagg
  rcases hagg with rfl | rfl
  · cases hmm
  · constructor
    · intro t ht
      rw [List.mem_singleton.mp ht]
      right
      norm_num [coefficientCut]
    · intro t ht
      rw [List.mem_singleton.mp ht]
      right
      norm_num [coefficientCut]

/-- The assignment with `y = 0` on both rows and a value of `s`. -/
theorem scalarInput_holds {s : ℚ} (h0 : 0 ≤ s) (h10 : s ≤ 10) (hden : s.den = 1) :
    scalarInput.Holds scalarBesideRows (fun c => if c = 2 then s else 0) := by
  refine ⟨fun v box hv row hrow => ?_, fun i b hb => absurd hb (by simp [scalarInput]),
    fun r hr => absurd hr (by simp [scalarInput]), fun r hr => absurd hr (by simp [scalarInput]),
    fun r hr => absurd hr (by simp [scalarInput])⟩
  match v with
  | 0 =>
    obtain rfl := Option.some.inj hv
    have hcol : scalarBesideRows.get 0 row = 2 := rfl
    rw [hcol]
    exact ⟨Or.inr h0, Or.inr h10, fun _ => hden⟩
  | 1 =>
    obtain rfl := Option.some.inj hv
    have hcol : scalarBesideRows.get 1 row ≠ 2 := by
      have hrow : row < 2 := hrow
      simp only [VarIndexer.get, scalarBesideRows, one_ne_zero, if_false, DecideVarScope.column]
      omega
    simp only [if_neg hcol]
    exact ⟨Or.inr (by decide +kernel), Or.inr (by decide +kernel), fun _ => rfl⟩
  | v + 2 => cases hv

theorem scalarSumPlusMax_lowers : ∃ out obj, lowerComposedObjective scalarInput scalarBesideRows
    .minimize false scalarSumPlusMax [] {} = .ok (some (out, obj)) := ⟨_, _, rfl⟩

theorem composedObjective_exact_iff_scalarSum : ∃ out obj,
    lowerComposedObjective scalarInput scalarBesideRows .minimize false scalarSumPlusMax [] {} =
        .ok (some (out, obj)) ∧
      ((∃ k, ∀ a, scalarInput.Holds scalarBesideRows a → DecideSense.minimize.IsBest
          (ObjectiveValues scalarBesideRows scalarInput out obj a)
          (scalarSumPlusMax.value scalarBesideRows 2 a + k)) ↔
        ∃ k, ∀ a, scalarInput.Holds scalarBesideRows a →
          scalarSumPlusMax.misweight scalarBesideRows 2 a = k) := by
  obtain ⟨out, obj, hok⟩ := scalarSumPlusMax_lowers
  exact ⟨out, obj, hok, composedObjective_exact_iff scalarInput_wellScoped scalarSumPlusMax_clean hok⟩

/-- **The built objective of `SUM(s) + MAX(y)` over two rows counts `s` once**, so it differs from the
expression by more than a constant. -/
theorem scalarSum_not_exact : ∃ out obj,
    lowerComposedObjective scalarInput scalarBesideRows .minimize false scalarSumPlusMax [] {} =
        .ok (some (out, obj)) ∧
      ¬ ∃ k, ∀ a, scalarInput.Holds scalarBesideRows a → DecideSense.minimize.IsBest
          (ObjectiveValues scalarBesideRows scalarInput out obj a)
          (scalarSumPlusMax.value scalarBesideRows 2 a + k) := by
  obtain ⟨out, obj, hok⟩ := scalarSumPlusMax_lowers
  refine ⟨out, obj, hok, ?_⟩
  rintro ⟨k, hk⟩
  have hbest := fun a ha => lowerComposedObjective_best (a := a) scalarInput_wellScoped
    scalarSumPlusMax_clean hok ha
  have hzero := scalarInput_holds (s := 0) le_rfl (by norm_num) rfl
  have hone := scalarInput_holds (s := 1) (by norm_num) (by norm_num) rfl
  have h0 := (hk _ hzero).unique (hbest _ hzero)
  have h1 := (hk _ hone).unique (hbest _ hone)
  have hv0 : scalarSumPlusMax.value scalarBesideRows 2 (fun c => if c = 2 then 0 else 0) = 0 := by
    decide +kernel
  have hv1 : scalarSumPlusMax.value scalarBesideRows 2 (fun c => if c = 2 then 1 else 0) = 2 := by
    decide +kernel
  have hm0 : scalarSumPlusMax.misweight scalarBesideRows 2 (fun c => if c = 2 then 0 else 0) = 0 := by
    decide +kernel
  have hm1 : scalarSumPlusMax.misweight scalarBesideRows 2 (fun c => if c = 2 then 1 else 0) = -1 := by
    decide +kernel
  have hnum : scalarBesideRows.numRows = 2 := rfl
  rw [hnum, hv0, hm0] at h0
  rw [hnum, hv1, hm1] at h1
  linarith

end Decidb
