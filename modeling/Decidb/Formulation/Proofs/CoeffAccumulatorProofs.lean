import Decidb.Formulation.CoeffAccumulator
import Decidb.Formulation.Proofs.AggregateRowProofs
import Decidb.Linear.Columns

/-!
# The accumulator sums every column

A round on a reused accumulator flushes what a fresh one would: between rounds every cell of the scratch
array holds zero, so what an earlier round left is not seen.
-/

namespace Decidb

open Linear

namespace SparseCoeffAccumulator

/-! ## What a flush emits -/

theorem mem_flushDense {touched : List Nat} : ∀ {dense : Nat → ℚ} {e : Nat × ℚ},
    e ∈ flushDense touched dense → e.2 = dense e.1 ∧ e.2 ≠ 0 := by
  induction touched with
  | nil =>
    intro dense e h
    cases h
  | cons idx touched ih =>
    intro dense e h
    have hrest : ∀ e ∈ flushDense touched (fun i => if i = idx then 0 else dense i),
        e.2 = dense e.1 ∧ e.2 ≠ 0 := by
      intro e he
      obtain ⟨hval, hne⟩ := ih he
      by_cases hidx : e.1 = idx
      · rw [if_pos hidx] at hval
        exact absurd hval hne
      · rw [if_neg hidx] at hval
        exact ⟨hval, hne⟩
    unfold flushDense at h
    simp only at h
    by_cases hzero : dense idx ≠ 0
    · rw [if_pos hzero] at h
      rcases List.mem_cons.mp h with rfl | h
      · exact ⟨rfl, hzero⟩
      · exact hrest e h
    · rw [if_neg hzero] at h
      exact hrest e h

/-- A cell is emitted at its first mention; it holds zero at every later one. -/
theorem nodup_flushDense (touched : List Nat) : ∀ dense : Nat → ℚ,
    ((flushDense touched dense).map (·.1)).Nodup := by
  induction touched with
  | nil =>
    intro dense
    exact List.nodup_nil
  | cons idx touched ih =>
    intro dense
    have hrest := ih fun i => if i = idx then 0 else dense i
    unfold flushDense
    simp only
    by_cases hzero : dense idx ≠ 0
    · rw [if_pos hzero, List.map_cons]
      refine List.nodup_cons.mpr ⟨?_, hrest⟩
      intro hmem
      obtain ⟨e, he, hidx⟩ := List.mem_map.mp hmem
      obtain ⟨hval, hne⟩ := mem_flushDense he
      rw [if_pos hidx] at hval
      exact hne hval
    · rw [if_neg hzero]
      exact hrest

/-- The runs of sorted pairs have increasing indices and sums that are not zero. -/
theorem mergeRuns_spec (pairs : List (Nat × ℚ)) : ∀ run : Nat × ℚ,
    (run :: pairs).Pairwise (fun p q => p.1 ≤ q.1) →
      ((mergeRuns run pairs).map (·.1)).Pairwise (· < ·) ∧
        ∀ e ∈ mergeRuns run pairs, run.1 ≤ e.1 ∧ e.2 ≠ 0 := by
  induction pairs with
  | nil =>
    intro run _
    by_cases hzero : run.2 ≠ 0
    · simp [mergeRuns, hzero]
    · simp [mergeRuns, hzero]
  | cons p pairs ih =>
    intro run hsorted
    obtain ⟨hle, htail⟩ := List.pairwise_cons.mp hsorted
    obtain ⟨hlep, htailp⟩ := List.pairwise_cons.mp htail
    have hp : run.1 ≤ p.1 := hle p List.mem_cons_self
    unfold mergeRuns
    by_cases heq : p.1 = run.1
    · rw [if_pos heq]
      refine ih (run.1, run.2 + p.2) (List.pairwise_cons.mpr ⟨?_, htailp⟩)
      intro q hq
      exact hle q (List.mem_cons_of_mem _ hq)
    · rw [if_neg heq]
      have hlt : run.1 < p.1 := lt_of_le_of_ne hp (Ne.symm heq)
      obtain ⟨hinc, hmem⟩ := ih p htail
      have hmem' : ∀ e ∈ mergeRuns p pairs, run.1 < e.1 ∧ e.2 ≠ 0 := fun e he =>
        ⟨lt_of_lt_of_le hlt (hmem e he).1, (hmem e he).2⟩
      by_cases hzero : run.2 ≠ 0
      · rw [if_pos hzero, List.map_cons]
        refine ⟨List.pairwise_cons.mpr ⟨?_, hinc⟩, ?_⟩
        · intro idx hidx
          obtain ⟨e, he, rfl⟩ := List.mem_map.mp hidx
          exact (hmem' e he).1
        · intro e he
          rcases List.mem_cons.mp he with rfl | he
          · exact ⟨le_rfl, hzero⟩
          · exact ⟨(hmem' e he).1.le, (hmem' e he).2⟩
      · rw [if_neg hzero]
        exact ⟨hinc, fun e he => ⟨(hmem' e he).1.le, (hmem' e he).2⟩⟩

/-- After some contributions every cell that is not zero is touched, and the other mode holds nothing. -/
theorem foldl_add_tracked (useDense : Bool) (entries : List (Nat × ℚ)) :
    (entries.foldl (fun acc e => acc.add e.1 e.2) ({ useDense } : SparseCoeffAccumulator)).Tracked ∧
      let acc := entries.foldl (fun acc e => acc.add e.1 e.2) ({ useDense } : SparseCoeffAccumulator)
      if acc.useDense then acc.pairs = [] else acc.touched = [] := by
  have hstep : ∀ acc : SparseCoeffAccumulator,
      (acc.Tracked ∧ if acc.useDense then acc.pairs = [] else acc.touched = []) →
        (entries.foldl (fun acc e => acc.add e.1 e.2) acc).Tracked ∧
          if (entries.foldl (fun acc e => acc.add e.1 e.2) acc).useDense then
            (entries.foldl (fun acc e => acc.add e.1 e.2) acc).pairs = []
          else (entries.foldl (fun acc e => acc.add e.1 e.2) acc).touched = [] := by
    induction entries with
    | nil =>
      intro acc h
      exact h
    | cons e entries ih =>
      intro acc h
      refine ih (acc.add e.1 e.2) ⟨add_tracked h.1 e.1 e.2, ?_⟩
      unfold add
      by_cases hd : acc.useDense = true
      · simp only [hd, if_true] at h ⊢
        exact h.2
      · simp only [hd] at h ⊢
        exact h.2
  refine hstep { useDense } ⟨fun _ _ => rfl, ?_⟩
  cases useDense <;> rfl

/-- A flush emits every index once and no zero. -/
theorem flush_nodup (acc : SparseCoeffAccumulator) :
    (acc.flush.map (·.1)).Nodup ∧ ∀ e ∈ acc.flush, e.2 ≠ 0 := by
  unfold flush
  by_cases hd : acc.useDense = true
  · rw [if_pos hd]
    exact ⟨nodup_flushDense _ _, fun e he => (mem_flushDense he).2⟩
  · rw [if_neg hd]
    have hsorted := List.pairwise_mergeSort' (fun p q : Nat × ℚ => p.1 ≤ q.1) acc.pairs
    split
    · exact ⟨List.nodup_nil, fun e he => absurd he List.not_mem_nil⟩
    · rename_i p pairs hcons
      rw [hcons] at hsorted
      obtain ⟨hinc, hmem⟩ := mergeRuns_spec pairs p hsorted
      exact ⟨hinc.imp fun hlt => hlt.ne, fun e he => (hmem e he).2⟩

end SparseCoeffAccumulator

namespace ReusedAccumulator

/-! ## A round sees no other -/

/-- The accumulator with its array read as a function. -/
def asFresh (acc : ReusedAccumulator) : SparseCoeffAccumulator where
  useDense := acc.useDense
  dense := fun c => acc.dense.getD c 0
  touched := acc.touched
  pairs := acc.pairs

/-- Nothing is left of the round before. -/
structure Clean (acc : ReusedAccumulator) : Prop where
  dense : ∀ c, acc.dense.getD c 0 = 0
  touched : acc.touched = []
  pairs : acc.pairs = []

/-- The array is long enough for the columns of the round. -/
def Holds (acc : ReusedAccumulator) (idx : Nat) : Prop := acc.useDense = true → idx < acc.dense.length

theorem getD_set_zero (dense : List ℚ) (idx c : Nat) :
    (dense.set idx 0).getD c 0 = if c = idx then 0 else dense.getD c 0 := by
  rw [List.getD_eq_getElem?_getD, List.getD_eq_getElem?_getD, List.getElem?_set]
  by_cases hc : c = idx
  · rw [if_pos hc, if_pos hc.symm]
    split <;> rfl
  · rw [if_neg hc, if_neg (Ne.symm hc)]

theorem getD_set_of_lt {dense : List ℚ} {idx : Nat} (h : idx < dense.length) (v : ℚ) (c : Nat) :
    (dense.set idx v).getD c 0 = if c = idx then v else dense.getD c 0 := by
  rw [List.getD_eq_getElem?_getD, List.getD_eq_getElem?_getD, List.getElem?_set]
  by_cases hc : c = idx
  · rw [if_pos hc, if_pos hc.symm, if_pos h]
    rfl
  · rw [if_neg hc, if_neg (Ne.symm hc)]

/-- **A round begins as a fresh accumulator would.** -/
theorem begin_asFresh {acc : ReusedAccumulator} (h : acc.Clean) (mode : AccumulatorMode) :
    ∃ useDense, (acc.begin mode).asFresh = ({ useDense } : SparseCoeffAccumulator) ∧
      ∀ totalVars, mode = .dense totalVars → totalVars ≤ (acc.begin mode).dense.length := by
  cases mode with
  | dense totalVars =>
    refine ⟨true, ?_, ?_⟩
    · unfold ReusedAccumulator.begin beginDense asFresh
      have hzero : (fun c => (if acc.dense.length < totalVars then List.replicate totalVars (0 : ℚ)
          else acc.dense).getD c 0) = fun _ => 0 := by
        funext c
        split
        · by_cases hc : c < totalVars <;> simp [hc]
        · exact h.dense c
      rw [hzero]
    · intro n hn
      obtain rfl := AccumulatorMode.dense.inj hn
      show totalVars ≤ (if acc.dense.length < totalVars then List.replicate totalVars (0 : ℚ)
        else acc.dense).length
      split
      · rw [List.length_replicate]
      · omega
  | sparse expectedSize =>
    refine ⟨false, ?_, ?_⟩
    · show ({ useDense := false, dense := fun c => acc.dense.getD c 0, touched := [], pairs := [] } :
        SparseCoeffAccumulator) = _
      rw [funext h.dense]
    · intro n hn
      cases hn

theorem add_asFresh {acc : ReusedAccumulator} {idx : Nat} (h : acc.Holds idx) (coeff : ℚ) :
    (acc.add idx coeff).asFresh = acc.asFresh.add idx coeff ∧
      (acc.add idx coeff).dense.length = acc.dense.length ∧
        (acc.add idx coeff).useDense = acc.useDense := by
  unfold add SparseCoeffAccumulator.add
  by_cases hd : acc.useDense = true
  · rw [if_pos hd, if_pos (show acc.asFresh.useDense = true from hd)]
    refine ⟨?_, List.length_set, rfl⟩
    have hcells : (fun c => (acc.dense.set idx (acc.dense.getD idx 0 + coeff)).getD c 0) =
        fun c => if c = idx then acc.dense.getD c 0 + coeff else acc.dense.getD c 0 := by
      funext c
      rw [getD_set_of_lt (h hd)]
      by_cases hc : c = idx
      · rw [if_pos hc, if_pos hc, hc]
      · rw [if_neg hc, if_neg hc]
    unfold asFresh
    simp only [hcells]
  · rw [if_neg hd, if_neg (show ¬ acc.asFresh.useDense = true from hd)]
    exact ⟨rfl, rfl, rfl⟩

/-- The contributions of a round reach the accumulator as they reach a fresh one. -/
theorem foldl_add_asFresh (adds : List (Nat × ℚ)) : ∀ {acc : ReusedAccumulator},
    (∀ e ∈ adds, acc.Holds e.1) →
      (adds.foldl (fun acc e => acc.add e.1 e.2) acc).asFresh =
        adds.foldl (fun acc e => acc.add e.1 e.2) acc.asFresh := by
  induction adds with
  | nil =>
    intro acc _
    rfl
  | cons e adds ih =>
    intro acc h
    obtain ⟨hadd, hlen, hmode⟩ := add_asFresh (h e List.mem_cons_self) e.2
    rw [List.foldl_cons, List.foldl_cons, ← hadd]
    apply ih
    intro e' he' hd
    rw [hlen]
    exact h e' (List.mem_cons_of_mem _ he') (hmode ▸ hd)

/-- The drained array is the array with the touched cells at zero. -/
theorem drain_spec (touched : List Nat) : ∀ dense : List ℚ,
    (drain touched dense).1 = SparseCoeffAccumulator.flushDense touched (fun c => dense.getD c 0) ∧
      ∀ c, (drain touched dense).2.getD c 0 = if c ∈ touched then 0 else dense.getD c 0 := by
  induction touched with
  | nil =>
    intro dense
    exact ⟨rfl, fun c => by rw [if_neg List.not_mem_nil]; rfl⟩
  | cons idx touched ih =>
    intro dense
    obtain ⟨hemit, hrest⟩ := ih (dense.set idx 0)
    have hcells : (fun c => (dense.set idx 0).getD c 0) =
        fun c => if c = idx then 0 else dense.getD c 0 := funext fun c => getD_set_zero dense idx c
    refine ⟨?_, ?_⟩
    · unfold drain SparseCoeffAccumulator.flushDense
      simp only [hemit, hcells]
    · intro c
      show (drain touched (dense.set idx 0)).2.getD c 0 = _
      rw [hrest, getD_set_zero]
      by_cases hc : c = idx <;> by_cases hmem : c ∈ touched <;> simp [hc, hmem]

/-- **A flush appends what a fresh accumulator flushes, and leaves nothing behind.** -/
theorem flush_spec {acc : ReusedAccumulator} (htracked : acc.asFresh.Tracked)
    (hmode : if acc.useDense then acc.pairs = [] else acc.touched = [])
    (out : List (Nat × ℚ)) :
    (acc.flush out).1.Clean ∧ (acc.flush out).2 = out ++ acc.asFresh.flush := by
  unfold flush SparseCoeffAccumulator.flush
  by_cases hd : acc.useDense = true
  · rw [if_pos hd] at hmode ⊢
    rw [if_pos (show acc.asFresh.useDense = true from hd)]
    obtain ⟨hemit, hrest⟩ := drain_spec acc.touched acc.dense
    refine ⟨⟨?_, rfl, hmode⟩, congrArg (out ++ ·) hemit⟩
    intro c
    show (drain acc.touched acc.dense).2.getD c 0 = 0
    rw [hrest]
    by_cases hc : c ∈ acc.touched
    · rw [if_pos hc]
    · rw [if_neg hc]
      exact htracked c hc
  · rw [if_neg hd] at hmode ⊢
    rw [if_neg (show ¬ acc.asFresh.useDense = true from hd)]
    have hdense : ∀ c, acc.dense.getD c 0 = 0 := fun c => htracked c (by
      show c ∉ acc.touched
      rw [hmode]
      exact List.not_mem_nil)
    rw [show acc.asFresh.pairs = acc.pairs from rfl]
    cases hsort : acc.pairs.mergeSort fun p q => decide (p.1 ≤ q.1) with
    | nil =>
      have hperm := List.mergeSort_perm acc.pairs fun p q => decide (p.1 ≤ q.1)
      rw [hsort] at hperm
      exact ⟨⟨hdense, hmode, hperm.symm.eq_nil⟩, (List.append_nil out).symm⟩
    | cons p pairs => exact ⟨⟨hdense, hmode, rfl⟩, rfl⟩

end ReusedAccumulator

/-! ## Rounds -/

/-- What a flush writes in a round: after the entries it is handed, every column whose contributions do
not cancel, once, with their sum. -/
structure AccumulatorRound.Sums (round : AccumulatorRound) (output : List (Nat × ℚ)) : Prop where
  appends : round.out <+: output
  nodup : ((output.drop round.out.length).map (·.1)).Nodup
  mem_iff : ∀ e, e ∈ output.drop round.out.length ↔
    e.2 = Form.coefficient round.adds e.1 ∧ e.2 ≠ 0

/-- **One round on a clean accumulator sums every column and leaves a clean one.** -/
theorem AccumulatorRound.run_spec (round : AccumulatorRound) {acc : ReusedAccumulator} (h : acc.Clean) :
    (round.run acc).1.Clean ∧ round.Sums (round.run acc).2 := by
  obtain ⟨useDense, hbegin, hlen⟩ := ReusedAccumulator.begin_asFresh h round.mode
  have hholds : ∀ e ∈ round.adds, (acc.begin round.mode).Holds e.1 := by
    intro e he hd
    cases hmode : round.mode with
    | dense totalVars =>
      rw [hmode] at hlen
      exact lt_of_lt_of_le (round.adds_lt totalVars hmode e he) (hlen totalVars rfl)
    | sparse expectedSize =>
      rw [hmode] at hd
      cases hd
  have hfold := ReusedAccumulator.foldl_add_asFresh round.adds hholds
  rw [hbegin] at hfold
  obtain ⟨htracked, hmode⟩ := SparseCoeffAccumulator.foldl_add_tracked useDense round.adds
  rw [← hfold] at htracked hmode
  obtain ⟨hclean, hout⟩ := ReusedAccumulator.flush_spec htracked hmode round.out
  refine ⟨hclean, ?_⟩
  have hemit : (round.run acc).2.drop round.out.length =
      (round.adds.foldl (fun acc e => acc.add e.1 e.2) ({ useDense } : SparseCoeffAccumulator)).flush := by
    show (ReusedAccumulator.flush _ _).2.drop _ = _
    rw [hout, List.drop_left, hfold]
  obtain ⟨hnodup, hne⟩ := SparseCoeffAccumulator.flush_nodup
    (round.adds.foldl (fun acc e => acc.add e.1 e.2) ({ useDense } : SparseCoeffAccumulator))
  refine ⟨?_, ?_, ?_⟩
  · show _ <+: (ReusedAccumulator.flush _ _).2
    rw [hout]
    exact List.prefix_append _ _
  · rw [hemit]
    exact hnodup
  · intro e
    rw [hemit, Form.mem_iff_coefficient hnodup hne,
      SparseCoeffAccumulator.coefficient_accumulated]

theorem runRounds_spec (rounds : List AccumulatorRound) : ∀ {acc : ReusedAccumulator}, acc.Clean →
    (runRounds acc rounds).1.Clean ∧ List.Forall₂ AccumulatorRound.Sums rounds (runRounds acc rounds).2 := by
  induction rounds with
  | nil =>
    intro acc h
    exact ⟨h, List.Forall₂.nil⟩
  | cons round rounds ih =>
    intro acc h
    obtain ⟨hclean, hsums⟩ := round.run_spec h
    obtain ⟨hfinal, hrest⟩ := ih hclean
    exact ⟨hfinal, List.Forall₂.cons hsums hrest⟩

/-- Two rounds with the same contributions emit the same columns with the same sums. -/
theorem AccumulatorRound.Sums.perm {r₁ r₂ : AccumulatorRound} {o₁ o₂ : List (Nat × ℚ)}
    (h₁ : r₁.Sums o₁) (h₂ : r₂.Sums o₂) (hadds : ∀ c, Form.coefficient r₁.adds c = Form.coefficient r₂.adds c) :
    (o₁.drop r₁.out.length).Perm (o₂.drop r₂.out.length) := by
  refine (List.perm_ext_iff_of_nodup h₁.nodup.of_map h₂.nodup.of_map).mpr fun e => ?_
  rw [h₁.mem_iff, h₂.mem_iff, hadds]

/-- **Whatever rounds came before, every flush emits the sums of its own round**, in either mode the same
ones, and what is left after the last is as good as new. -/
theorem runRounds_sums (rounds : List AccumulatorRound) :
    (runRounds {} rounds).1.Clean ∧
      List.Forall₂ AccumulatorRound.Sums rounds (runRounds {} rounds).2 ∧
      ∀ (i j : Nat) (r₁ r₂ : AccumulatorRound) (o₁ o₂ : List (Nat × ℚ)), rounds[i]? = some r₁ → rounds[j]? = some r₂ →
        (runRounds {} rounds).2[i]? = some o₁ → (runRounds {} rounds).2[j]? = some o₂ →
        r₁.adds = r₂.adds → (o₁.drop r₁.out.length).Perm (o₂.drop r₂.out.length) := by
  obtain ⟨hclean, hsums⟩ := runRounds_spec rounds
    (show (({} : ReusedAccumulator)).Clean from ⟨fun c => rfl, rfl, rfl⟩)
  refine ⟨hclean, hsums, ?_⟩
  intro i j r₁ r₂ o₁ o₂ hr₁ hr₂ ho₁ ho₂ hadds
  have hat : ∀ (i : Nat) (r : AccumulatorRound) (o : List (Nat × ℚ)), rounds[i]? = some r → (runRounds {} rounds).2[i]? = some o → r.Sums o := by
    intro i r o hr ho
    obtain ⟨hi, rfl⟩ := List.getElem?_eq_some_iff.mp hr
    obtain ⟨hi', rfl⟩ := List.getElem?_eq_some_iff.mp ho
    exact List.Forall₂.get hsums hi hi'
  exact (hat i r₁ o₁ hr₁ ho₁).perm (hat j r₂ o₂ hr₂ ho₂) fun c => by rw [hadds]

end Decidb
