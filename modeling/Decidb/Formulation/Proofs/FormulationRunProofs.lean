import Decidb.Formulation.Proofs.BilinearProofs
import Decidb.Formulation.Proofs.ObjectiveListingProofs

/-!
# Every run of the passes

One step lemma for a pass, and from it by induction what a run of passes leaves: a global block that
lists its columns once just when every pass was clean where it ran.
-/

namespace Decidb

open Linear SolverInput

variable {ctx : FormulationContext} {s t : FormulationState}

/-! ## Columns of declared variables -/

namespace FormulationContext

theorem get_eq (ctx : FormulationContext) {v r : Nat} (hv : v < ctx.layout.numVars)
    (hr : r < ctx.layout.numRows) :
    ctx.indexer.get v r = ctx.layout.instanceColumn v (ctx.layout.rowInstance v r) := by
  unfold indexer
  rw [ColumnLayout.indexer_get ctx.numVars_pos hv]
  exact (ColumnLayout.get_eq_instanceColumn hv hr).2

/-- A column says which variable it is one of. -/
theorem ownerOf_get (ctx : FormulationContext) {v r : Nat} (hv : v < ctx.layout.numVars)
    (hr : r < ctx.layout.numRows) : ctx.layout.ownerOf (ctx.indexer.get v r) = some v := by
  rw [ctx.get_eq hv hr]
  exact ColumnLayout.ownerOf_instanceColumn (ColumnLayout.get_eq_instanceColumn hv hr).1

theorem separatesVariables (ctx : FormulationContext) :
    SeparatesVariables ctx.indexer ctx.layout.numVars := by
  intro v w r hv hw hr heq
  have hv' := ctx.ownerOf_get hv hr
  have hw' := ctx.ownerOf_get hw hr
  rw [heq] at hv'
  exact Option.some.inj (hv'.symm.trans hw')

/-- Like terms are collected before the formulation, so a per-row constraint reads distinct variables, and
its rows distinct columns. -/
theorem distinctColumns (ctx : FormulationContext) {terms : List LhsTerm} {r : Nat}
    (hr : r < ctx.layout.numRows) (hnodup : (terms.filterMap (·.variableIndex)).Nodup)
    (hterms : TermsBelow ctx.layout.numVars terms) : DistinctColumns ctx.indexer terms r := by
  unfold DistinctColumns
  induction terms with
  | nil => exact List.nodup_nil
  | cons t terms ih =>
    have htail : TermsBelow ctx.layout.numVars terms := fun u hu => hterms u (List.mem_cons_of_mem _ hu)
    cases hv : t.variableIndex with
    | none =>
      rw [List.filterMap_cons_none hv] at hnodup
      rw [List.filterMap_cons_none (by rw [hv, Option.map_none, ite_self])]
      exact ih hnodup htail
    | some v =>
      rw [List.filterMap_cons_some hv, List.nodup_cons] at hnodup
      have hrest := ih hnodup.2 htail
      by_cases h0 : t.rowCoefficients r = 0
      · rw [List.filterMap_cons_none (by rw [if_pos h0])]
        exact hrest
      · rw [List.filterMap_cons_some (b := ctx.indexer.get v r) (by rw [if_neg h0, hv]; rfl)]
        refine List.nodup_cons.mpr ⟨fun hmem => hnodup.1 ?_, hrest⟩
        obtain ⟨u, hu, hcol⟩ := List.mem_filterMap.mp hmem
        split at hcol
        · cases hcol
        · obtain ⟨w, hw, hcol⟩ := Option.map_eq_some_iff.mp hcol
          rw [← ctx.separatesVariables w v r (htail u hu w hw) (hterms t List.mem_cons_self v hv) hr hcol]
          exact List.mem_filterMap.mpr ⟨u, hu, hw⟩

end FormulationContext

/-! ## Passes that leave the global block alone -/

theorem TermsBelow.append {n : Nat} {terms terms' : List LhsTerm} (h : TermsBelow n terms)
    (h' : TermsBelow n terms') : TermsBelow n (terms ++ terms') := by
  intro t ht
  rcases List.mem_append.mp ht with ht | ht
  · exact h t ht
  · exact h' t ht

theorem termsBelow_scalarTerm {n v : Nat} (h : v < n) (c : ℚ) : TermsBelow n [scalarTerm v c] := by
  intro t ht w hw
  obtain rfl := List.mem_singleton.mp ht
  obtain rfl := Option.some.inj hw
  exact h

/-- A derived bound replaces one coefficient. -/
theorem termsBelow_fillAutoBound {varNames : List String} {box : FormulationBox} {numRows n : Nat}
    {ec ec' : EvaluatedConstraint} (h : fillAutoBound varNames box numRows ec = .ok ec') :
    TermsBelow n ec.lhsTerms → TermsBelow n ec'.lhsTerms := by
  intro hec
  unfold fillAutoBound at h
  split at h
  · split at h
    · cases h
    · obtain rfl := Except.ok.inj h
      intro u hu
      obtain ⟨i, hi, rfl⟩ := List.getElem_of_mem hu
      intro v hv
      have hi' : i < ec.lhsTerms.length := by
        have : i < (ec.lhsTerms.modify _ _).length := hi
        rwa [List.length_modify] at this
      refine hec ec.lhsTerms[i] (List.getElem_mem hi') v ?_
      rw [← hv]
      simp only [EvaluatedConstraint.setCoefficient, List.getElem_modify]
      split <;> rfl
  · obtain rfl := Except.ok.inj h
    exact hec

theorem readsBelow_fillAutoBounds {varNames : List String} {box : FormulationBox} {numRows n : Nat}
    {constraints out : List EvaluatedConstraint}
    (h : fillAutoBounds varNames box numRows constraints = .ok out)
    (hreads : ∀ ec ∈ constraints, TermsBelow n ec.lhsTerms) :
    ∀ ec ∈ out, TermsBelow n ec.lhsTerms := by
  unfold fillAutoBounds at h
  have h₂ := Relational.forall₂_of_mapM h
  clear h
  induction h₂ with
  | nil => simp
  | cons hab _ ih =>
    rw [List.forall_mem_cons] at hreads ⊢
    exact ⟨termsBelow_fillAutoBound hab hreads.1, ih hreads.2⟩

theorem sameBlock_setBox (input : SolverInput) (v : Nat) (lo hi : ℚ) :
    SameBlock input (input.setBox v lo hi) := ⟨rfl, rfl, rfl, rfl, rfl⟩

theorem sameBlock_narrowUpper (input : SolverInput) (v : Nat) (M : ℚ) :
    SameBlock input (input.narrowUpper v M) := by
  unfold narrowUpper
  split
  · exact ⟨rfl, rfl, rfl, rfl, rfl⟩
  · exact .refl _

/-- Exposing the boxes of the products touches boxes only. -/
theorem deriveBilinear_sameBlock {input out : SolverInput} {varNames : List String}
    {links : List BilinearLinkSpec}
    (h : links.foldlM (fun input link =>
      deriveBilinearAuxiliaryBound input.formulationBox varNames input link) input = .ok out) :
    SameBlock input out ∧ out.constraints = input.constraints := by
  have hstep : ∀ (s t : SolverInput) link,
      deriveBilinearAuxiliaryBound s.formulationBox varNames s link = .ok t →
        SameBlock s t ∧ t.constraints = s.constraints := by
    intro s t link h
    unfold deriveBilinearAuxiliaryBound at h
    dsimp only at h
    split at h
    · cases h
    · obtain rfl := Except.ok.inj h
      exact ⟨sameBlock_setBox _ _ _ _, rfl⟩
  refine Relational.foldlM_keeps
    (P := fun t => SameBlock input t ∧ t.constraints = input.constraints)
    (fun link _ s t hs hst => ?_) ⟨.refl _, rfl⟩ h
  obtain ⟨hblock, hsame⟩ := hstep s t link hst
  exact ⟨hs.1.trans hblock, hsame.trans hs.2⟩

/-- Deriving the ranges of the ABS links touches boxes only, and keeps what the links read. -/
theorem deriveAbs_sameBlock {input : SolverInput} {varNames : List String} {refuse : Bool}
    {links : List AbsMaximizeLinkSpec} {out : SolverInput × List AbsMaximizeLinkSpec}
    (h : deriveAbsAuxiliaryBounds varNames refuse input links = .ok out) :
    SameBlock input out.1 ∧ out.1.constraints = input.constraints ∧
      ∀ link' ∈ out.2, ∃ link ∈ links, link'.auxIdx = link.auxIdx ∧ link'.yIdx = link.yIdx := by
  refine Relational.foldlM_keeps
    (P := fun out : SolverInput × List AbsMaximizeLinkSpec =>
      SameBlock input out.1 ∧ out.1.constraints = input.constraints ∧
        ∀ link' ∈ out.2, ∃ link ∈ links, link'.auxIdx = link.auxIdx ∧ link'.yIdx = link.yIdx)
    (fun link hlink s t hs hst => ?_) ⟨.refl _, rfl, by simp⟩ h
  obtain ⟨hblock, hsame, hlinks⟩ := hs
  obtain ⟨pair, reach, isOpen, -, -, hcase⟩ := deriveAbsAuxiliaryBound_ok hst
  rcases hcase with ⟨-, -, rfl⟩ | ⟨-, M, -, rfl⟩
  · refine ⟨hblock, hsame, fun link' hlink' => ?_⟩
    rcases List.mem_append.mp hlink' with hlink' | hlink'
    · exact hlinks link' hlink'
    · rw [List.mem_singleton.mp hlink']
      exact ⟨link, hlink, rfl, rfl⟩
  · refine ⟨hblock.trans (sameBlock_narrowUpper _ _ _), (narrowUpper_constraints).trans hsame,
      fun link' hlink' => ?_⟩
    rcases List.mem_append.mp hlink' with hlink' | hlink'
    · exact hlinks link' hlink'
    · rw [List.mem_singleton.mp hlink']
      exact ⟨link, hlink, rfl, rfl⟩

/-- The rows of the sign indicators read the auxiliaries, their indicators and what they read before. -/
theorem readsBelow_linearizeAbs {input : SolverInput} {links : List AbsMaximizeLinkSpec} {n : Nat}
    (hlinks : ∀ link ∈ links, ∀ y, link.yIdx = some y → y < n) (hreads : input.ReadsBelow n) :
    (linearizeAbsMaximize input links).ReadsBelow n := by
  intro ec hec
  rcases List.mem_append.mp hec with hec | hec
  · exact hreads ec hec
  · obtain ⟨link, hlink, hec⟩ := List.mem_flatMap.mp hec
    unfold linearizeAbsLink at hec
    split at hec
    · rename_i pair y hpair hy
      obtain ⟨hc1, hc2⟩ := absConstraintPair_mem hpair
      have hyn := hlinks link hlink y hy
      simp only [upperEnvelopeRows, List.mem_cons, List.not_mem_nil, or_false] at hec
      rcases hec with rfl | rfl
      · exact (hreads _ hc1).append (termsBelow_scalarTerm hyn _)
      · exact (hreads _ hc2).append (termsBelow_scalarTerm hyn _)
    · simp at hec

theorem termsBelow_mcCormickRows {box : FormulationBox} {link : BilinearLinkSpec} {n : Nat}
    (haux : link.auxIdx < n) (hbool : link.boolVarIdx < n) (hother : link.otherVarIdx < n) :
    ∀ ec ∈ mcCormickRows box link, TermsBelow n ec.lhsTerms := by
  have hcons : ∀ {v : Nat} {terms : List LhsTerm} (c : ℚ), v < n → TermsBelow n terms →
      TermsBelow n (scalarTerm v c :: terms) := fun c hv h => (termsBelow_scalarTerm hv c).append h
  have hnil : TermsBelow n [] := fun t ht => absurd ht List.not_mem_nil
  intro ec hec
  unfold mcCormickRows at hec
  dsimp only at hec
  split at hec
  · simp only [List.mem_cons, List.not_mem_nil, or_false] at hec
    rcases hec with rfl | rfl | rfl | rfl
    · exact hcons _ haux (hcons _ hbool hnil)
    · exact hcons _ haux (hcons _ hother (hcons _ hbool hnil))
    · exact hcons _ haux (hcons _ hother (hcons _ hbool hnil))
    · exact hcons _ haux (hcons _ hbool hnil)
  · simp only [List.mem_cons, List.not_mem_nil, or_false] at hec
    rcases hec with rfl | rfl | rfl
    · exact hcons _ haux (hcons _ hbool hnil)
    · exact hcons _ haux (hcons _ hother (hcons _ hbool hnil))
    · exact hcons _ haux (hcons _ hother hnil)

/-- The products restore their boxes and append their rows. -/
theorem linearizeBilinear_sameBlock {n : Nat} (declared input : SolverInput)
    {links : List BilinearLinkSpec} (hlinks : ∀ link ∈ links, link.auxIdx < n ∧ link.boolVarIdx < n ∧
      link.otherVarIdx < n) :
    let out := links.foldl (fun input link => linearizeBilinearLink input.formulationBox input link)
      (restoreDeclaredBoxes declared input links)
    SameBlock input out ∧ (input.ReadsBelow n → out.ReadsBelow n) := by
  have hrestore : SameBlock input (restoreDeclaredBoxes declared input links) ∧
      (restoreDeclaredBoxes declared input links).constraints = input.constraints := by
    unfold restoreDeclaredBoxes
    refine List.foldlRecOn links _
      (motive := fun t => SameBlock input t ∧ t.constraints = input.constraints) ⟨.refl _, rfl⟩
      fun t ht link _ => ⟨ht.1.trans (sameBlock_setBox _ _ _ _), ht.2⟩
  refine List.foldlRecOn links _
    (motive := fun t => SameBlock input t ∧ (input.ReadsBelow n → t.ReadsBelow n))
    ⟨hrestore.1, fun h => ?_⟩ fun t ht link hlink => ?_
  · unfold SolverInput.ReadsBelow
    rw [hrestore.2]
    exact h
  · obtain ⟨haux, hbool, hother⟩ := hlinks link hlink
    have hblock : SameBlock t (linearizeBilinearLink t.formulationBox t link) := by
      unfold linearizeBilinearLink
      dsimp only
      split <;> exact ⟨rfl, rfl, rfl, rfl, rfl⟩
    have hconstraints : (linearizeBilinearLink t.formulationBox t link).constraints =
        t.constraints ++ mcCormickRows t.formulationBox link := by
      unfold linearizeBilinearLink
      dsimp only
      split <;> rfl
    refine ⟨ht.1.trans hblock, fun h ec hec => ?_⟩
    rw [hconstraints] at hec
    rcases List.mem_append.mp hec with hec | hec
    · exact ht.2 h ec hec
    · exact termsBelow_mcCormickRows haux hbool hother ec hec

/-! ## One pass -/

/-- What every pass keeps. -/
structure FormulationState.Sound (ctx : FormulationContext) (s : FormulationState) : Prop where
  wellScoped : s.input.WellScoped ctx.indexer
  readsBelow : s.input.ReadsBelow ctx.layout.numVars
  links_lt : ∀ link ∈ s.absLinks, link.auxIdx < ctx.layout.numVars ∧
    ∀ y, link.yIdx = some y → y < ctx.layout.numVars

theorem FormulationState.Sound.step {C : Prop} (hs : s.Sound ctx)
    (h : Lists ctx.indexer ctx.layout.numVars s.input t.input C)
    (hlinks : t.absLinks = s.absLinks) :
    t.Sound ctx ∧ (t.input.Listed ↔ s.input.Listed ∧ C) :=
  ⟨⟨h.wellScoped, h.readsBelow hs.readsBelow, by rw [hlinks]; exact hs.links_lt⟩, h.listed_iff⟩

/-- **One pass**: its result is sound, and lists its columns once just when the pass was clean. -/
theorem FormulationPass.run_spec {p : FormulationPass} (hs : s.Sound ctx)
    (hrun : p.run ctx s = .ok t) :
    t.Sound ctx ∧ (t.input.Listed ↔ s.input.Listed ∧ p.Clean ctx s) := by
  unfold FormulationPass.run at hrun
  cases p with
  | fillAutoBounds =>
    dsimp only at hrun
    split at hrun
    · cases hrun
    rename_i constraints hfill
    obtain rfl := Except.ok.inj hrun
    have hblock : SameBlock s.input { s.input with constraints } := ⟨rfl, rfl, rfl, rfl, rfl⟩
    exact hs.step (hblock.lists hs.wellScoped (readsBelow_fillAutoBounds hfill)) rfl
  | deriveBilinearAuxiliaryBounds =>
    dsimp only at hrun
    split at hrun
    · cases hrun
    rename_i input hderive
    obtain rfl := Except.ok.inj hrun
    obtain ⟨hblock, hsame⟩ := deriveBilinear_sameBlock hderive
    refine hs.step (hblock.lists hs.wellScoped fun h => ?_) rfl
    unfold SolverInput.ReadsBelow
    rw [hsame]
    exact h
  | deriveAbsAuxiliaryBounds =>
    dsimp only at hrun
    split at hrun
    · cases hrun
    rename_i out hderive
    obtain rfl := Except.ok.inj hrun
    obtain ⟨hblock, hsame, hlinks⟩ := deriveAbs_sameBlock hderive
    have hlists := hblock.lists (n := ctx.layout.numVars) hs.wellScoped fun h => by
      unfold SolverInput.ReadsBelow
      rw [hsame]
      exact h
    refine ⟨⟨hlists.wellScoped, hlists.readsBelow hs.readsBelow, fun link' hlink' => ?_⟩,
      hlists.listed_iff⟩
    obtain ⟨link, hlink, haux, hy⟩ := hlinks link' hlink'
    rw [haux, hy]
    exact hs.links_lt link hlink
  | encodeAbs =>
    obtain rfl := Except.ok.inj hrun
    refine hs.step (C := ctx.nativeAbs = true → ∀ link ∈ s.absLinks,
      NativeAbsClean ctx.indexer s.input link) ?_ rfl
    dsimp only
    cases hnative : ctx.nativeAbs with
    | true =>
      rw [if_pos rfl]
      exact ((emits_nativeAbs ctx.separatesVariables hs.readsBelow
        (fun link hlink => (hs.links_lt link hlink).1) hs.wellScoped).congr
          ⟨fun h _ => h, fun h => h rfl⟩).lists
    | false =>
      rw [if_neg (by simp)]
      have hblock : SameBlock s.input (linearizeAbsMaximize s.input s.absLinks) :=
        ⟨rfl, rfl, rfl, rfl, rfl⟩
      have hlists := hblock.lists (n := ctx.layout.numVars) hs.wellScoped
        (readsBelow_linearizeAbs fun link hlink => (hs.links_lt link hlink).2)
      exact ⟨hlists.wellScoped, by rw [hlists.listed_iff]; simp, hlists.readsBelow⟩
  | linearizeMinMaxConstraints =>
    dsimp only at hrun
    split at hrun
    · cases hrun
    rename_i input hpass
    obtain rfl := Except.ok.inj hrun
    exact hs.step (lists_minMaxConstraints hs.wellScoped hpass) rfl
  | linearizeNotEqual =>
    dsimp only at hrun
    split at hrun
    · cases hrun
    rename_i input hpass
    obtain rfl := Except.ok.inj hrun
    exact hs.step (lists_notEqual hs.wellScoped hpass) rfl
  | linearizeBilinear =>
    obtain rfl := Except.ok.inj hrun
    obtain ⟨hblock, hreads⟩ := linearizeBilinear_sameBlock s.declared s.input ctx.products_lt
    exact hs.step (hblock.lists hs.wellScoped hreads) rfl
  | linearizeMinMaxObjective spec groups =>
    dsimp only at hrun
    split at hrun
    · cases hrun
    rename_i out hpass
    obtain rfl := Except.ok.inj hrun
    exact hs.step (emits_minMaxObjective hs.wellScoped hpass).lists rfl
  | linearizeComposedMinMaxConstraint clause =>
    dsimp only at hrun
    split at hrun
    · cases hrun
    rename_i input hpass
    obtain rfl := Except.ok.inj hrun
    exact hs.step (emits_composedConstraint hs.wellScoped hpass).lists rfl
  | linearizeComposedMinMaxObjective terms =>
    dsimp only at hrun
    split at hrun
    · cases hrun
    rename_i out hpass
    obtain rfl := Except.ok.inj hrun
    exact hs.step (emits_composedObjective hs.wellScoped hpass).lists rfl
  | lowerDecideConstructs =>
    dsimp only at hrun
    split at hrun
    · cases hrun
    rename_i input hpass
    obtain rfl := Except.ok.inj hrun
    exact hs.step (lists_lowerConstructs hs.wellScoped hpass) rfl

/-! ## A run of passes -/

/-- **A run**, by induction on its passes. -/
theorem runPasses_spec (ps : List FormulationPass) : ∀ {s : FormulationState}, s.Sound ctx →
    runPasses ctx s ps = .ok t →
      t.Sound ctx ∧ (t.input.Listed ↔ s.input.Listed ∧ CleanRun ctx s ps) := by
  induction ps with
  | nil =>
    intro s hs hrun
    obtain rfl : s = t := Except.ok.inj hrun
    exact ⟨hs, by simp [CleanRun]⟩
  | cons p ps ih =>
    intro s hs hrun
    unfold runPasses at hrun
    cases hp : p.run ctx s with
    | error e =>
      rw [hp] at hrun
      cases hrun
    | ok u =>
      rw [hp] at hrun
      obtain ⟨hu, hstep⟩ := p.run_spec hs hp
      obtain ⟨ht, hrest⟩ := ih hu hrun
      refine ⟨ht, ?_⟩
      rw [hrest, hstep, and_assoc]
      show _ ↔ _ ∧ p.Clean ctx s ∧ ∀ s', p.run ctx s = .ok s' → CleanRun ctx s' ps
      refine and_congr_right fun _ => and_congr_right fun _ => ?_
      constructor
      · intro h s' hs'
        obtain rfl := Except.ok.inj (hp.symm.trans hs')
        exact h
      · exact fun h => h u hp

/-- The input before the passes. -/
theorem FormulationState.Assembled.sound (h : s.Assembled ctx) : s.Sound ctx where
  wellScoped := ⟨h.numRows_eq, by simp [h.rows], by simp [h.generals], by simp [h.indicators]⟩
  readsBelow := h.terms_lt
  links_lt := h.links_lt

theorem FormulationState.Assembled.listed (h : s.Assembled ctx) : s.input.Listed :=
  ⟨by simp [h.rows], by simp [h.generals], by simp [h.indicators]⟩

/-- **The formulation**: the global block lists its columns once just when every pass was clean. -/
theorem formulateModel_spec {evaluated : EvaluatedClauses} (hs : s.Assembled ctx)
    (hrun : formulateModel ctx evaluated s = .ok t) :
    t.Sound ctx ∧ (t.input.Listed ↔ CleanRun ctx s (formulationPasses evaluated)) := by
  obtain ⟨ht, hlisted⟩ := runPasses_spec (formulationPasses evaluated) hs.sound hrun
  exact ⟨ht, by rw [hlisted, and_iff_right hs.listed]⟩

end Decidb
