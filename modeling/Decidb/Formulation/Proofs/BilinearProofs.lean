import Decidb.Formulation.Proofs.BoundAbsorptionProofs
import Decidb.Formulation.Proofs.ImpliedBoundsProofs

/-!
# Product auxiliaries hold the product

The McCormick rows with the declared box pin the auxiliary to the product, and the absorbed
comparisons on the product survive in that box, except where the box is widened for a factor that can
be negative, where it reaches below a factor that cannot, and where a strict bound is fractional.
-/

namespace Decidb

open Linear

/-! ## The rows -/

/-- The rows of a product hold at the values `y` of the variables of a row. -/
def ProductRowsHold (box : FormulationBox) (link : BilinearLinkSpec) (row : Nat) (y : Nat → ℚ) :
    Prop :=
  ∀ ec ∈ mcCormickRows box link, ec.comparisonType.Holds (rowValue ec.lhsTerms row y)
    (ec.rhsValues row)

/-- **The McCormick rows pin the product** when the other factor can be negative or is switched on;
a factor that cannot be negative leaves room below zero when it is switched off. -/
theorem productRowsHold_iff (box : FormulationBox) (link : BilinearLinkSpec) (row : Nat)
    (y : Nat → ℚ) {L U : ℚ} (hL : box.lower.getD link.otherVarIdx 0 = L)
    (hU : box.upper.getD link.otherVarIdx 0 = U) (hlo : L ≤ y link.otherVarIdx)
    (hhi : y link.otherVarIdx ≤ U) (hb : y link.boolVarIdx = 0 ∨ y link.boolVarIdx = 1) :
    ProductRowsHold box link row y ↔
      if L < 0 ∨ y link.boolVarIdx = 1 then
        y link.auxIdx = y link.boolVarIdx * y link.otherVarIdx
      else y link.otherVarIdx - U ≤ y link.auxIdx ∧ y link.auxIdx ≤ 0 := by
  unfold ProductRowsHold mcCormickRows
  simp only [hL, hU]
  by_cases hneg : L < 0
  · simp only [hneg, if_true, true_or, List.forall_mem_cons, List.not_mem_nil, false_implies,
      implies_true, and_true, rowValue, rowVariablePart, decideRowFixedLhsOffset, scalarTerm,
      List.map_cons, List.map_nil, List.sum_cons, List.sum_nil, Option.isNone_some,
      Bool.false_eq_true, not_false_eq_true, List.filter_cons_of_neg, List.filter_nil,
      Comparison.holds_le, Comparison.holds_ge, Bound.fin_le_fin]
    rcases hb with hb | hb <;> rw [hb]
    · constructor
      · rintro ⟨h1, h2, h3, h4⟩
        linarith
      · intro h
        refine ⟨?_, ?_, ?_, ?_⟩ <;> linarith
    · constructor
      · rintro ⟨h1, h2, h3, h4⟩
        linarith
      · intro h
        refine ⟨?_, ?_, ?_, ?_⟩ <;> linarith
  · simp only [hneg, if_false, false_or, List.forall_mem_cons, List.not_mem_nil, false_implies,
      implies_true, and_true, rowValue, rowVariablePart, decideRowFixedLhsOffset, scalarTerm,
      List.map_cons, List.map_nil, List.sum_cons, List.sum_nil, Option.isNone_some,
      Bool.false_eq_true, not_false_eq_true, List.filter_cons_of_neg, List.filter_nil,
      Comparison.holds_le, Comparison.holds_ge, Bound.fin_le_fin]
    rcases hb with hb | hb <;> rw [hb]
    · rw [if_neg (by norm_num)]
      constructor
      · rintro ⟨h1, h2, h3⟩
        constructor <;> linarith
      · rintro ⟨h1, h2⟩
        refine ⟨?_, ?_, ?_⟩ <;> linarith
    · rw [if_pos rfl]
      constructor
      · rintro ⟨h1, h2, h3⟩
        linarith
      · intro h
        refine ⟨?_, ?_, ?_⟩ <;> linarith

/-- The rows of a product are linear, per row and without strict comparisons. -/
theorem mcCormickRows_plain (box : FormulationBox) (link : BilinearLinkSpec) :
    ∀ ec ∈ mcCormickRows box link, ec.bilinearTerms = [] ∧ ec.quadraticGroups = [] ∧
      ec.lhsIsAggregate = false ∧
        (ec.comparisonType = .le ∨ ec.comparisonType = .ge ∨ ec.comparisonType = .eq) := by
  intro ec hec
  unfold mcCormickRows at hec
  simp only at hec
  split at hec
  · simp only [List.mem_cons, List.not_mem_nil, or_false] at hec
    rcases hec with rfl | rfl | rfl | rfl <;> simp
  · simp only [List.mem_cons, List.not_mem_nil, or_false] at hec
    rcases hec with rfl | rfl | rfl <;> simp

/-! ## The declared box -/

/-- What the products do not touch. -/
structure SameShape (s t : SolverInput) : Prop where
  types_eq : s.variableTypes = t.variableTypes
  lower_length : s.lowerBounds.length = t.lowerBounds.length
  upper_length : s.upperBounds.length = t.upperBounds.length
  numRows_eq : s.numRows = t.numRows

theorem SameShape.refl (s : SolverInput) : SameShape s s := ⟨rfl, rfl, rfl, rfl⟩

theorem SameShape.trans {s t u : SolverInput} (h : SameShape s t) (h' : SameShape t u) :
    SameShape s u :=
  ⟨h.types_eq.trans h'.types_eq, h.lower_length.trans h'.lower_length,
    h.upper_length.trans h'.upper_length, h.numRows_eq.trans h'.numRows_eq⟩

theorem setBox_sameShape (s : SolverInput) (v : Nat) (lo hi : ℚ) : SameShape (s.setBox v lo hi) s :=
  ⟨rfl, by simp [SolverInput.setBox], by simp [SolverInput.setBox], rfl⟩

/-- Exposing the exact boxes changes boxes only. -/
theorem deriveBilinear_spec {box : FormulationBox} {names : List String}
    (links : List BilinearLinkSpec) : ∀ {input out : SolverInput},
    deriveBilinearAuxiliaryBounds input box links names = .ok out →
      SameShape out input ∧ out.constraints = input.constraints ∧
        (∀ v, v ∉ links.map (·.auxIdx) → out.lowerBounds.getD v 0 = input.lowerBounds.getD v 0 ∧
          out.upperBounds.getD v 0 = input.upperBounds.getD v 0) ∧
        ∀ link ∈ links, box.upper.getD link.otherVarIdx 0 < solverInfinity := by
  unfold deriveBilinearAuxiliaryBounds
  induction links with
  | nil =>
    intro input out h
    obtain rfl : input = out := Except.ok.inj h
    exact ⟨.refl _, rfl, fun _ _ => ⟨rfl, rfl⟩, by simp⟩
  | cons link links ih =>
    intro input out h
    rw [List.foldlM_cons] at h
    cases hd : deriveBilinearAuxiliaryBound box names input link with
    | error e => rw [hd] at h; cases h
    | ok mid =>
      rw [hd] at h
      obtain ⟨hshape, hcons, hother, hfin⟩ := ih h
      unfold deriveBilinearAuxiliaryBound at hd
      simp only at hd
      split at hd
      · cases hd
      rename_i hlt
      obtain rfl := Except.ok.inj hd
      refine ⟨hshape.trans (setBox_sameShape _ _ _ _), hcons, fun v hv => ?_, fun l hl => ?_⟩
      · rw [List.map_cons, List.mem_cons, not_or] at hv
        obtain ⟨h1, h2⟩ := hother v hv.2
        rw [h1, h2]
        exact ⟨getD_set_ne _ _ (Ne.symm hv.1), getD_set_ne _ _ (Ne.symm hv.1)⟩
      · rcases List.mem_cons.mp hl with rfl | hl
        · exact not_le.mp hlt
        · exact hfin l hl

/-- Products over factors with finite upper ends are not refused. -/
theorem exists_deriveBilinear {box : FormulationBox} {links : List BilinearLinkSpec}
    (names : List String)
    (h : ∀ link ∈ links, box.upper.getD link.otherVarIdx 0 < solverInfinity) :
    ∀ input : SolverInput, ∃ out,
      deriveBilinearAuxiliaryBounds input box links names = .ok out := by
  unfold deriveBilinearAuxiliaryBounds
  induction links with
  | nil => exact fun input => ⟨input, rfl⟩
  | cons link links ih =>
    intro input
    obtain ⟨out, hout⟩ := ih (fun l hl => h l (List.mem_cons_of_mem _ hl))
      (input.setBox link.auxIdx (min 0 (box.lower.getD link.otherVarIdx 0))
        (max 0 (box.upper.getD link.otherVarIdx 0)))
    refine ⟨out, ?_⟩
    rw [List.foldlM_cons, deriveBilinearAuxiliaryBound]
    simp only [not_le.mpr (h link List.mem_cons_self), if_false]
    exact hout

/-- Products over factors with finite upper ends are formulated. -/
theorem exists_formulateProducts {input : SolverInput} {links : List BilinearLinkSpec}
    (names : List String)
    (h : ∀ link ∈ links, input.upperBounds.getD link.otherVarIdx 0 < solverInfinity) :
    ∃ out, formulateProducts input links names = .ok out := by
  obtain ⟨exposed, hexposed⟩ := @exists_deriveBilinear
    ⟨input.lowerBounds, input.upperBounds⟩ _ names h input
  unfold formulateProducts
  simp only [hexposed]
  exact ⟨_, rfl⟩

/-- Restoring writes back the declared ends of every product, and nothing else. -/
theorem restoreDeclaredBoxes_spec (declared : SolverInput) (links : List BilinearLinkSpec) :
    ∀ input : SolverInput, SameShape input declared →
      (∀ v, v ∉ links.map (·.auxIdx) →
        input.lowerBounds.getD v 0 = declared.lowerBounds.getD v 0 ∧
          input.upperBounds.getD v 0 = declared.upperBounds.getD v 0) →
      let out := restoreDeclaredBoxes declared input links
      SameShape out declared ∧ out.constraints = input.constraints ∧
        ∀ v, out.lowerBounds.getD v 0 = declared.lowerBounds.getD v 0 ∧
          out.upperBounds.getD v 0 = declared.upperBounds.getD v 0 := by
  unfold restoreDeclaredBoxes
  induction links with
  | nil => intro input hshape hsame; exact ⟨hshape, rfl, fun v => hsame v (by simp)⟩
  | cons link links ih =>
    intro input hshape hsame
    rw [List.foldl_cons]
    refine ih _ ((setBox_sameShape _ _ _ _).trans hshape) fun v hv => ?_
    by_cases heq : link.auxIdx = v
    · subst heq
      exact ⟨getD_set_copy _ hshape.lower_length, getD_set_copy _ hshape.upper_length⟩
    · obtain ⟨hl, hu⟩ := hsame v (by simp [Ne.symm heq, hv])
      exact ⟨(getD_set_ne _ _ heq).trans hl, (getD_set_ne _ _ heq).trans hu⟩

/-- The McCormick pass appends the rows of every product, and lowers the box of a product whose
other factor can be negative. -/
theorem linearizeBilinear_spec (box : FormulationBox) (links : List BilinearLinkSpec) :
    (links.map (·.auxIdx)).Nodup → ∀ input : SolverInput,
      let out := linearizeBilinear input box links
      SameShape out input ∧ out.constraints = input.constraints ++ links.flatMap (mcCormickRows box) ∧
        out.upperBounds = input.upperBounds ∧
        (∀ v, v ∉ links.map (·.auxIdx) →
          out.lowerBounds.getD v 0 = input.lowerBounds.getD v 0) ∧
        ∀ link ∈ links, link.auxIdx < input.lowerBounds.length →
          out.lowerBounds.getD link.auxIdx 0 =
            if box.lower.getD link.otherVarIdx 0 < 0 then
              min (input.lowerBounds.getD link.auxIdx 0) (box.lower.getD link.otherVarIdx 0)
            else input.lowerBounds.getD link.auxIdx 0 := by
  unfold linearizeBilinear
  induction links with
  | nil => intro _ input; exact ⟨.refl _, by simp, rfl, fun _ _ => rfl, by simp⟩
  | cons link links ih =>
    intro hnodup input
    rw [List.map_cons, List.nodup_cons] at hnodup
    obtain ⟨hshape, hcons, hupper, hother, hown⟩ := ih hnodup.2 (linearizeBilinearLink box input link)
    have hstep : SameShape (linearizeBilinearLink box input link) input ∧
        (linearizeBilinearLink box input link).constraints =
          input.constraints ++ mcCormickRows box link ∧
        (linearizeBilinearLink box input link).upperBounds = input.upperBounds ∧
        (∀ v, link.auxIdx ≠ v → (linearizeBilinearLink box input link).lowerBounds.getD v 0 =
          input.lowerBounds.getD v 0) ∧
        (link.auxIdx < input.lowerBounds.length →
          (linearizeBilinearLink box input link).lowerBounds.getD link.auxIdx 0 =
            if box.lower.getD link.otherVarIdx 0 < 0 then
              min (input.lowerBounds.getD link.auxIdx 0) (box.lower.getD link.otherVarIdx 0)
            else input.lowerBounds.getD link.auxIdx 0) := by
      unfold linearizeBilinearLink
      by_cases hneg : box.lower.getD link.otherVarIdx 0 < 0
      · simp only [hneg, if_true]
        exact ⟨⟨rfl, by simp, rfl, rfl⟩, trivial, trivial, fun v hv => getD_set_ne _ _ hv,
          fun hlt => getD_set_self _ _ hlt⟩
      · simp only [hneg, if_false]
        exact ⟨⟨rfl, rfl, rfl, rfl⟩, trivial, trivial, fun _ _ => trivial, fun _ => trivial⟩
    obtain ⟨sshape, scons, supper, sother, sown⟩ := hstep
    rw [List.foldl_cons]
    refine ⟨hshape.trans sshape, ?_, hupper.trans supper, fun v hv => ?_, fun l hl hlt => ?_⟩
    · rw [hcons, scons, List.flatMap_cons, List.append_assoc]
    · rw [List.map_cons, List.mem_cons, not_or] at hv
      rw [hother v hv.2, sother v (Ne.symm hv.1)]
    · rcases List.mem_cons.mp hl with rfl | hl
      · rw [hother _ hnodup.1, sown hlt]
      · have hne : link.auxIdx ≠ l.auxIdx := fun heq =>
          hnodup.1 (heq ▸ List.mem_map_of_mem hl)
        rw [hown l hl (by rw [sshape.lower_length]; exact hlt), sother _ hne]

/-- **The declared ends of a product**: its own, lowered to the other factor's lower end when that
is negative. -/
theorem formulateProducts_spec {input out : SolverInput} {links : List BilinearLinkSpec}
    {names : List String} (hnodup : (links.map (·.auxIdx)).Nodup)
    (hok : formulateProducts input links names = .ok out) :
    SameShape out input ∧
      out.constraints = input.constraints ++
        links.flatMap (mcCormickRows ⟨input.lowerBounds, input.upperBounds⟩) ∧
      (∀ v, out.upperBounds.getD v 0 = input.upperBounds.getD v 0) ∧
      (∀ v, v ∉ links.map (·.auxIdx) →
        out.lowerBounds.getD v 0 = input.lowerBounds.getD v 0) ∧
      ∀ link ∈ links, link.auxIdx < input.lowerBounds.length →
        input.upperBounds.getD link.otherVarIdx 0 < solverInfinity ∧
        out.lowerBounds.getD link.auxIdx 0 =
          if input.lowerBounds.getD link.otherVarIdx 0 < 0 then
            min (input.lowerBounds.getD link.auxIdx 0) (input.lowerBounds.getD link.otherVarIdx 0)
          else input.lowerBounds.getD link.auxIdx 0 := by
  unfold formulateProducts at hok
  simp only at hok
  split at hok
  · cases hok
  rename_i exposed hexposed
  obtain rfl := Except.ok.inj hok
  obtain ⟨hshapeD, hconsD, hotherD, hfin⟩ := deriveBilinear_spec links hexposed
  obtain ⟨hshapeR, hconsR, hsameR⟩ := restoreDeclaredBoxes_spec input links exposed hshapeD hotherD
  obtain ⟨hshape, hcons, hupper, hother, hown⟩ :=
    linearizeBilinear_spec ⟨input.lowerBounds, input.upperBounds⟩ links hnodup
      (restoreDeclaredBoxes input exposed links)
  refine ⟨hshape.trans hshapeR, ?_, fun v => ?_, fun v hv => ?_, fun link hlink hlt => ?_⟩
  · rw [hcons, hconsR, hconsD]
  · rw [hupper]
    exact (hsameR v).2
  · rw [hother v hv]
    exact (hsameR v).1
  · refine ⟨hfin link hlink, ?_⟩
    rw [hown link hlink (by rw [hshapeR.lower_length]; exact hlt), (hsameR _).1]

/-! ## Products under absorbed comparisons -/

/-- The values the built column of a variable admits. -/
def BuiltAdmits (out : SolverInput) (v : Nat) (x : ℚ) : Prop :=
  ∃ box, builtColumnBox out v = .ok box ∧ box.Admits x

/-- Away from the open ends, a built column admits what lies between its ends. -/
theorem builtAdmits_iff {out : SolverInput} {v : Nat} {x : ℚ} {type : VarType}
    (htype : out.variableTypes[v]? = some type) (hbool : type ≠ .boolean)
    (hv : v < out.upperBounds.length)
    (hlo : out.lowerBounds.getD v 0 ≤ -solverInfinity → out.lowerBounds.getD v 0 ≤ x)
    (hhi : x < solverInfinity) :
    BuiltAdmits out v x ↔ out.lowerBounds.getD v 0 ≤ x ∧ x ≤ out.upperBounds.getD v 0 ∧
      (type ≠ .real → x.den = 1) := by
  have hup : out.upperBounds.getD v openBound = out.upperBounds.getD v 0 := by
    simp [List.getD, hv]
  have hopen : x ≤ openBound := hhi.le.trans (by norm_num [solverInfinity, openBound])
  unfold BuiltAdmits builtColumnBox
  simp only [htype, Option.some.injEq, hbool, if_false, hup]
  constructor
  · rintro ⟨box, hbox, hadm⟩
    split at hbox
    · cases hbox
    rename_i hle
    obtain rfl := Except.ok.inj hbox
    refine ⟨hadm.lower_le.elim hlo id, ?_, fun h => hadm.integral (by simpa using h)⟩
    rcases hadm.le_upper with h | h
    · exact (hhi.trans_le h).le.trans (min_le_right _ _)
    · exact h.trans (min_le_right _ _)
  · rintro ⟨h1, h2, h3⟩
    have hmin : x ≤ min openBound (out.upperBounds.getD v 0) := le_min hopen h2
    rw [if_neg (not_lt.mpr (h1.trans hmin))]
    exact ⟨_, rfl, Or.inr h1, Or.inr hmin, fun h => h3 (by simpa using h)⟩

/-- A query with products: the absorbed boxes, the constraints that stayed rows, and the links. -/
structure ProductQuery where
  numRows : Nat
  vars : List DecideVariable
  constraints : List EvaluatedConstraint
  links : List BilinearLinkSpec
  /-- Every product has an auxiliary of its own. -/
  aux_nodup : (links.map (·.auxIdx)).Nodup

/-- The input and the model of a query. -/
def ProductQuery.Formulated (q : ProductQuery) (input out : SolverInput) : Prop :=
  buildSolverInput q.numRows q.vars q.constraints = .ok input ∧
    formulateProducts input q.links (q.vars.map (·.name)) = .ok out

/-- A value of the auxiliary is accepted next to the values `y` of the other variables of a row. -/
def AcceptsProduct (input out : SolverInput) (link : BilinearLinkSpec) (row : Nat) (y : Nat → ℚ)
    (w : ℚ) : Prop :=
  BuiltAdmits out link.auxIdx w ∧
    ProductRowsHold ⟨input.lowerBounds, input.upperBounds⟩ link row
      (Function.update y link.auxIdx w)

/-- Where the absorbed comparisons on a product survive. -/
structure ProductKept (type : VarType) (cs : List (Comparison × ℚ)) (L U b x : ℚ) : Prop where
  /-- A strict comparison moved by one does not cut off a product that meets it. -/
  normalized : MeetsAbsorbed type cs (b * x) →
    (∀ u ∈ upperSides type cs, b * x ≤ u) ∧ (0 ≤ L → ∀ l ∈ lowerSides type cs, l ≤ b * x)
  /-- A factor that can be negative widens the box downwards: what is left above says it all. -/
  widened : L < 0 → (∀ u ∈ upperSides type cs, b * x ≤ u) → MeetsAbsorbed type cs (b * x)
  /-- A box that reaches below zero, for a factor that cannot be negative, holds no value below zero
  when the product is switched off. -/
  no_room : 0 ≤ L → b = 0 → Lowered type cs → ∀ w, w < 0 → x - U ≤ w →
    (type = .integer → w.den = 1) → (∀ l ∈ lowerSides type cs, l ≤ w) →
    ¬ ∀ u ∈ upperSides type cs, w ≤ u

/-- A kept product is met exactly by the sides that are left. -/
theorem ProductKept.sides_iff {type : VarType} {cs : List (Comparison × ℚ)} {L U b x : ℚ}
    (h : ProductKept type cs L U b x) :
    MeetsAbsorbed type cs (b * x) ↔
      (∀ u ∈ upperSides type cs, b * x ≤ u) ∧ (0 ≤ L → ∀ l ∈ lowerSides type cs, l ≤ b * x) := by
  refine ⟨h.normalized, fun ⟨hup, hlow⟩ => ?_⟩
  by_cases hneg : L < 0
  · exact h.widened hneg hup
  · exact meetsAbsorbed_of_sides hup (hlow (not_lt.mp hneg))

/-- Assembly resolves the absorbed boxes and lowers some upper ends. -/
theorem buildSolverInput_spec {numRows : Nat} {vars : List DecideVariable}
    {constraints : List EvaluatedConstraint} {input : SolverInput}
    (h : buildSolverInput numRows vars constraints = .ok input) :
    input.variableTypes = vars.map (·.type) ∧
      input.lowerBounds = vars.map (fun v => resolveLower v.box.lower) ∧
      input.upperBounds = decidePropagateImpliedBounds constraints input.lowerBounds
        (vars.map (·.box.upper)) numRows ∧
      input.constraints = constraints ∧ input.numRows = numRows := by
  unfold buildSolverInput at h
  split at h
  · cases h
  · obtain rfl := Except.ok.inj h
    exact ⟨rfl, rfl, rfl, rfl, rfl⟩

/-- A product under absorbed comparisons, with everything the model is built from around it. -/
structure ProductCase (q : ProductQuery) (input out : SolverInput) (link : BilinearLinkSpec)
    (type : VarType) (cs : List (Comparison × ℚ)) : Prop where
  formulated : q.Formulated input out
  mem_links : link ∈ q.links
  bool_ne : link.boolVarIdx ≠ link.auxIdx
  other_ne : link.otherVarIdx ≠ link.auxIdx
  /-- The auxiliary is declared over the domain of the other factor. -/
  declared : ∃ name, q.vars[link.auxIdx]? = some ⟨name, type, absorbBounds type cs⟩
  type_ne : type ≠ .boolean
  /-- What the query says of the product was absorbed; the rows are about other columns. -/
  rows : ∀ ec ∈ q.constraints, ∀ t ∈ ec.lhsTerms, t.variableIndex ≠ some link.auxIdx

/-- The declared box of the auxiliary and its McCormick rows, as conditions on a value. -/
theorem acceptsProduct_iff {q : ProductQuery} {input out : SolverInput} {link : BilinearLinkSpec}
    {type : VarType} {cs : List (Comparison × ℚ)} (hc : ProductCase q input out link type cs)
    (row : Nat) {y : Nat → ℚ} {L U b x : ℚ}
    (hL : L = input.lowerBounds.getD link.otherVarIdx 0)
    (hU : U = input.upperBounds.getD link.otherVarIdx 0)
    (hyb : y link.boolVarIdx = b) (hyx : y link.otherVarIdx = x)
    (hb : b = 0 ∨ b = 1) (hlo : L ≤ x) (hhi : x ≤ U) (w : ℚ) :
    AcceptsProduct input out link row y w ↔
      (if L < 0 ∨ b = 1 then w = b * x else x - U ≤ w ∧ w ≤ 0) ∧
        (0 ≤ L → if Lowered type cs then ∀ l ∈ lowerSides type cs, l ≤ w else 0 ≤ w) ∧
        (∀ u ∈ upperSides type cs, w ≤ u) ∧ (type ≠ .real → w.den = 1) := by
  obtain ⟨hbuild, hform⟩ := hc.formulated
  obtain ⟨htypes, hlowers, huppers, -, -⟩ := buildSolverInput_spec hbuild
  obtain ⟨hshape, -, hupper, -, hown⟩ := formulateProducts_spec q.aux_nodup hform
  obtain ⟨name, haux⟩ := hc.declared
  have hlen : link.auxIdx < q.vars.length := (List.getElem?_eq_some_iff.mp haux).1
  have hlenL : link.auxIdx < input.lowerBounds.length := by rw [hlowers]; simpa using hlen
  have hlenU : link.auxIdx < out.upperBounds.length := by
    rw [hshape.upper_length, huppers, propagate_length]
    simpa using hlen
  have htype : out.variableTypes[link.auxIdx]? = some type := by
    rw [hshape.types_eq, htypes]
    simp [haux]
  obtain ⟨hfin, hlower⟩ := hown link hc.mem_links hlenL
  rw [← hU] at hfin
  have hupper' : out.upperBounds.getD link.auxIdx 0 = (absorbBounds type cs).upper := by
    rw [hupper, huppers, propagate_unmentioned hc.rows]
    simp [List.getD, haux]
  have hseed : (AbsorbedBox.seed type).upper = openBound := by
    simp [AbsorbedBox.seed, hc.type_ne]
  have hlower' : input.lowerBounds.getD link.auxIdx 0 =
      resolveLower (absorbBounds type cs).lower := by
    rw [hlowers]
    simp [List.getD, haux]
  rw [← hL, hlower'] at hlower
  have hrows : ProductRowsHold ⟨input.lowerBounds, input.upperBounds⟩ link row
      (Function.update y link.auxIdx w) ↔
        if L < 0 ∨ b = 1 then w = b * x else x - U ≤ w ∧ w ≤ 0 := by
    have hyb' : Function.update y link.auxIdx w link.boolVarIdx = b := by
      rw [Function.update_of_ne hc.bool_ne, hyb]
    have hyx' : Function.update y link.auxIdx w link.otherVarIdx = x := by
      rw [Function.update_of_ne hc.other_ne, hyx]
    have h := productRowsHold_iff ⟨input.lowerBounds, input.upperBounds⟩ link row
      (Function.update y link.auxIdx w) hL.symm hU.symm (by rwa [hyx']) (by rwa [hyx'])
      (by rwa [hyb'])
    rwa [hyb', hyx', Function.update_self] at h
  unfold AcceptsProduct
  rw [hrows]
  by_cases hneg : L < 0
  · -- the widened box holds every product
    rw [if_pos hneg] at hlower
    simp only [hneg, true_or, if_true, not_le.mpr hneg, false_implies, true_and]
    rw [and_comm]
    refine and_congr_right fun hw => ?_
    have hlow : min (resolveLower (absorbBounds type cs).lower) L ≤ w := by
      refine (min_le_right _ _).trans ?_
      rcases hb with rfl | rfl <;> linarith
    have hhigh : w < solverInfinity := by
      rcases hb with rfl | rfl
      · rw [hw, zero_mul]
        norm_num [solverInfinity]
      · linarith
    rw [builtAdmits_iff htype hc.type_ne hlenU (fun _ => hlower ▸ hlow) hhigh, hlower, hupper',
      le_absorbed_upper, hseed]
    have hopen : w ≤ openBound := hhigh.le.trans (by norm_num [solverInfinity, openBound])
    exact ⟨fun h => ⟨h.2.1.2, h.2.2⟩, fun h => ⟨hlow, ⟨hopen, h.1⟩, h.2⟩⟩
  · have hpos : 0 ≤ L := not_lt.mp hneg
    rw [if_neg hneg] at hlower
    simp only [hneg, false_or, hpos, true_implies]
    rw [and_comm]
    refine and_congr_right fun hw => ?_
    have hw' : x - U ≤ w ∧ w ≤ U := by
      split at hw
      · rename_i hb1
        rw [hb1, one_mul] at hw
        constructor <;> linarith
      · constructor <;> linarith
    have hhigh : w < solverInfinity := hw'.2.trans_lt hfin
    have hopen : w ≤ openBound := hhigh.le.trans (by norm_num [solverInfinity, openBound])
    rw [builtAdmits_iff htype hc.type_ne hlenU (fun h => h.trans (by linarith)) hhigh, hlower,
      hupper', le_absorbed_upper, hseed, resolvedLower_le]
    exact ⟨fun h => ⟨h.1, h.2.1.2, h.2.2⟩, fun h => ⟨h.1, ⟨hopen, h.2.1⟩, h.2.2⟩⟩

/-- At a non-negative value the resolved lower end asks exactly what the absorbed ones do. -/
theorem lowerKept_iff (type : VarType) (cs : List (Comparison × ℚ)) {v : ℚ} (hv : 0 ≤ v) :
    (if Lowered type cs then ∀ l ∈ lowerSides type cs, l ≤ v else 0 ≤ v) ↔
      ∀ l ∈ lowerSides type cs, l ≤ v := by
  by_cases h : Lowered type cs
  · rw [if_pos h]
  · rw [if_neg h]
    refine ⟨fun _ l hl => ?_, fun _ => hv⟩
    have hle : l ≤ absorbedLowerUnset := not_lt.mp fun hlt => h ⟨l, hl, hlt⟩
    have hunset : absorbedLowerUnset ≤ 0 := by norm_num [absorbedLowerUnset]
    exact hle.trans (hunset.trans hv)

/-- **A product auxiliary is exact under absorbed comparisons iff its box keeps them.** -/
theorem product_exact_iff {q : ProductQuery} {input out : SolverInput} {link : BilinearLinkSpec}
    {type : VarType} {cs : List (Comparison × ℚ)} (hc : ProductCase q input out link type cs)
    (row : Nat) {y : Nat → ℚ} {L U b x : ℚ}
    (hL : L = input.lowerBounds.getD link.otherVarIdx 0)
    (hU : U = input.upperBounds.getD link.otherVarIdx 0)
    (hyb : y link.boolVarIdx = b) (hyx : y link.otherVarIdx = x)
    (hb : b = 0 ∨ b = 1) (hlo : L ≤ x) (hhi : x ≤ U) (hint : type ≠ .real → x.den = 1) :
    (∀ w, AcceptsProduct input out link row y w ↔
        w = b * x ∧ MeetsAbsorbed type cs (b * x)) ↔
      ProductKept type cs L U b x := by
  have hacc := acceptsProduct_iff hc row hL hU hyb hyx hb hlo hhi
  have hprod : type ≠ .real → (b * x).den = 1 := by
    intro h
    rcases hb with rfl | rfl
    · simp
    · simpa using hint h
  by_cases hneg : L < 0
  · have hnot : ¬ 0 ≤ L := not_le.mpr hneg
    have hone : ∀ w, AcceptsProduct input out link row y w ↔
        w = b * x ∧ ∀ u ∈ upperSides type cs, b * x ≤ u := by
      intro w
      rw [hacc w, if_pos (Or.inl hneg)]
      constructor
      · rintro ⟨rfl, -, hup, -⟩
        exact ⟨rfl, hup⟩
      · rintro ⟨rfl, hup⟩
        exact ⟨rfl, fun h => absurd h hnot, hup, hprod⟩
    constructor
    · intro h
      have hsides : MeetsAbsorbed type cs (b * x) ↔ ∀ u ∈ upperSides type cs, b * x ≤ u := by
        simpa using ((hone (b * x)).symm.trans (h (b * x))).symm
      exact ⟨fun hm => ⟨hsides.mp hm, fun h0 => absurd h0 hnot⟩, fun _ => hsides.mpr,
        fun h0 => absurd h0 hnot⟩
    · intro hkept w
      rw [hone w, hkept.sides_iff]
      simp [hnot]
  · have hpos : 0 ≤ L := not_lt.mp hneg
    have hv : 0 ≤ b * x := by
      have hx : 0 ≤ x := hpos.trans hlo
      rcases hb with rfl | rfl
      · rw [zero_mul]
      · rwa [one_mul]
    have hown : AcceptsProduct input out link row y (b * x) ↔
        (∀ u ∈ upperSides type cs, b * x ≤ u) ∧ (0 ≤ L → ∀ l ∈ lowerSides type cs, l ≤ b * x) := by
      rw [hacc (b * x), lowerKept_iff type cs hv]
      have hpin : if L < 0 ∨ b = 1 then b * x = b * x else x - U ≤ b * x ∧ b * x ≤ 0 := by
        rcases hb with rfl | rfl
        · rw [if_neg (by simp [hneg]), zero_mul]
          exact ⟨by linarith, le_rfl⟩
        · rw [if_pos (Or.inr rfl)]
      exact ⟨fun h => ⟨h.2.2.1, h.2.1⟩, fun h => ⟨hpin, h.2, h.1, hprod⟩⟩
    constructor
    · intro h
      refine ⟨fun hm => hown.mp ((h (b * x)).mpr ⟨rfl, hm⟩), fun h0 => absurd h0 hneg,
        fun _ hb0 hlow w hw hroom hden hl hu => ?_⟩
      have hacc' : AcceptsProduct input out link row y w := by
        rw [hacc w, if_neg (by simp [hneg, hb0]), if_pos hlow]
        refine ⟨⟨hroom, hw.le⟩, fun _ => hl, hu, fun hreal => ?_⟩
        cases htype : type with
        | boolean => exact absurd htype hc.type_ne
        | integer => exact hden htype
        | real => exact absurd htype hreal
      have heq := ((h w).mp hacc').1
      rw [hb0, zero_mul] at heq
      exact hw.ne heq
    · intro hkept w
      rw [hkept.sides_iff]
      constructor
      · intro hw
        have heq : w = b * x := by
          by_contra hne
          obtain ⟨hpin, hlow, hup, hden⟩ := (hacc w).mp hw
          rcases hb with rfl | rfl
          · rw [if_neg (by simp [hneg])] at hpin
            have hlt : w < 0 := lt_of_le_of_ne hpin.2 (by simpa using hne)
            specialize hlow hpos
            split at hlow
            · rename_i hlowered
              exact hkept.no_room hpos rfl hlowered w hlt hpin.1
                (fun h => hden (by simp [h])) hlow hup
            · exact absurd hlow (not_le.mpr hlt)
          · rw [if_pos (Or.inr rfl)] at hpin
            exact hne hpin
        exact ⟨heq, hown.mp (heq ▸ hw)⟩
      · rintro ⟨rfl, hsides⟩
        exact hown.mpr hsides

/-! ## A product bounded from below -/

/-- `b * x >= 3` over an INTEGER `x` between -5 and 10. -/
def boundedProduct : ProductQuery where
  numRows := 1
  vars := [⟨"b", .boolean, .seed .boolean⟩,
    ⟨"x", .integer, absorbBounds .integer [(.ge, -5), (.le, 10)]⟩,
    ⟨"__bilinear_aux_0__", .integer, absorbBounds .integer [(.ge, 3)]⟩]
  constraints := []
  links := [⟨2, 0, 1⟩]
  aux_nodup := by decide

theorem boundedProduct_formulated : ∃ input out, boundedProduct.Formulated input out ∧
    input.lowerBounds = [0, -5, 3] ∧ input.upperBounds = [1, 10, openBound] :=
  ⟨_, _, ⟨rfl, rfl⟩, rfl, rfl⟩

theorem boundedProduct_case {input out : SolverInput} (h : boundedProduct.Formulated input out) :
    ProductCase boundedProduct input out ⟨2, 0, 1⟩ .integer [(.ge, 3)] where
  formulated := h
  mem_links := by decide
  bool_ne := by decide
  other_ne := by decide
  declared := ⟨_, rfl⟩
  type_ne := by decide
  rows := by simp [boundedProduct]

theorem product_exact_iff_boundedProduct : ∃ input out, boundedProduct.Formulated input out ∧
    ((∀ w, AcceptsProduct input out ⟨2, 0, 1⟩ 0 (fun v => if v = 0 then 1 else -5) w ↔
        w = 1 * -5 ∧ MeetsAbsorbed .integer [(.ge, 3)] (1 * -5)) ↔
      ProductKept .integer [(.ge, 3)] (-5) 10 1 (-5)) := by
  obtain ⟨input, out, h, hlower, hupper⟩ := boundedProduct_formulated
  exact ⟨input, out, h, product_exact_iff (boundedProduct_case h) 0 (by simp [hlower])
    (by simp [hupper]) (by simp) (by simp) (by norm_num) (by norm_num) (by norm_num)
    (fun _ => by decide)⟩

/-- **The lower bound on a product is lost**: with `x = -5` the auxiliary holds -5, and the product
is not at least 3. -/
theorem boundedProduct_accepts_negative : ∃ input out, boundedProduct.Formulated input out ∧
    ∃ y : Nat → ℚ, (y 0 = 0 ∨ y 0 = 1) ∧ input.lowerBounds.getD 1 0 ≤ y 1 ∧
      y 1 ≤ input.upperBounds.getD 1 0 ∧ (∃ w, AcceptsProduct input out ⟨2, 0, 1⟩ 0 y w) ∧
      ¬ MeetsAbsorbed .integer [(.ge, 3)] (y 0 * y 1) := by
  obtain ⟨input, out, h, hlower, hupper⟩ := boundedProduct_formulated
  refine ⟨input, out, h, fun v => if v = 0 then 1 else -5, Or.inr rfl, by simp [hlower],
    by norm_num [hupper], ⟨-5, ?_⟩, fun hm => ?_⟩
  · refine (acceptsProduct_iff (boundedProduct_case h) 0 (L := -5) (U := 10) (b := 1) (x := -5)
      (by simp [hlower]) (by simp [hupper]) rfl rfl (Or.inr rfl) le_rfl (by norm_num) _).mpr ?_
    refine ⟨by norm_num, fun h0 => absurd h0 (by norm_num), ?_, fun _ => by decide⟩
    simp [upperSides, upperSide]
  · have h3 := hm (.ge, 3) (by simp) rfl
    norm_num at h3

end Decidb
