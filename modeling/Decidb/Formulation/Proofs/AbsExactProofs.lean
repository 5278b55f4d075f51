import Decidb.Formulation.Proofs.AbsLinkProofs

/-!
# ABS auxiliaries over the finished model

The ranges are derived while the products show their exact box; the declared boxes come back
afterwards. A product that holds the product of its factors stays within its exact box either way,
so what was derived early is right for the model that is built.
-/

namespace Decidb

open Linear SolverInput

/-- Every entry of the second list is related to one of the first. -/
theorem exists_left_of_forall₂ {α β : Type*} {R : α → β → Prop} {l : List α} {m : List β}
    (h : List.Forall₂ R l m) {b : β} (hb : b ∈ m) : ∃ a ∈ l, R a b := by
  induction h with
  | nil => cases hb
  | cons hab _ ih =>
    rcases List.mem_cons.mp hb with rfl | hb
    · exact ⟨_, List.mem_cons_self, hab⟩
    · obtain ⟨a, ha, hr⟩ := ih hb
      exact ⟨a, List.mem_cons_of_mem _ ha, hr⟩

/-! ## Queries -/

/-- The links and products of a query over its evaluated input, as stage 05 declares them. -/
structure AbsQuery where
  native : Bool
  indexer : VarIndexer
  input : SolverInput
  products : List BilinearLinkSpec
  links : List AbsMaximizeLinkSpec
  varNames : List String
  /-- The definitional rows of an auxiliary. -/
  pairs : Nat → AbsConstraintPair
  wellScoped : input.WellScoped indexer
  length_eq : input.upperBounds.length = input.lowerBounds.length
  product_nodup : (products.map (·.auxIdx)).Nodup
  product_lt : ∀ p ∈ products, p.auxIdx < input.lowerBounds.length
  factor_lt : ∀ p ∈ products, p.otherVarIdx < input.lowerBounds.length
  /-- The factors of a product are variables the user declared or ABS auxiliaries. -/
  factor_apart : ∀ p ∈ products, p.otherVarIdx ∉ products.map (·.auxIdx)
  link_nodup : (links.map (·.auxIdx)).Nodup
  link_lt : ∀ link ∈ links, link.auxIdx < input.lowerBounds.length
  link_apart : ∀ link ∈ links, link.auxIdx ∉ products.map (·.auxIdx)
  link_unflagged : ∀ link ∈ links, link.rangeUnbounded = false
  pair_eq : ∀ link ∈ links,
    absConstraintPair input.constraints link.auxIdx = some (pairs link.auxIdx)
  definitional : ∀ link ∈ links,
    DefinitionalPair (pairs link.auxIdx) link.auxIdx input.lowerBounds.length input.numRows
  /-- The expression inside ABS does not mention its own auxiliary, not even through a product. -/
  argument_apart : ∀ link ∈ links, ∀ p ∈ products, p.otherVarIdx = link.auxIdx →
    ∀ t ∈ (pairs link.auxIdx).c1.lhsTerms, t.variableIndex ≠ some p.auxIdx
  /-- The lowering arm has a sign indicator for every link. -/
  sign_fresh : native = false → ∀ link ∈ links, ∃ sign, link.yIdx = some sign ∧
    SignFresh (pairs link.auxIdx) link.auxIdx sign

/-- The boxes the Big-M constants of products are read from. -/
def AbsQuery.box (q : AbsQuery) : FormulationBox := ⟨q.input.lowerBounds, q.input.upperBounds⟩

def AbsQuery.formulate (q : AbsQuery) : Except String (SolverInput × List AbsMaximizeLinkSpec) :=
  formulateAbs q.native q.indexer q.input q.products q.links q.varNames

/-- The input after the arm the query takes. -/
def AbsQuery.encode (q : AbsQuery) (derived : SolverInput) (links : List AbsMaximizeLinkSpec) :
    SolverInput :=
  if q.native then emitNativeAbs q.indexer derived links else linearizeAbsMaximize derived links

/-- The stages of one run that is not refused. -/
structure AbsQuery.Stages (q : AbsQuery) (exposed derived out : SolverInput)
    (links : List AbsMaximizeLinkSpec) : Prop where
  exposed_eq : deriveBilinearAuxiliaryBounds q.input q.box q.products q.varNames = .ok exposed
  derived_eq : deriveAbsAuxiliaryBounds q.varNames (!q.native) exposed q.links = .ok (derived, links)
  out_eq : out = linearizeBilinear (restoreDeclaredBoxes q.input (q.encode derived links) q.products)
    q.box q.products

theorem AbsQuery.formulate_ok {q : AbsQuery} {out : SolverInput}
    {links : List AbsMaximizeLinkSpec} (h : q.formulate = .ok (out, links)) :
    ∃ exposed derived, q.Stages exposed derived out links := by
  unfold AbsQuery.formulate formulateAbs at h
  cases hexposed : deriveBilinearAuxiliaryBounds q.input q.box q.products q.varNames with
  | error e =>
    simp only [AbsQuery.box] at hexposed
    simp [hexposed, bind, Except.bind] at h
  | ok exposed =>
    cases hderived : deriveAbsAuxiliaryBounds q.varNames (!q.native) exposed q.links with
    | error e =>
      simp only [AbsQuery.box] at hexposed
      simp [hexposed, hderived, bind, Except.bind] at h
    | ok res =>
      obtain ⟨derived, links'⟩ := res
      have hbox := hexposed
      simp only [AbsQuery.box] at hbox
      simp only [hbox, hderived, bind, Except.bind, pure, Except.pure, Except.ok.injEq,
        Prod.mk.injEq] at h
      obtain ⟨rfl, rfl⟩ := h
      exact ⟨exposed, derived, hexposed, hderived, rfl⟩

/-! ## Boxes through the stages -/

/-- The flat block of two inputs is the same. -/
structure SameFlat (s t : SolverInput) : Prop where
  columns_eq : s.globalColumns = t.globalColumns
  rows_eq : s.globalConstraints = t.globalConstraints
  generals_eq : s.generalConstraints = t.generalConstraints
  indicators_eq : s.indicatorConstraints = t.indicatorConstraints

theorem SameFlat.refl (s : SolverInput) : SameFlat s s := ⟨rfl, rfl, rfl, rfl⟩

theorem SameFlat.trans {s t u : SolverInput} (h : SameFlat s t) (h' : SameFlat t u) :
    SameFlat s u :=
  ⟨h.columns_eq.trans h'.columns_eq, h.rows_eq.trans h'.rows_eq,
    h.generals_eq.trans h'.generals_eq, h.indicators_eq.trans h'.indicators_eq⟩

/-- The columns, rows and constructs of the flat block hold. -/
structure FlatHolds (input : SolverInput) (indexer : VarIndexer) (a : Nat → ℚ) : Prop where
  globals : ∀ i (box : ColumnBox), input.globalColumns[i]? = some box →
    box.Admits (a (indexer.globalBlockStart + i))
  rows : ∀ r ∈ input.globalConstraints, r.Holds a
  generals : ∀ gc ∈ input.generalConstraints, gc.Holds a
  indicators : ∀ ic ∈ input.indicatorConstraints, ic.Holds a

theorem holds_iff_flatHolds {input : SolverInput} {indexer : VarIndexer} {a : Nat → ℚ} :
    input.Holds indexer a ↔ input.InBoxes indexer a ∧ FlatHolds input indexer a :=
  ⟨fun h => ⟨h.inBoxes, h.globals, h.rows, h.generals, h.indicators⟩,
    fun ⟨hb, h⟩ => ⟨hb, h.globals, h.rows, h.generals, h.indicators⟩⟩

theorem SameFlat.flatHolds_iff {s t : SolverInput} (h : SameFlat s t) {indexer : VarIndexer}
    {a : Nat → ℚ} : FlatHolds s indexer a ↔ FlatHolds t indexer a := by
  constructor
  · rintro ⟨h1, h2, h3, h4⟩
    exact ⟨h.columns_eq ▸ h1, h.rows_eq ▸ h2, h.generals_eq ▸ h3, h.indicators_eq ▸ h4⟩
  · rintro ⟨h1, h2, h3, h4⟩
    exact ⟨h.columns_eq ▸ h1, h.rows_eq ▸ h2, h.generals_eq ▸ h3, h.indicators_eq ▸ h4⟩

/-- While ranges are derived a product shows its exact box, and nothing but boxes changes. -/
theorem deriveBilinear_exposes {box : FormulationBox} {names : List String}
    (links : List BilinearLinkSpec) : (links.map (·.auxIdx)).Nodup →
    ∀ {input out : SolverInput}, input.upperBounds.length = input.lowerBounds.length →
    deriveBilinearAuxiliaryBounds input box links names = .ok out →
    (∀ p ∈ links, p.auxIdx < input.lowerBounds.length) →
    SameFlat out input ∧ ∀ p ∈ links,
      out.lowerBounds.getD p.auxIdx 0 = min 0 (box.lower.getD p.otherVarIdx 0) ∧
        out.upperBounds.getD p.auxIdx 0 = max 0 (box.upper.getD p.otherVarIdx 0) := by
  induction links with
  | nil =>
    intro _ input out _ h _
    obtain rfl : input = out := Except.ok.inj h
    exact ⟨.refl _, by simp⟩
  | cons link links ih =>
    intro hnodup input out hlen h hlt
    rw [List.map_cons, List.nodup_cons] at hnodup
    unfold deriveBilinearAuxiliaryBounds at h
    rw [List.foldlM_cons] at h
    cases hd : deriveBilinearAuxiliaryBound box names input link with
    | error e => rw [hd] at h; cases h
    | ok mid =>
      rw [hd] at h
      unfold deriveBilinearAuxiliaryBound at hd
      simp only at hd
      split at hd
      · cases hd
      obtain rfl := Except.ok.inj hd
      have hrest : deriveBilinearAuxiliaryBounds _ box links names = .ok out := h
      obtain ⟨hflat, hexact⟩ := ih hnodup.2 (by simpa [SolverInput.setBox] using hlen) hrest
        fun p hp => by simpa [SolverInput.setBox] using hlt p (List.mem_cons_of_mem _ hp)
      refine ⟨hflat.trans ⟨rfl, rfl, rfl, rfl⟩, fun p hp => ?_⟩
      rcases List.mem_cons.mp hp with rfl | hp
      · obtain ⟨-, -, hkeep, -⟩ := deriveBilinear_spec links hrest
        obtain ⟨h1, h2⟩ := hkeep _ hnodup.1
        have hlt' := hlt p List.mem_cons_self
        rw [h1, h2]
        exact ⟨getD_set_self _ _ hlt', getD_set_self _ _ (hlen ▸ hlt')⟩
      · exact hexact p hp

/-- Restoring the declared boxes touches the products only. -/
theorem restoreDeclaredBoxes_apart (declared : SolverInput) (links : List BilinearLinkSpec) :
    ∀ input : SolverInput, let out := restoreDeclaredBoxes declared input links
      SameShape out input ∧ SameFlat out input ∧ out.constraints = input.constraints ∧
        ∀ v, v ∉ links.map (·.auxIdx) →
          out.lowerBounds.getD v 0 = input.lowerBounds.getD v 0 ∧
            out.upperBounds.getD v 0 = input.upperBounds.getD v 0 := by
  unfold restoreDeclaredBoxes
  induction links with
  | nil => exact fun input => ⟨.refl _, .refl _, rfl, fun _ _ => ⟨rfl, rfl⟩⟩
  | cons link links ih =>
    intro input
    obtain ⟨hshape, hflat, hcons, hkeep⟩ := ih (input.setBox link.auxIdx
      (declared.lowerBounds.getD link.auxIdx 0) (declared.upperBounds.getD link.auxIdx 0))
    rw [List.foldl_cons]
    refine ⟨hshape.trans (setBox_sameShape _ _ _ _), hflat.trans ⟨rfl, rfl, rfl, rfl⟩, hcons,
      fun v hv => ?_⟩
    rw [List.map_cons, List.mem_cons, not_or] at hv
    obtain ⟨h1, h2⟩ := hkeep v hv.2
    rw [h1, h2]
    exact ⟨getD_set_ne _ _ (Ne.symm hv.1), getD_set_ne _ _ (Ne.symm hv.1)⟩

/-- The McCormick pass leaves the flat block alone. -/
theorem linearizeBilinear_sameFlat (box : FormulationBox) (links : List BilinearLinkSpec) :
    ∀ input : SolverInput, SameFlat (linearizeBilinear input box links) input := by
  unfold linearizeBilinear
  induction links with
  | nil => exact fun input => .refl _
  | cons link links ih =>
    intro input
    rw [List.foldl_cons]
    refine (ih _).trans ?_
    unfold linearizeBilinearLink
    dsimp only
    split <;> exact ⟨rfl, rfl, rfl, rfl⟩

/-- What the run leaves of the boxes it derived. -/
structure AbsQuery.Settled (q : AbsQuery) (derived out : SolverInput)
    (links : List AbsMaximizeLinkSpec) : Prop where
  flat : SameFlat derived q.input
  numRows_eq : derived.numRows = q.input.numRows
  constraints_eq : derived.constraints = q.input.constraints
  types_eq : derived.variableTypes = q.input.variableTypes
  lower_length : derived.lowerBounds.length = q.input.lowerBounds.length
  upper_length : derived.upperBounds.length = q.input.lowerBounds.length
  /-- A product shows its exact box. -/
  product : ∀ p ∈ q.products,
    q.input.upperBounds.getD p.otherVarIdx 0 < solverInfinity ∧
    derived.lowerBounds.getD p.auxIdx 0 = min 0 (q.input.lowerBounds.getD p.otherVarIdx 0) ∧
      derived.upperBounds.getD p.auxIdx 0 = max 0 (q.input.upperBounds.getD p.otherVarIdx 0)
  lower_eq : ∀ v, v ∉ q.products.map (·.auxIdx) →
    derived.lowerBounds.getD v 0 = q.input.lowerBounds.getD v 0
  upper_le : ∀ v, v ∉ q.products.map (·.auxIdx) →
    derived.upperBounds.getD v 0 ≤ q.input.upperBounds.getD v 0
  out_types : out.variableTypes = q.input.variableTypes
  out_length : out.upperBounds.length = q.input.lowerBounds.length
  /-- Apart from the products the model is built with the derived boxes. -/
  out_box : ∀ v, v ∉ q.products.map (·.auxIdx) →
    out.lowerBounds.getD v 0 = derived.lowerBounds.getD v 0 ∧
      out.upperBounds.getD v 0 = derived.upperBounds.getD v 0
  out_flat : SameFlat out (q.encode derived links)
  out_constraints : out.constraints = (q.encode derived links).constraints ++
    q.products.flatMap (mcCormickRows q.box)
  derivedLinks : List.Forall₂ (fun link link' => link ∈ q.links ∧
    LinkDerived q.input derived (!q.native) link link' (q.pairs link.auxIdx)) q.links links

/-- The derivation over the exposed boxes, in terms of the declared ones. -/
theorem AbsQuery.Stages.derived_spec {q : AbsQuery} {exposed derived out : SolverInput}
    {links : List AbsMaximizeLinkSpec} (h : q.Stages exposed derived out links) :
    Narrowed exposed derived ∧
      (∀ v, v ∉ q.links.map (·.auxIdx) →
        derived.upperBounds.getD v 0 = exposed.upperBounds.getD v 0) ∧
      List.Forall₂ (fun link link' => link ∈ q.links ∧ LinkDerived exposed derived (!q.native) link
        link' (q.pairs link.auxIdx)) q.links links := by
  obtain ⟨hshape, hcons, -, -⟩ := deriveBilinear_spec q.products h.exposed_eq
  obtain ⟨links', hout, hnarrow, hkeep, hall⟩ := deriveAbsAuxiliaryBounds_spec q.links h.derived_eq
    (fun link hl => by
      rw [hshape.upper_length, q.length_eq]
      exact q.link_lt link hl) q.link_nodup q.link_unflagged
  obtain rfl : links = links' := by simpa using hout
  refine ⟨hnarrow, hkeep, hall.imp fun link link' ⟨hl, pair, hd⟩ => ⟨hl, ?_⟩⟩
  have hp := hd.pair_eq
  rw [hcons, q.pair_eq link hl] at hp
  obtain rfl := Option.some.inj hp
  exact hd

theorem wellScoped_of_sameFlat {s t : SolverInput} {indexer : VarIndexer} (hflat : SameFlat s t)
    (hrows : s.numRows = t.numRows) (h : t.WellScoped indexer) : s.WellScoped indexer where
  numRows_eq := hrows.trans h.numRows_eq
  rows := by
    rw [hflat.rows_eq, width, hflat.columns_eq]
    exact h.rows
  generals := by
    rw [hflat.generals_eq, width, hflat.columns_eq]
    exact h.generals
  indicators := by
    rw [hflat.indicators_eq, width, hflat.columns_eq]
    exact h.indicators

/-- Deriving changes boxes only. -/
theorem AbsQuery.Stages.derived_same {q : AbsQuery} {exposed derived out : SolverInput}
    {links : List AbsMaximizeLinkSpec} (h : q.Stages exposed derived out links) :
    SameFlat derived q.input ∧ SameShape derived q.input ∧
      derived.constraints = q.input.constraints ∧ derived.lowerBounds = exposed.lowerBounds := by
  obtain ⟨hshape, hcons, -, -⟩ := deriveBilinear_spec q.products h.exposed_eq
  obtain ⟨hflat, -⟩ := deriveBilinear_exposes q.products q.product_nodup q.length_eq h.exposed_eq
    q.product_lt
  have hnarrow := h.derived_spec.1
  have hlen := hnarrow.length_eq
  have hwith := hnarrow.eq_with
  generalize derived.upperBounds = upper at hwith hlen
  subst hwith
  exact ⟨⟨hflat.columns_eq, hflat.rows_eq, hflat.generals_eq, hflat.indicators_eq⟩,
    ⟨hshape.types_eq, hshape.lower_length, hlen.trans hshape.upper_length, hshape.numRows_eq⟩,
    hcons, rfl⟩

/-- A link of the run comes from a link of the query. -/
theorem AbsQuery.Stages.exists_link {q : AbsQuery} {exposed derived out : SolverInput}
    {links : List AbsMaximizeLinkSpec} (h : q.Stages exposed derived out links)
    {link' : AbsMaximizeLinkSpec} (hl : link' ∈ links) :
    ∃ link ∈ q.links,
      LinkDerived exposed derived (!q.native) link link' (q.pairs link.auxIdx) := by
  obtain ⟨link, -, hd⟩ := exists_left_of_forall₂ h.derived_spec.2.2 hl
  exact ⟨link, hd⟩

/-- The native arm over the derived boxes. -/
theorem AbsQuery.Stages.native_spec {q : AbsQuery} {exposed derived out : SolverInput}
    {links : List AbsMaximizeLinkSpec} (h : q.Stages exposed derived out links) :
    let encoded := emitNativeAbs q.indexer derived links
    SameVariables encoded derived ∧
      System.Extends (derived.system q.indexer) (encoded.system q.indexer) fun a =>
        ∀ link ∈ links, ∀ r, r < derived.numRows →
          AbsReads q.indexer (q.pairs link.auxIdx) link.auxIdx r a := by
  obtain ⟨hflat, hshape, hcons, -⟩ := h.derived_same
  have hexposed := (deriveBilinear_spec q.products h.exposed_eq).1
  have hspec := @emitNativeAbs_spec _ _ links q.input.lowerBounds.length
    (fun link => q.pairs link.auxIdx)
    (wellScoped_of_sameFlat hflat hshape.numRows_eq q.wellScoped) fun link' hl' => by
      obtain ⟨link, hl, hd⟩ := h.exists_link hl'
      rw [hd.auxIdx_eq, hcons, hshape.numRows_eq]
      refine ⟨q.pair_eq link hl, q.definitional link hl, ?_⟩
      rw [← hexposed.numRows_eq]
      exact hd.finite
  exact hspec.2

/-- Both arms leave the boxes of the variables alone. -/
theorem AbsQuery.Stages.encode_spec {q : AbsQuery} {exposed derived out : SolverInput}
    {links : List AbsMaximizeLinkSpec} (h : q.Stages exposed derived out links) :
    (q.encode derived links).lowerBounds = derived.lowerBounds ∧
      (q.encode derived links).upperBounds = derived.upperBounds ∧
      (q.encode derived links).variableTypes = derived.variableTypes := by
  have hnative := h.native_spec.1
  unfold AbsQuery.encode
  cases q.native with
  | true => exact ⟨hnative.lower_eq, hnative.upper_eq, hnative.types_eq⟩
  | false => exact ⟨rfl, rfl, rfl⟩

theorem AbsQuery.Stages.settled {q : AbsQuery} {exposed derived out : SolverInput}
    {links : List AbsMaximizeLinkSpec} (h : q.Stages exposed derived out links) :
    q.Settled derived out links := by
  obtain ⟨hshapeE, hconsE, hotherE, hfinE⟩ := deriveBilinear_spec q.products h.exposed_eq
  obtain ⟨-, hexact⟩ := deriveBilinear_exposes q.products q.product_nodup q.length_eq h.exposed_eq
    q.product_lt
  obtain ⟨hnarrow, hkeep, hall⟩ := h.derived_spec
  obtain ⟨hflat, hshape, hcons, hlower⟩ := h.derived_same
  obtain ⟨hencLower, hencUpper, hencTypes⟩ := h.encode_spec
  obtain ⟨hshapeR, hflatR, hconsR, hkeepR⟩ :=
    restoreDeclaredBoxes_apart q.input q.products (q.encode derived links)
  obtain ⟨hshapeB, hconsB, hupperB, hlowerB, -⟩ := linearizeBilinear_spec q.box q.products
    q.product_nodup (restoreDeclaredBoxes q.input (q.encode derived links) q.products)
  have hflatB := linearizeBilinear_sameFlat q.box q.products
    (restoreDeclaredBoxes q.input (q.encode derived links) q.products)
  rw [← h.out_eq] at hshapeB hconsB hupperB hlowerB hflatB
  refine ⟨hflat, hshape.numRows_eq, hcons, hshape.types_eq, hshape.lower_length,
    hshape.upper_length.trans q.length_eq, fun p hp => ⟨hfinE p hp, ?_⟩, fun v hv => ?_,
    fun v hv => ?_, ?_, ?_, fun v hv => ?_, hflatB.trans hflatR, ?_, ?_⟩
  · obtain ⟨hlo, hhi⟩ := hexact p hp
    have hnot : p.auxIdx ∉ q.links.map (·.auxIdx) := by
      intro hmem
      obtain ⟨link, hl, heq⟩ := List.mem_map.mp hmem
      exact q.link_apart link hl (heq ▸ List.mem_map_of_mem hp)
    rw [hlower, hkeep _ hnot]
    exact ⟨hlo, hhi⟩
  · rw [hlower]
    exact (hotherE v hv).1
  · by_cases hlink : v ∈ q.links.map (·.auxIdx)
    · obtain ⟨link, hl, rfl⟩ := List.mem_map.mp hlink
      obtain ⟨link', -, -, hd⟩ := exists_left_of_forall₂ (R := fun l' l => l ∈ q.links ∧
        LinkDerived exposed derived (!q.native) l l' (q.pairs l.auxIdx)) hall.flip hl
      rw [hd.ceiling, (hotherE _ hv).2]
      split
      · exact le_rfl
      · exact min_le_left _ _
    · rw [hkeep v hlink, (hotherE v hv).2]
  · rw [hshapeB.types_eq, hshapeR.types_eq, hencTypes, hshape.types_eq]
  · rw [hshapeB.upper_length, hshapeR.upper_length, hencUpper, hshape.upper_length, q.length_eq]
  · rw [hlowerB v hv, hupperB, (hkeepR v hv).1, (hkeepR v hv).2, hencLower, hencUpper]
    exact ⟨rfl, rfl⟩
  · rw [hconsB, hconsR]
  · refine hall.imp fun link link' ⟨hl, hd⟩ => ⟨hl, hd.auxIdx_eq, hd.yIdx_eq, ?_, ?_, hd.closed,
      ?_, ?_⟩
    · exact q.pair_eq link hl
    · rw [← hshapeE.numRows_eq]
      exact hd.finite
    · rw [← hshapeE.numRows_eq, ← hshapeE.lower_length]
      exact hd.dominates
    · rw [hd.ceiling, (hotherE _ (q.link_apart link hl)).2]

/-! ## Assignments -/

/-- A product auxiliary holds the product of its factors. -/
structure ProductHolds (p : BilinearLinkSpec) (y : Nat → ℚ) : Prop where
  bool : y p.boolVarIdx = 0 ∨ y p.boolVarIdx = 1
  eq_mul : y p.auxIdx = y p.boolVarIdx * y p.otherVarIdx

/-- Values of the variables at a row, those of one auxiliary apart: within the boxes the model is
built with, every product that does not read the auxiliary being one. -/
structure AdmissibleApart (q : AbsQuery) (out : SolverInput) (aux : Nat) (y : Nat → ℚ) : Prop where
  boxes : ∀ v, v ≠ aux → v < q.input.lowerBounds.length → BuiltAdmits out v (y v)
  products : ∀ p ∈ q.products, p.otherVarIdx ≠ aux → ProductHolds p y

/-- A built column keeps to the ends it was given. -/
theorem BuiltAdmits.bounds {out : SolverInput} {v : Nat} {x : ℚ} (hv : v < out.upperBounds.length)
    (h : BuiltAdmits out v x) :
    (out.lowerBounds.getD v 0 ≤ -solverInfinity ∨ out.lowerBounds.getD v 0 ≤ x) ∧
      (solverInfinity ≤ out.upperBounds.getD v 0 ∨ x ≤ out.upperBounds.getD v 0) ∧
      (out.variableTypes[v]? ≠ some .real → x.den = 1) := by
  obtain ⟨box, hbox, hadm⟩ := h
  have hup : out.upperBounds.getD v openBound = out.upperBounds.getD v 0 := by
    simp [List.getD, hv]
  unfold builtColumnBox at hbox
  simp only [hup] at hbox
  generalize (if out.variableTypes[v]? = some .boolean then (1 : ℚ) else openBound) = c at hbox
  split at hbox
  · cases hbox
  obtain rfl := Except.ok.inj hbox
  refine ⟨hadm.lower_le, ?_, fun ht => hadm.integral (by simpa using ht)⟩
  exact hadm.le_upper.imp (fun h => h.trans (min_le_right _ _)) fun h => h.trans (min_le_right _ _)

/-- Lowering a ceiling to something no smaller than `x` does not cut `x` off. -/
theorem builtAdmits_narrow {s t : SolverInput} {v : Nat} {x M : ℚ}
    (htypes : t.variableTypes = s.variableTypes)
    (hlower : t.lowerBounds.getD v 0 = s.lowerBounds.getD v 0)
    (hs : v < s.upperBounds.length) (ht : v < t.upperBounds.length)
    (hupper : t.upperBounds.getD v 0 = min (s.upperBounds.getD v 0) M) (hx : 0 ≤ x) (hM : x ≤ M) :
    BuiltAdmits t v x ↔ BuiltAdmits s v x := by
  have hsD : s.upperBounds.getD v openBound = s.upperBounds.getD v 0 := by simp [List.getD, hs]
  have htD : t.upperBounds.getD v openBound = t.upperBounds.getD v 0 := by simp [List.getD, ht]
  have hinf : (0 : ℚ) < solverInfinity := by norm_num [solverInfinity]
  unfold BuiltAdmits builtColumnBox
  simp only [hsD, htD, htypes, hlower, hupper]
  generalize (if s.variableTypes[v]? = some .boolean then (1 : ℚ) else openBound) = ceiling
  generalize s.upperBounds.getD v 0 = U
  generalize s.lowerBounds.getD v 0 = L
  have hmin : min ceiling (min U M) = min (min ceiling U) M := (min_assoc _ _ _).symm
  rw [hmin]
  generalize min ceiling U = u
  constructor
  · rintro ⟨box, hbox, hadm⟩
    split at hbox
    · cases hbox
    rename_i hle
    obtain rfl := Except.ok.inj hbox
    rw [if_neg (not_lt.mpr ((not_lt.mp hle).trans (min_le_left _ _)))]
    refine ⟨_, rfl, hadm.lower_le, ?_, hadm.integral⟩
    exact hadm.le_upper.imp (fun h => h.trans (min_le_left _ _)) fun h => h.trans (min_le_left _ _)
  · rintro ⟨box, hbox, hadm⟩
    split at hbox
    · cases hbox
    rename_i hle
    obtain rfl := Except.ok.inj hbox
    have hLM : L ≤ M := by
      rcases hadm.lower_le with h | h
      · have hL : L ≤ -solverInfinity := h
        linarith
      · exact le_trans h hM
    rw [if_neg (not_lt.mpr (le_min (not_lt.mp hle) hLM))]
    refine ⟨_, rfl, hadm.lower_le, ?_, hadm.integral⟩
    rcases hadm.le_upper with h | h
    · by_cases hMi : solverInfinity ≤ M
      · exact Or.inl (le_min h hMi)
      · exact Or.inr (le_min (hM.trans ((not_le.mp hMi).le.trans h)) hM)
    · exact Or.inr (le_min h hM)

section Boxes

variable {q : AbsQuery} {derived out : SolverInput} {links : List AbsMaximizeLinkSpec}

/-- Apart from the products, the boxes of the built model are the derived ones. -/
theorem AbsQuery.Settled.bounds_apart (h : q.Settled derived out links) {v : Nat} {x : ℚ}
    (hv : v < q.input.lowerBounds.length) (hp : v ∉ q.products.map (·.auxIdx))
    (hx : BuiltAdmits out v x) :
    (derived.lowerBounds.getD v 0 ≤ -solverInfinity ∨ derived.lowerBounds.getD v 0 ≤ x) ∧
      (solverInfinity ≤ derived.upperBounds.getD v 0 ∨ x ≤ derived.upperBounds.getD v 0) := by
  obtain ⟨hlo, hhi, -⟩ := hx.bounds (h.out_length ▸ hv)
  rw [(h.out_box v hp).1] at hlo
  rw [(h.out_box v hp).2] at hhi
  exact ⟨hlo, hhi⟩

/-- **A product that is one stays within its exact box**, whatever box its column is declared with. -/
theorem AbsQuery.Settled.bounds_product (h : q.Settled derived out links) {p : BilinearLinkSpec}
    {y : Nat → ℚ} (hp : p ∈ q.products) (hy : ProductHolds p y)
    (hx : BuiltAdmits out p.otherVarIdx (y p.otherVarIdx)) :
    (derived.lowerBounds.getD p.auxIdx 0 ≤ -solverInfinity ∨
        derived.lowerBounds.getD p.auxIdx 0 ≤ y p.auxIdx) ∧
      (solverInfinity ≤ derived.upperBounds.getD p.auxIdx 0 ∨
        y p.auxIdx ≤ derived.upperBounds.getD p.auxIdx 0) := by
  obtain ⟨hfinite, hlo, hhi⟩ := h.product p hp
  have hapart := q.factor_apart p hp
  obtain ⟨hxlo, hxhi⟩ := h.bounds_apart (q.factor_lt p hp) hapart hx
  rw [h.lower_eq _ hapart] at hxlo
  have hupper := h.upper_le _ hapart
  have hxU : y p.otherVarIdx ≤ q.input.upperBounds.getD p.otherVarIdx 0 := by
    rcases hxhi with hopen | hle
    · exact absurd (hopen.trans hupper) (not_le.mpr hfinite)
    · exact hle.trans hupper
  rw [hlo, hhi]
  refine ⟨?_, Or.inr ?_⟩
  · rcases hxlo with hopen | hle
    · exact Or.inl ((min_le_right _ _).trans hopen)
    · refine Or.inr ?_
      rcases hy.bool with hb | hb
      · rw [hy.eq_mul, hb, zero_mul]
        exact min_le_left _ _
      · rw [hy.eq_mul, hb, one_mul]
        exact (min_le_right _ _).trans hle
  · rcases hy.bool with hb | hb
    · rw [hy.eq_mul, hb, zero_mul]
      exact le_max_left _ _
    · rw [hy.eq_mul, hb, one_mul]
      exact hxU.trans (le_max_right _ _)

open Classical in
/-- The values with every product that reads the auxiliary switched off. -/
noncomputable def shielded (q : AbsQuery) (aux : Nat) (y : Nat → ℚ) (v : Nat) : ℚ :=
  if ∃ p ∈ q.products, p.auxIdx = v ∧ p.otherVarIdx = aux then 0 else y v

/-- Admissible values respect the boxes the ranges were derived from. -/
theorem AbsQuery.Settled.inBoxApart (h : q.Settled derived out links) {aux : Nat} {y : Nat → ℚ}
    (hy : AdmissibleApart q out aux y) :
    InBoxApart aux derived.lowerBounds derived.upperBounds (shielded q aux y) := by
  intro v hne hv
  rw [h.lower_length] at hv
  by_cases hp : v ∈ q.products.map (·.auxIdx)
  · obtain ⟨p, hmem, rfl⟩ := List.mem_map.mp hp
    by_cases hreads : ∃ p' ∈ q.products, p'.auxIdx = p.auxIdx ∧ p'.otherVarIdx = aux
    · have hzero : shielded q aux y p.auxIdx = 0 := if_pos hreads
      obtain ⟨-, hlo, hhi⟩ := h.product p hmem
      rw [hzero, hlo, hhi]
      exact ⟨Or.inr (min_le_left _ _), Or.inr (le_max_left _ _)⟩
    · have hval : shielded q aux y p.auxIdx = y p.auxIdx := if_neg hreads
      have hother : p.otherVarIdx ≠ aux := fun he => hreads ⟨p, hmem, rfl, he⟩
      rw [hval]
      exact h.bounds_product hmem (hy.products p hmem hother)
        (hy.boxes _ hother (q.factor_lt p hmem))
  · have hval : shielded q aux y v = y v := by
      refine if_neg ?_
      rintro ⟨p, hp', rfl, -⟩
      exact hp (List.mem_map_of_mem hp')
    rw [hval]
    exact h.bounds_apart hv hp (hy.boxes v hne hv)

/-- The argument of a link does not read what the shield hides. -/
theorem absArgument_shielded {link : AbsMaximizeLinkSpec} (hl : link ∈ q.links) (r : Nat)
    (y : Nat → ℚ) :
    absArgument (q.pairs link.auxIdx).c1 link.auxIdx r (shielded q link.auxIdx y) =
      absArgument (q.pairs link.auxIdx).c1 link.auxIdx r y := by
  unfold absArgument
  rw [rowValue_congr]
  intro t ht v hv
  refine if_neg ?_
  rintro ⟨p, hp, rfl, hreads⟩
  exact q.argument_apart link hl p hp hreads t (List.mem_of_mem_filter ht) hv

end Boxes

/-! ## Both arms -/

/-- What the passes owe one link. -/
structure AbsLinkExact (q : AbsQuery) (out : SolverInput) (link link' : AbsMaximizeLinkSpec) :
    Prop where
  auxIdx_eq : link'.auxIdx = link.auxIdx
  closed : q.native = false → link'.rangeUnbounded = false
  /-- The stored range is right for the boxes of the finished model. -/
  dominates : link'.rangeUnbounded = false → ∀ r, r < q.input.numRows → ∀ y,
    AdmissibleApart q out link.auxIdx y →
      |absArgument (q.pairs link.auxIdx).c1 link.auxIdx r y| ≤ link'.absRange
  /-- The column of the auxiliary has room for the absolute value unless it had none before. -/
  in_box : ∀ r, r < q.input.numRows → ∀ y, AdmissibleApart q out link.auxIdx y →
    (BuiltAdmits out link.auxIdx |absArgument (q.pairs link.auxIdx).c1 link.auxIdx r y| ↔
      BuiltAdmits q.input link.auxIdx |absArgument (q.pairs link.auxIdx).c1 link.auxIdx r y|)
  /-- The four rows of a link pin the auxiliary on every included row. -/
  lowering : q.native = false → ∃ sign, link.yIdx = some sign ∧
    (∀ ec ∈ (q.pairs link.auxIdx).c1 :: (q.pairs link.auxIdx).c2 ::
      upperEnvelopeRows (q.pairs link.auxIdx) sign link'.absRange, ec ∈ out.constraints) ∧
    ∀ r, r < q.input.numRows → ((q.pairs link.auxIdx).c1.groupOf r).isSome → ∀ y,
      AdmissibleApart q out link.auxIdx y →
        ((∃ s, (s = 0 ∨ s = 1) ∧ LinkRowsHold ((q.pairs link.auxIdx).c1 ::
            (q.pairs link.auxIdx).c2 :: upperEnvelopeRows (q.pairs link.auxIdx) sign link'.absRange)
            r (Function.update y sign s)) ↔
          y link.auxIdx = |absArgument (q.pairs link.auxIdx).c1 link.auxIdx r y|)

/-- What the native arm owes all links together: the assignments of the decision columns that the
flat block can be completed for are those in which every auxiliary is the absolute value. -/
def NativeExact (q : AbsQuery) (out : SolverInput) : Prop :=
  ∀ a : Nat → ℚ,
    (∀ v, v < q.input.lowerBounds.length → ∀ r, r < q.input.numRows →
      BuiltAdmits out v (a (q.indexer.get v r))) →
    (∀ r, r < q.input.numRows → ∀ p ∈ q.products, ProductHolds p fun v => a (q.indexer.get v r)) →
    ((∃ b, AgreeBelow (q.input.width q.indexer) b a ∧ FlatHolds out q.indexer b) ↔
      FlatHolds q.input q.indexer a ∧ ∀ link ∈ q.links, ∀ r, r < q.input.numRows →
        AbsReads q.indexer (q.pairs link.auxIdx) link.auxIdx r a)

/-- Some link is refused when its turn comes. -/
def AbsQuery.RefusedAtTurn (q : AbsQuery) (exposed : SolverInput) : Prop :=
  ∃ pre link post mid, q.links = pre ++ link :: post ∧
    deriveAbsAuxiliaryBounds q.varNames (!q.native) exposed pre = .ok mid ∧
    RefusesLink (!q.native) mid.1 link

theorem absConstraintPair_mem {constraints : List EvaluatedConstraint} {aux : Nat}
    {pair : AbsConstraintPair} (h : absConstraintPair constraints aux = some pair) :
    pair.c1 ∈ constraints ∧ pair.c2 ∈ constraints := by
  unfold absConstraintPair at h
  simp only at h
  split at h
  · rename_i c1 c2 h1 h2
    obtain rfl := Option.some.inj h
    exact ⟨List.mem_of_mem_filter (List.mem_of_getLast? h1),
      List.mem_of_mem_filter (List.mem_of_getLast? h2)⟩
  · cases h

section Exact

variable {q : AbsQuery} {exposed derived out : SolverInput} {links : List AbsMaximizeLinkSpec}

/-- What each arm emits: the Big-M rows of the links, or none. -/
theorem AbsQuery.Stages.out_constraints_eq (h : q.Stages exposed derived out links) :
    out.constraints = q.input.constraints ++
      (if q.native then [] else links.flatMap (linearizeAbsLink q.input.constraints)) ++
      q.products.flatMap (mcCormickRows q.box) := by
  have hs := h.settled
  have hnative := h.native_spec.1
  rw [hs.out_constraints]
  congr 1
  unfold AbsQuery.encode
  cases q.native with
  | true => simpa using hnative.constraints_eq.trans hs.constraints_eq
  | false => simp [linearizeAbsMaximize, hs.constraints_eq]

theorem AbsQuery.Settled.dominates (h : q.Settled derived out links)
    {link link' : AbsMaximizeLinkSpec} (hl : link ∈ q.links)
    (hd : LinkDerived q.input derived (!q.native) link link' (q.pairs link.auxIdx))
    (hclosed : link'.rangeUnbounded = false) {r : Nat} (hr : r < q.input.numRows) {y : Nat → ℚ}
    (hy : AdmissibleApart q out link.auxIdx y) :
    |absArgument (q.pairs link.auxIdx).c1 link.auxIdx r y| ≤ link'.absRange := by
  rw [← absArgument_shielded hl]
  exact hd.dominates hclosed (q.definitional link hl) r hr _ (h.inBoxApart hy)

/-- One link of a run. -/
theorem AbsQuery.Stages.linkExact (h : q.Stages exposed derived out links)
    {link link' : AbsMaximizeLinkSpec} (hl : link ∈ q.links) (hl' : link' ∈ links)
    (hd : LinkDerived q.input derived (!q.native) link link' (q.pairs link.auxIdx)) :
    AbsLinkExact q out link link' := by
  have hs := h.settled
  have hdom := fun (hclosed : link'.rangeUnbounded = false) r (hr : r < q.input.numRows) y
    (hy : AdmissibleApart q out link.auxIdx y) => hs.dominates hl hd hclosed hr hy
  have hapart := q.link_apart link hl
  have hlt := q.link_lt link hl
  refine ⟨hd.auxIdx_eq, fun hn => hd.closed (by simp [hn]), hdom, fun r hr y hy => ?_, fun hn => ?_⟩
  · have hlower : out.lowerBounds.getD link.auxIdx 0 = q.input.lowerBounds.getD link.auxIdx 0 := by
      rw [(hs.out_box _ hapart).1, hs.lower_eq _ hapart]
    have hupper := (hs.out_box _ hapart).2.trans hd.ceiling
    have hlenS : link.auxIdx < q.input.upperBounds.length := q.length_eq ▸ hlt
    have hlenT : link.auxIdx < out.upperBounds.length := hs.out_length ▸ hlt
    cases hopen : link'.rangeUnbounded with
    | false =>
      rw [hopen] at hupper
      exact builtAdmits_narrow hs.out_types hlower hlenS hlenT hupper (abs_nonneg _)
        (hdom hopen r hr y hy)
    | true =>
      rw [hopen, if_pos rfl] at hupper
      refine builtAdmits_narrow (M := max (q.input.upperBounds.getD link.auxIdx 0) _) hs.out_types
        hlower hlenS hlenT ?_ (abs_nonneg _) (le_max_right _ _)
      rw [hupper, min_eq_left (le_max_left _ _)]
  · obtain ⟨sign, hsign, hfresh⟩ := q.sign_fresh hn link hl
    have hpair := q.pair_eq link hl
    have hclosed := hd.closed (by simp [hn])
    obtain ⟨hc1, hc2⟩ := absConstraintPair_mem hpair
    refine ⟨sign, hsign, ?_, fun r hr hin y hy => ?_⟩
    · rw [h.out_constraints_eq, hn]
      have hrows : linearizeAbsLink q.input.constraints link' =
          upperEnvelopeRows (q.pairs link.auxIdx) sign link'.absRange := by
        unfold linearizeAbsLink
        rw [hd.auxIdx_eq, hpair, hd.yIdx_eq, hsign]
      intro ec hec
      refine List.mem_append_left _ ?_
      rcases List.mem_cons.mp hec with rfl | hec
      · exact List.mem_append_left _ hc1
      rcases List.mem_cons.mp hec with rfl | hec
      · exact List.mem_append_left _ hc2
      · refine List.mem_append_right _ (List.mem_flatMap.mpr ⟨link', hl', ?_⟩)
        rw [hrows]
        exact hec
    · obtain ⟨k, hk⟩ := hd.finite r hr
      exact upperEnvelope_iff (q.definitional link hl) hfresh hr hin hk (hdom hclosed r hr y hy)

/-- The native arm of a run. -/
theorem AbsQuery.Stages.nativeExact (h : q.Stages exposed derived out links)
    (hn : q.native = true) : NativeExact q out := by
  intro a hbox hprod
  have hs := h.settled
  obtain ⟨hsame, hext⟩ := h.native_spec
  have hencode : q.encode derived links = emitNativeAbs q.indexer derived links := by
    unfold AbsQuery.encode
    rw [hn, if_pos rfl]
  have hwidth : derived.width q.indexer = q.input.width q.indexer := by
    unfold width
    rw [hs.flat.columns_eq]
  -- the boxes the constructs were derived from hold, so only the flat block is in question
  have hin : ∀ b, AgreeBelow (q.input.width q.indexer) b a → derived.InBoxes q.indexer b := by
    intro b hba v box hvbox r hr
    rw [hs.numRows_eq] at hr
    have hcol : b (q.indexer.get v r) = a (q.indexer.get v r) :=
      hba _ ((q.indexer.get_lt v (q.wellScoped.numRows_eq ▸ hr)).trans_le (Nat.le_add_right _ _))
    unfold variableBox at hvbox
    split at hvbox
    · rename_i lb ub hlb hub
      obtain rfl := Option.some.inj hvbox
      obtain ⟨hv, hlb'⟩ := List.getElem?_eq_some_iff.mp hlb
      rw [hs.lower_length] at hv
      have hlo : derived.lowerBounds.getD v 0 = lb := by simp [List.getD, hlb]
      have hhi : derived.upperBounds.getD v 0 = ub := by simp [List.getD, hub]
      have hadm := hbox v hv r hr
      obtain ⟨h1, h2⟩ : (lb ≤ -solverInfinity ∨ lb ≤ a (q.indexer.get v r)) ∧
          (solverInfinity ≤ ub ∨ a (q.indexer.get v r) ≤ ub) := by
        rw [← hlo, ← hhi]
        by_cases hp : v ∈ q.products.map (·.auxIdx)
        · obtain ⟨p, hmem, rfl⟩ := List.mem_map.mp hp
          exact hs.bounds_product (y := fun v => a (q.indexer.get v r)) hmem (hprod r hr p hmem)
            (hbox _ (q.factor_lt p hmem) r hr)
        · exact hs.bounds_apart hv hp hadm
      rw [hcol]
      refine ⟨h1, h2, fun hint => ?_⟩
      refine (hadm.bounds (hs.out_length ▸ hv)).2.2 ?_
      rw [hs.out_types, ← hs.types_eq]
      simpa using hint
    · cases hvbox
  have houter : (∃ b, AgreeBelow (q.input.width q.indexer) b a ∧ FlatHolds out q.indexer b) ↔
      System.Completes (derived.system q.indexer)
        ((emitNativeAbs q.indexer derived links).system q.indexer) a := by
    unfold System.Completes
    refine exists_congr fun b => ?_
    rw [hs.out_flat.flatHolds_iff, hencode]
    show _ ↔ AgreeBelow (derived.width q.indexer) b a ∧ SolverInput.Holds _ q.indexer b
    rw [hwidth, holds_iff_flatHolds]
    refine and_congr_right fun hba => (and_iff_right ?_).symm
    intro v box hvbox r hr
    refine hin b hba v box ?_ r (hsame.numRows_eq ▸ hr)
    simpa only [variableBox, hsame.lower_eq, hsame.upper_eq, hsame.types_eq] using hvbox
  rw [houter, hext.completes_iff]
  refine and_congr ?_ ?_
  · show derived.Holds q.indexer a ↔ _
    rw [holds_iff_flatHolds, hs.flat.flatHolds_iff]
    exact and_iff_right (hin a (AgreeBelow.refl _ _))
  · rw [hs.numRows_eq]
    constructor
    · intro hread link hl r hr
      obtain ⟨link', hl', -, hd⟩ := exists_left_of_forall₂ (R := fun l' l => l ∈ q.links ∧
        LinkDerived q.input derived (!q.native) l l' (q.pairs l.auxIdx)) hs.derivedLinks.flip hl
      have hr' := hread link' hl' r hr
      rwa [hd.auxIdx_eq] at hr'
    · intro hread link' hl' r hr
      obtain ⟨link, -, hl, hd⟩ := exists_left_of_forall₂ hs.derivedLinks hl'
      rw [hd.auxIdx_eq]
      exact hread link hl r hr

/-- The products are refused exactly when a factor has no finite upper end. -/
theorem deriveBilinear_refused_iff {input : SolverInput} {box : FormulationBox}
    {products : List BilinearLinkSpec} {names : List String} :
    (∃ e, deriveBilinearAuxiliaryBounds input box products names = .error e) ↔
      ∃ p ∈ products, solverInfinity ≤ box.upper.getD p.otherVarIdx 0 := by
  constructor
  · rintro ⟨e, he⟩
    by_contra hno
    have hfinite : ∀ p ∈ products, box.upper.getD p.otherVarIdx 0 < solverInfinity :=
      fun p hp => not_le.mp fun hle => hno ⟨p, hp, hle⟩
    obtain ⟨out, hout⟩ := exists_deriveBilinear names hfinite input
    rw [he] at hout
    cases hout
  · rintro ⟨p, hp, hle⟩
    cases hd : deriveBilinearAuxiliaryBounds input box products names with
    | error e => exact ⟨e, rfl⟩
    | ok out => exact absurd hle (not_le.mpr ((deriveBilinear_spec products hd).2.2.2 p hp))

/-- A query is refused for a product or for a link, never for anything else. -/
theorem AbsQuery.refused_iff (q : AbsQuery) :
    (∃ e, q.formulate = .error e) ↔
      (∃ p ∈ q.products, solverInfinity ≤ q.input.upperBounds.getD p.otherVarIdx 0) ∨
        ∃ exposed, deriveBilinearAuxiliaryBounds q.input q.box q.products q.varNames = .ok exposed ∧
          q.RefusedAtTurn exposed := by
  have hproducts := @deriveBilinear_refused_iff q.input q.box q.products q.varNames
  cases hexposed : deriveBilinearAuxiliaryBounds q.input q.box q.products q.varNames with
  | error e =>
    have hbox := hexposed
    simp only [AbsQuery.box] at hbox
    refine iff_of_true ⟨e, ?_⟩ (Or.inl (hproducts.mp ⟨e, hexposed⟩))
    simp [AbsQuery.formulate, formulateAbs, hbox, bind, Except.bind]
  | ok exposed =>
    have hbox := hexposed
    simp only [AbsQuery.box] at hbox
    have hno : ¬ ∃ p ∈ q.products, solverInfinity ≤ q.input.upperBounds.getD p.otherVarIdx 0 := by
      intro h
      obtain ⟨e, he⟩ := hproducts.mpr h
      rw [hexposed] at he
      cases he
    have hcons := (deriveBilinear_spec q.products hexposed).2.1
    have hlinks := @deriveAbsAuxiliaryBounds_refused_iff q.varNames
      (!q.native) q.links (exposed, []) fun link hl => by
        rw [hcons]
        exact ⟨_, q.pair_eq link hl⟩
    have hstep : (∃ e, q.formulate = .error e) ↔
        ∃ e, deriveAbsAuxiliaryBounds q.varNames (!q.native) exposed q.links = .error e := by
      unfold AbsQuery.formulate formulateAbs
      cases hderived : deriveAbsAuxiliaryBounds q.varNames (!q.native) exposed q.links with
      | error e => simp [hbox, hderived, bind, Except.bind]
      | ok res => simp [hbox, hderived, bind, Except.bind, pure, Except.pure]
    rw [hstep, or_iff_right hno]
    refine hlinks.trans ?_
    constructor
    · exact fun h => ⟨exposed, rfl, h⟩
    · rintro ⟨exposed', hex, h⟩
      obtain rfl : exposed = exposed' := Except.ok.inj hex
      exact h

/-- **Linearized ABS is ABS.** A query is refused exactly for a product over a factor without a finite
upper end, an infinite constant inside ABS or, where a Big-M is needed, an open column inside ABS.
Otherwise the derived ranges dominate the arguments in the finished model, every auxiliary keeps the
room its declared box had, and the rows or constructs emitted leave it exactly the absolute value. -/
theorem absLinks_exact (q : AbsQuery) :
    ((∃ e, q.formulate = .error e) ↔
      (∃ p ∈ q.products, solverInfinity ≤ q.input.upperBounds.getD p.otherVarIdx 0) ∨
        ∃ exposed, deriveBilinearAuxiliaryBounds q.input q.box q.products q.varNames = .ok exposed ∧
          q.RefusedAtTurn exposed) ∧
    ∀ out links, q.formulate = .ok (out, links) →
      out.constraints = q.input.constraints ++
        (if q.native then [] else links.flatMap (linearizeAbsLink q.input.constraints)) ++
        q.products.flatMap (mcCormickRows q.box) ∧
      List.Forall₂ (AbsLinkExact q out) q.links links ∧
      (q.native = true → NativeExact q out) := by
  refine ⟨q.refused_iff, fun out links hok => ?_⟩
  obtain ⟨exposed, derived, h⟩ := AbsQuery.formulate_ok hok
  refine ⟨h.out_constraints_eq, ?_, h.nativeExact⟩
  obtain ⟨hlen, hzip⟩ := List.forall₂_iff_zip.mp h.settled.derivedLinks
  refine List.forall₂_iff_zip.mpr ⟨hlen, fun {link link'} hmem => ?_⟩
  obtain ⟨hl, hd⟩ := hzip hmem
  exact h.linkExact hl (List.of_mem_zip hmem).2 hd

end Exact

/-! ## ABS asked to be large -/

/-- A definitional row of `ABS(x)`. -/
def absOfVariableRow (isPos : Bool) : EvaluatedConstraint where
  lhsTerms := [scalarTerm 1 1, scalarTerm 0 (if isPos then -1 else 1)]
  rhsValues := fun _ => .fin 0
  comparisonType := .ge
  absAuxIdx := some 1
  absIsPosBound := isPos

/-- `ABS(x) >= 2` over an INTEGER `x` between -10 and 10: the comparison is absorbed, so the column
of the auxiliary starts at 2. -/
def absAtLeastTwo : AbsQuery where
  native := false
  indexer := .rowScoped 1 2
  input :=
    { numRows := 1
      variableTypes := [.integer, .integer, .boolean]
      lowerBounds := [-10, 2, 0]
      upperBounds := [10, openBound, 1]
      constraints := [absOfVariableRow true, absOfVariableRow false] }
  products := []
  links := [{ auxIdx := 1, yIdx := some 2 }]
  varNames := ["x", "__abs_aux_0__", "__abs_y_0__"]
  pairs := fun _ => ⟨absOfVariableRow true, absOfVariableRow false⟩
  wellScoped := ⟨rfl, by simp, by simp, by simp⟩
  length_eq := rfl
  product_nodup := by simp
  product_lt := by simp
  factor_lt := by simp
  factor_apart := by simp
  link_nodup := by simp
  link_lt := by simp
  link_apart := by simp
  link_unflagged := by simp
  pair_eq := by
    intro link hl
    obtain rfl := List.mem_singleton.mp hl
    rfl
  definitional := by
    intro link hl
    obtain rfl := List.mem_singleton.mp hl
    refine ⟨rfl, rfl, rfl, fun r _ => ?_, fun r _ => ?_, fun r _ y => ?_, fun r _ => ?_,
      fun r _ => ?_, ?_⟩
    · simp [combinedCoefficient, absOfVariableRow, scalarTerm]
    · simp [absOfVariableRow, Bound.map]
    · simp [withoutAux, absOfVariableRow, scalarTerm, rowValue_cons, rowValue_nil, termValue]
    · simp [decideRowFixedLhsOffset, absOfVariableRow, scalarTerm]
    · norm_num [NoTinyCoefficient, absOfVariableRow, scalarTerm, coefficientCut]
    · simp [absOfVariableRow, scalarTerm]
  argument_apart := by simp
  sign_fresh := by
    intro _ link hl
    obtain rfl := List.mem_singleton.mp hl
    refine ⟨2, rfl, by decide, ?_, ?_⟩ <;> simp [absOfVariableRow, scalarTerm]

theorem absAtLeastTwo_formulated : ∃ out links, absAtLeastTwo.formulate = .ok (out, links) ∧
    out.lowerBounds = [-10, 2, 0] ∧ out.upperBounds = [10, 10, 1] ∧
    out.variableTypes = [.integer, .integer, .boolean] ∧
    links = [{ auxIdx := 1, yIdx := some 2, absRange := 10 }] := by
  have h : (absAtLeastTwo.formulate.toOption.map fun p =>
      (p.1.lowerBounds, p.1.upperBounds, p.1.variableTypes, p.2)) =
      some ([-10, 2, 0], [10, 10, 1], [.integer, .integer, .boolean],
        [{ auxIdx := 1, yIdx := some 2, absRange := 10 }]) := by
    decide +kernel
  cases hf : absAtLeastTwo.formulate with
  | error e => simp [hf, Except.toOption] at h
  | ok p =>
    simp only [hf, Except.toOption, Option.map_some, Option.some.injEq, Prod.mk.injEq] at h
    exact ⟨p.1, p.2, rfl, h⟩

theorem absLinks_exact_absAtLeastTwo : ∃ out links, absAtLeastTwo.formulate = .ok (out, links) ∧
    List.Forall₂ (AbsLinkExact absAtLeastTwo out) absAtLeastTwo.links links := by
  obtain ⟨out, links, hok, -⟩ := absAtLeastTwo_formulated
  exact ⟨out, links, hok, ((absLinks_exact absAtLeastTwo).2 out links hok).2.1⟩

/-- **A value of the argument can have no value of the auxiliary**: the column of the auxiliary has
absorbed `ABS(x) >= 2`, so `x = 1`, well within its box, is left without one. -/
theorem absAtLeastTwo_refuses_one : ∃ out links, absAtLeastTwo.formulate = .ok (out, links) ∧
    BuiltAdmits out 0 1 ∧ ¬ ∃ w s, BuiltAdmits out 1 w ∧ (s = 0 ∨ s = 1) ∧
      ∀ ec ∈ out.constraints, ec.comparisonType.Holds
        (rowValue ec.lhsTerms 0 fun v => if v = 0 then 1 else if v = 1 then w else s)
        (ec.rhsValues 0) := by
  obtain ⟨out, links, hok, hlower, hupper, htypes, hlinks⟩ := absAtLeastTwo_formulated
  refine ⟨out, links, hok, ?_, ?_⟩
  · refine ⟨⟨-10, 10, true⟩, ?_, Or.inr (by norm_num), Or.inr (by norm_num), fun _ => rfl⟩
    simp only [builtColumnBox, hlower, hupper, htypes]
    decide +kernel
  · rintro ⟨w, s, hw, hs, hrows⟩
    obtain ⟨exposed, derived, h⟩ := AbsQuery.formulate_ok hok
    have hlo : 2 ≤ w := by
      have hge := (hw.bounds (by simp [hupper])).1
      rw [hlower] at hge
      exact hge.resolve_left (by norm_num [solverInfinity])
    have henvelope : ∀ ec ∈ upperEnvelopeRows ⟨absOfVariableRow true, absOfVariableRow false⟩ 2 10,
        ec ∈ out.constraints := by
      intro ec hec
      rw [h.out_constraints_eq, hlinks]
      refine List.mem_append_left _ (List.mem_append_right _ ?_)
      simpa [absAtLeastTwo, linearizeAbsLink, absConstraintPair, absOfVariableRow] using hec
    have h1 := hrows _ (henvelope _ List.mem_cons_self)
    have h2 := hrows _ (henvelope _ (List.mem_cons_of_mem _ List.mem_cons_self))
    simp only [rowValue_append_scalarTerm] at h1 h2
    norm_num [absOfVariableRow, rowValue_cons, rowValue_nil, termValue, scalarTerm, Bound.map]
      at h1 h2
    rcases hs with rfl | rfl <;> linarith

end Decidb
