import Decidb.Solver.SolverModel

/-!
# What a model's feasible assignments depend on

Neither the objective nor its coefficients matter to feasibility, an appended row is one more thing asked,
and a model reads no column past its last.
-/

namespace Decidb

open Linear

variable {K : Type*}

/-- A column without its objective coefficient. -/
def SolverColumn.domain (column : SolverColumn K) : K × K × Bool × Bool :=
  (column.lower, column.upper, column.isInteger, column.isBinary)

section

variable [Field K] [LinearOrder K]

theorem SolverColumn.inBox_congr {c d : SolverColumn K} (h : c.domain = d.domain) (x : K) :
    c.InBox x ↔ d.InBox x := by
  obtain ⟨l, u, i, b, o⟩ := c
  obtain ⟨l', u', i', b', o'⟩ := d
  simp only [SolverColumn.domain, Prod.mk.injEq] at h
  obtain ⟨rfl, rfl, rfl, rfl⟩ := h
  exact ⟨fun h => ⟨h.1, h.2⟩, fun h => ⟨h.1, h.2⟩⟩

omit [LinearOrder K] in
theorem SolverColumn.integral_congr {c d : SolverColumn K} (h : c.domain = d.domain) (x : K) :
    c.Integral x ↔ d.Integral x := by
  obtain ⟨l, u, i, b, o⟩ := c
  obtain ⟨l', u', i', b', o'⟩ := d
  simp only [SolverColumn.domain, Prod.mk.injEq] at h
  obtain ⟨rfl, rfl, rfl, rfl⟩ := h
  exact Iff.rfl

namespace SolverModel

variable {m m' : SolverModel K}

omit [Field K] [LinearOrder K] in
/-- What is asked of every column is asked of a model whose columns have the same domains. -/
theorem forall_columns_congr {P : SolverColumn K → K → Prop}
    (hP : ∀ c d : SolverColumn K, c.domain = d.domain → ∀ v, P c v ↔ P d v)
    (h : m.columns.map (·.domain) = m'.columns.map (·.domain)) (x : Nat → K) :
    (∀ i (column : SolverColumn K), m.columns[i]? = some column → P column (x i)) ↔
      ∀ i (column : SolverColumn K), m'.columns[i]? = some column → P column (x i) := by
  refine forall_congr' fun i => ?_
  have hi : m.columns[i]?.map (·.domain) = m'.columns[i]?.map (·.domain) := by
    rw [← List.getElem?_map, ← List.getElem?_map, h]
  cases hc : m.columns[i]? with
  | none =>
    rw [hc] at hi
    rw [Option.map_eq_none_iff.mp hi.symm]
  | some c =>
    rw [hc] at hi
    obtain ⟨d, hd, hdom⟩ := Option.map_eq_some_iff.mp hi.symm
    rw [hd]
    simp only [Option.some.injEq, forall_eq']
    exact hP c d hdom.symm (x i)

/-- Models with the same rows and constructs, whose columns differ in the objective at most, have the
same feasible assignments. -/
theorem feasible_congr (hcolumns : m.columns.map (·.domain) = m'.columns.map (·.domain))
    (hrows : m.constraints = m'.constraints)
    (hquad : m.quadraticConstraints = m'.quadraticConstraints)
    (hind : m.indicatorConstraints = m'.indicatorConstraints)
    (hgen : m.generalConstraints = m'.generalConstraints) (x : Nat → K) :
    m.Feasible x ↔ m'.Feasible x := by
  have hbox := forall_columns_congr (P := SolverColumn.InBox)
    (fun c d h v => SolverColumn.inBox_congr h v) hcolumns x
  have hint := forall_columns_congr (P := SolverColumn.Integral)
    (fun c d h v => SolverColumn.integral_congr h v) hcolumns x
  constructor
  · intro h
    exact ⟨⟨hbox.mp h.boxes, hrows ▸ h.constraints, hquad ▸ h.quadraticConstraints,
      hind ▸ h.indicatorConstraints, hgen ▸ h.generalConstraints⟩, hint.mp h.integral⟩
  · intro h
    exact ⟨⟨hbox.mpr h.boxes, hrows ▸ h.constraints, hquad ▸ h.quadraticConstraints,
      hind ▸ h.indicatorConstraints, hgen ▸ h.generalConstraints⟩, hint.mpr h.integral⟩

/-- An appended row is one more thing asked. -/
theorem feasible_append (row : SolverRow K) (x : Nat → K) :
    ({ m with constraints := m.constraints ++ [row] } : SolverModel K).Feasible x ↔
      m.Feasible x ∧ row.Holds x := by
  constructor
  · intro h
    refine ⟨⟨⟨h.boxes, fun r hr => h.constraints r (List.mem_append_left _ hr),
      h.quadraticConstraints, h.indicatorConstraints, h.generalConstraints⟩, h.integral⟩, ?_⟩
    exact h.constraints row (List.mem_append_right _ (List.mem_singleton.mpr rfl))
  · rintro ⟨h, hrow⟩
    refine ⟨⟨h.boxes, fun r hr => ?_, h.quadraticConstraints, h.indicatorConstraints,
      h.generalConstraints⟩, h.integral⟩
    rcases List.mem_append.mp hr with hr | hr
    · exact h.constraints r hr
    · rw [List.mem_singleton.mp hr]
      exact hrow

end SolverModel

end

/-! ## Bounds -/

section

variable [LinearOrder K]

@[simp] theorem meetsRhs_le_fin (v k : K) : MeetsRhs .le v (.fin k) ↔ v ≤ k :=
  WithBot.coe_le_coe.trans WithTop.coe_le_coe

@[simp] theorem meetsRhs_ge_fin (v k : K) : MeetsRhs .ge v (.fin k) ↔ k ≤ v :=
  WithBot.coe_le_coe.trans WithTop.coe_le_coe

@[simp] theorem meetsRhs_eq_fin (v k : K) : MeetsRhs .eq v (.fin k) ↔ v = k :=
  WithBot.coe_inj.trans WithTop.coe_inj

end

/-! ## Solution vectors -/

/-- A solution vector of a model without integer columns, products and constructs is checked column by
column and row by row. -/
theorem SolverModel.feasible_point [Field K] [LinearOrder K] {model : SolverModel K} {solution : List K}
    (hcolumns : ∀ p ∈ model.columns.zipIdx, p.1.isInteger = false ∧
      (p.1.openBelow = true ∨ p.1.lower ≤ point solution p.2) ∧
      (p.1.openAbove = true ∨ point solution p.2 ≤ p.1.upper))
    (hrows : ∀ row ∈ model.constraints,
      MeetsRhs row.sense (row.form.eval (point solution)) row.rhs)
    (hlinear : model.quadraticConstraints = [] ∧ model.indicatorConstraints = [] ∧
      model.generalConstraints = []) : model.Feasible (point solution) := by
  obtain ⟨hquad, hind, hgen⟩ := hlinear
  have hcolumn : ∀ i (column : SolverColumn K), model.columns[i]? = some column →
      column.isInteger = false ∧ (column.openBelow = true ∨ column.lower ≤ point solution i) ∧
        (column.openAbove = true ∨ point solution i ≤ column.upper) :=
    fun i column hi => hcolumns (column, i) (List.mem_zipIdx_iff_getElem?.mpr hi)
  refine ⟨⟨fun i column hi => ⟨(hcolumn i column hi).2.1, (hcolumn i column hi).2.2⟩, hrows, ?_, ?_, ?_⟩,
    fun i column hi hinteger => ?_⟩
  · rw [hquad]
    exact fun row h => absurd h List.not_mem_nil
  · rw [hind]
    exact fun row h => absurd h List.not_mem_nil
  · rw [hgen]
    exact fun row h => absurd h List.not_mem_nil
  · rw [(hcolumn i column hi).1] at hinteger
    cases hinteger

end Decidb
