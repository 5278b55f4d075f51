import Decidb.Formulation.ComposedMinMax
import Decidb.Formulation.MinMaxConstraint
import Decidb.Formulation.NormCount
import Decidb.Formulation.Proofs.SolverInputProofs

/-!
# What a derived range promises

The walks over the terms of a row report an interval, a Big-M, or the reach of a family of rows. What
each of them promises is stated for the terms it counts: a coefficient below the cut is passed over.
-/

namespace Decidb

/-! ## Terms that count -/

/-- The terms a walk counts at a row: not those of a variable it skips, and none as good as zero. -/
def countedTerms (skip : Option Nat) (row : Nat) (terms : List LhsTerm) : List LhsTerm :=
  terms.filter fun t => !(t.variableIndex.isSome && t.variableIndex == skip) &&
    decide (coefficientCut ≤ |t.rowCoefficients row|)

/-- The variable part of a row as the walks count it. -/
def countedPart (skip : Option Nat) (terms : List LhsTerm) (row : Nat) (x : Nat → ℚ) : ℚ :=
  rowVariablePart (countedTerms skip row terms) row x

/-- Terms read variables that have a box. -/
def HasBoxes (lower upper : List ℚ) (terms : List LhsTerm) : Prop :=
  ∀ t ∈ terms, ∀ v, t.variableIndex = some v → v < lower.length ∧ v < upper.length

/-- The box of its variable leaves the low end of a term open. -/
def OpensLow (lower upper : List ℚ) (row : Nat) (t : LhsTerm) : Prop :=
  ∃ v, t.variableIndex = some v ∧
    match lower[v]?, upper[v]? with
    | some lb, some ub => if t.rowCoefficients row < 0 then solverInfinity ≤ ub else lb ≤ -solverInfinity
    | _, _ => True

/-- The box of its variable leaves the high end of a term open. -/
def OpensHigh (lower upper : List ℚ) (row : Nat) (t : LhsTerm) : Prop :=
  ∃ v, t.variableIndex = some v ∧
    match lower[v]?, upper[v]? with
    | some lb, some ub => if t.rowCoefficients row < 0 then lb ≤ -solverInfinity else solverInfinity ≤ ub
    | _, _ => True

/-! ## Rows -/

/-- The signed range of a row: it brackets every value the boxes allow, and an end is infinite just when
a box leaves it open. -/
structure SignedRangeExact (terms : List LhsTerm) (row : Nat) (lower upper : List ℚ)
    (skip : Option Nat) : Prop where
  brackets : ∀ x, InBox lower upper x →
    Brackets (decideRowSignedRange terms row lower upper skip) (countedPart skip terms row x)
  low_open_iff : (decideRowSignedRange terms row lower upper skip).1 = none ↔
    ∃ t ∈ countedTerms skip row terms, OpensLow lower upper row t
  high_open_iff : (decideRowSignedRange terms row lower upper skip).2 = none ↔
    ∃ t ∈ countedTerms skip row terms, OpensHigh lower upper row t

/-- The Big-M of a constraint: it dominates the distance of every row from its bound, and is granted just
when the bounds are finite and no box is open on either side. -/
structure BigMExact (ec : EvaluatedConstraint) (box : FormulationBox) (numRows : Nat)
    (varNames : List String) : Prop where
  dominates : ∀ M, decideTightPerRowBigM ec box numRows varNames = .ok M →
    ∀ r, r < numRows → (ec.groupOf r).isSome → ∀ x, InBox box.lower box.upper x →
      ∀ k, decideRowEffectiveBound ec r = .fin k → |countedPart none ec.lhsTerms r x - k| ≤ M
  granted_iff : (∃ M, decideTightPerRowBigM ec box numRows varNames = .ok M) ↔
    ∀ r, r < numRows → (ec.groupOf r).isSome →
      (∃ k, decideRowEffectiveBound ec r = .fin k) ∧
      ∀ t ∈ countedTerms none r ec.lhsTerms,
        ¬ OpensLow box.lower box.upper r t ∧ ¬ OpensHigh box.lower box.upper r t

/-! ## Families -/

/-- A range over a family of members: it contains what any of them contains, an end is open just when it
is open in one of them, and the span of a closed range dominates the distance to any member. -/
structure FamilyCovered (range : AuxRange) (members : List AuxRange) : Prop where
  contains : ∀ m ∈ members, ∀ y, m.Contains y → range.Contains y
  loUnbounded_iff : range.loUnbounded = true ↔ ∃ m ∈ members, m.loUnbounded = true
  hiUnbounded_iff : range.hiUnbounded = true ↔ ∃ m ∈ members, m.hiUnbounded = true
  span_dominates : range.unbounded = false → ∀ m ∈ members, ∀ y z, m.Contains y → range.Contains z →
    |z - y| ≤ range.span

/-- The family of one group of a hard MIN/MAX: the members are its rows, each with its own reach. -/
structure GroupRangeExact (input : SolverInput) (ec : EvaluatedConstraint) (g : Nat)
    (group : MinMaxGroup) : Prop where
  covered : FamilyCovered group.family (group.members.map (·.range))
  contains : ∀ x, InBox input.lowerBounds input.upperBounds x → ∀ r ∈ groupRows ec input.numRows g,
    group.family.Contains (countedPart none ec.lhsTerms r x + decideRowFixedLhsOffset ec.lhsTerms r)
  loUnbounded_iff : group.family.loUnbounded = true ↔ ∃ r ∈ groupRows ec input.numRows g,
    ∃ t ∈ countedTerms none r ec.lhsTerms, OpensLow input.lowerBounds input.upperBounds r t
  hiUnbounded_iff : group.family.hiUnbounded = true ↔ ∃ r ∈ groupRows ec input.numRows g,
    ∃ t ∈ countedTerms none r ec.lhsTerms, OpensHigh input.lowerBounds input.upperBounds r t

/-- The range of a composed term: it contains the rows and what lies between two of them, as their
extrema and averages do; it is open just when some box is. -/
structure ComposedRangeSound (input : SolverInput) (ta : ComposedMinMaxTermData) : Prop where
  contains : ∀ x : Nat → Nat → ℚ,
    (∀ r, r < input.numRows → InBox input.lowerBounds input.upperBounds (x r)) →
    ∀ r ∈ ta.rows input.numRows, ∀ r' ∈ ta.rows input.numRows, ∀ y,
      rowValue (countedTerms none r ta.innerTerms) r (x r) ≤ y →
      y ≤ rowValue (countedTerms none r' ta.innerTerms) r' (x r') →
        (composedTermRange input ta).Contains y
  span_dominates : (composedTermRange input ta).unbounded = false → ∀ x,
    InBox input.lowerBounds input.upperBounds x → ∀ r ∈ ta.rows input.numRows, ∀ z,
      (composedTermRange input ta).Contains z →
        |z - rowValue (countedTerms none r ta.innerTerms) r x| ≤ (composedTermRange input ta).span
  unbounded_iff : (composedTermRange input ta).unbounded = true ↔
    ∃ r ∈ ta.rows input.numRows, ∃ t ∈ countedTerms none r ta.innerTerms,
      OpensLow input.lowerBounds input.upperBounds r t ∨
        OpensHigh input.lowerBounds input.upperBounds r t

end Decidb
