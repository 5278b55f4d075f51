import Decidb.Formulation.ExtremumLink
import Decidb.Optimizer.ComposedMinMax

/-!
# Composed MIN/MAX constraints

Every MIN/MAX term becomes a global auxiliary pinned to its members; SUM and AVG terms fold into the
one outer row, which ties them all to the bound.
-/

namespace Decidb

open Linear

/-- One term with its factor, coefficients and filter evaluated. -/
structure ComposedMinMaxTermData where
  aggName : AggregateName
  sign : ℤ
  scale : ℚ
  isEasy : Bool
  innerTerms : List LhsTerm
  filterMask : RowMask
  zIdx : Nat := 0

/-- The rows a term's filter admits. -/
def ComposedMinMaxTermData.rows (ta : ComposedMinMaxTermData) (numRows : Nat) : List Nat :=
  (List.range numRows).filter fun r => ta.filterMask r

/-- `EvaluateQueryWideScale` divides by the factor it evaluates. -/
def dividesByZero : Option ScaleFactor → Bool
  | some s => s.divides && s.value = 0
  | none => false

def evaluateComposedTerm (term : ComposedMinMaxTerm) : ComposedMinMaxTermData where
  aggName := term.aggName
  sign := term.sign
  scale := scaleFactorValue term.scale
  isEasy := term.isEasy
  innerTerms := term.innerTerms
  filterMask := fun r => (term.filter.map fun m => m r).getD true

/-- `EvaluateComposedTerms`: the terms' data, or the refusal of a factor or of an empty row set. `what`
names the clause. -/
def evaluateComposedClause (what : String) (numRows : Nat) (terms : List ComposedMinMaxTerm) :
    Except String (List ComposedMinMaxTermData) :=
  let evaluated := terms.map evaluateComposedTerm
  let emptyOf := fun isMinMax => evaluated.find? fun ta =>
    ta.aggName.isMinMax == isMinMax && (ta.rows numRows).isEmpty
  if numRows ≠ 0 ∧ terms.any fun t => dividesByZero t.scale then
    .error ("DECIDE " ++ what ++ ": division by zero — the factor on an aggregate " ++
      "evaluated to 0.")
  else
    match emptyOf true with
    | some ta => .error (emptyAggregateMessage ta.aggName.text ("composed " ++ what))
    | none =>
      match emptyOf false with
      | some ta => .error (emptyAggregateMessage ta.aggName.text ("composed " ++ what))
      | none => .ok evaluated

/-- The terms of a constraint. -/
def evaluateComposedTerms (numRows : Nat) (terms : List ComposedMinMaxTerm) :
    Except String (List ComposedMinMaxTermData) :=
  evaluateComposedClause "constraint" numRows terms

/-- Accumulate one term of a row into a linking row, negated. -/
def addComposedRowTerm (indexer : VarIndexer) (r : Nat) (link : MinMaxLinkRow) (t : LhsTerm) :
    MinMaxLinkRow :=
  match t.variableIndex with
  | none => { link with constant := link.constant + t.rowCoefficients r }
  | some v => link.addColumn (indexer.get v r) (-t.rowCoefficients r)

/-- One term's share of a row's range, and the mark an open column leaves. -/
def composedRowStep (lower upper : List ℚ) (r : Nat) (acc : AuxRange × ℚ × ℚ) (t : LhsTerm) :
    AuxRange × ℚ × ℚ :=
  let c := t.rowCoefficients r
  if |c| < coefficientCut then acc
  else
    match t.variableIndex with
    | none => (acc.1, acc.2.1 + c, acc.2.2 + c)
    | some v =>
      match lower[v]?, upper[v]? with
      | some lb, some ub =>
        if solverInfinity ≤ ub ∨ lb ≤ -solverInfinity then (acc.1.markUnbounded (some v), acc.2)
        else (acc.1, acc.2.1 + (if 0 < c then c * lb else c * ub),
          acc.2.2 + (if 0 < c then c * ub else c * lb))
      | _, _ => (acc.1.markUnbounded (some v), acc.2)

/-- Cover one row of a term. -/
def coverComposedRow (lower upper : List ℚ) (terms : List LhsTerm) (range : AuxRange) (r : Nat) :
    AuxRange :=
  let (range, lo, hi) := terms.foldl (composedRowStep lower upper r) (range, 0, 0)
  range.coverRowSided (some lo) (some hi) none

/-- `ComposedTermRange`. -/
def composedTermRange (input : SolverInput) (ta : ComposedMinMaxTermData) : AuxRange :=
  (ta.rows input.numRows).foldl
    (coverComposedRow input.lowerBounds input.upperBounds ta.innerTerms) {}

/-- The auxiliaries of the MIN/MAX terms, one after the other. -/
def allocateComposed (indexer : VarIndexer) (input : SolverInput) :
    List ComposedMinMaxTermData → SolverInput × List ComposedMinMaxTermData
  | [] => (input, [])
  | ta :: terms =>
    if ta.aggName.isMinMax then
      let (input', z) := input.addGlobalContinuousAux indexer (composedTermRange input ta)
      let (out, terms) := allocateComposed indexer input' terms
      (out, { ta with zIdx := z } :: terms)
    else
      let (out, terms) := allocateComposed indexer input terms
      (out, ta :: terms)

/-- The members of one MIN/MAX term; they share the term's range. -/
def composedMembers (input : SolverInput) (indexer : VarIndexer) (ta : ComposedMinMaxTermData) :
    List ExtremumMember :=
  (ta.rows input.numRows).map fun r =>
    { link := ta.innerTerms.foldl (addComposedRowTerm indexer r) {}
      range := composedTermRange input ta }

/-- Pin the auxiliary of one term. The ranges were derived from `init`, before any term was
pinned. -/
def emitComposedTerm (init : SolverInput) (indexer : VarIndexer) (varNames : List String)
    (policy : NativeConstructPolicy) (input : SolverInput) (ta : ComposedMinMaxTermData) :
    Except String SolverInput :=
  if ta.aggName.isMinMax then
    let range := composedTermRange init ta
    let spec : ExtremumLinkSpec :=
      { resultColumn := ta.zIdx
        isMax := ta.aggName = .max
        needEnvelope := true
        needClosing := !ta.isEasy
        closingUnderivable := range.unbounded
        closingBigM := if range.unbounded then 0 else range.span
        blameVar := range.unboundedVar }
    emitExtremumLink input indexer spec (composedMembers init indexer ta) varNames policy
  else .ok input

/-- `EmitComposedMinMaxAuxiliaries`. -/
def emitComposedMinMaxAuxiliaries (input : SolverInput) (indexer : VarIndexer)
    (terms : List ComposedMinMaxTermData) (varNames : List String)
    (policy : NativeConstructPolicy) :
    Except String (SolverInput × List ComposedMinMaxTermData) :=
  let (allocated, terms) := allocateComposed indexer input terms
  match terms.foldlM (emitComposedTerm input indexer varNames policy) allocated with
  | .error e => .error e
  | .ok out => .ok (out, terms)

/-- One row of one inner term in the outer row. -/
def addOuterEntry (indexer : VarIndexer) (ta : ComposedMinMaxTermData) (avgDivisor : ℚ)
    (inner : LhsTerm) (acc : Form Nat ℚ × ℚ) (row : Nat) : Form Nat ℚ × ℚ :=
  let coef := inner.rowCoefficients row * ta.sign * ta.scale / avgDivisor
  match inner.variableIndex with
  | none => (acc.1, acc.2 - coef)
  | some v => (Form.addColumn acc.1 (indexer.get v row) coef, acc.2)

/-- One term in the outer row: its entries, and what it takes off the bound. -/
def addOuterTerm (indexer : VarIndexer) (numRows : Nat) (acc : Form Nat ℚ × ℚ)
    (ta : ComposedMinMaxTermData) : Form Nat ℚ × ℚ :=
  if ta.aggName.isMinMax then (Form.addColumn acc.1 ta.zIdx (ta.sign * ta.scale), acc.2)
  else
    let rows := ta.rows numRows
    -- an empty AVG contributes nothing
    if ta.aggName = .avg ∧ rows.length = 0 then acc
    else
      let avgDivisor : ℚ := if ta.aggName = .avg then rows.length else 1
      ta.innerTerms.foldl (fun acc inner => rows.foldl (addOuterEntry indexer ta avgDivisor inner) acc)
        acc

/-- The sense of the outer row. -/
def composedOuterSense : Comparison → Except String Sense
  | .le | .lt => .ok .le
  | .ge | .gt => .ok .ge
  | .eq => .ok .eq
  | .ne => .error "Composed MIN/MAX: unexpected comparison type."

/-- `LinearizeComposedMinMaxConstraint`. -/
def linearizeComposedMinMaxConstraint (input : SolverInput) (indexer : VarIndexer)
    (terms : List ComposedMinMaxTermData) (rhs : ℚ) (cmp : Comparison) (varNames : List String)
    (policy : NativeConstructPolicy) : Except String SolverInput :=
  match emitComposedMinMaxAuxiliaries input indexer terms varNames policy with
  | .error e => .error e
  | .ok (linked, terms) =>
    let outer := terms.foldl (addOuterTerm indexer input.numRows) ([], rhs)
    match composedOuterSense cmp with
    | .error e => .error e
    | .ok sense =>
      .ok (linked.pushRow ⟨outer.1.filter fun t => t.2 ≠ 0, sense, outer.2⟩)

/-- A composed comparison, from its left-hand side to its rows. -/
def lowerComposedConstraint (input : SolverInput) (indexer : VarIndexer) (lhs : AggregateSum)
    (cmp : Comparison) (rhs : ℚ) (varNames : List String) (policy : NativeConstructPolicy) :
    Except String SolverInput :=
  match composedTerms lhs cmp with
  | .error e => .error e
  | .ok terms =>
    match evaluateComposedTerms input.numRows terms with
    | .error e => .error e
    | .ok evaluated =>
      linearizeComposedMinMaxConstraint input indexer evaluated rhs cmp varNames policy

end Decidb
