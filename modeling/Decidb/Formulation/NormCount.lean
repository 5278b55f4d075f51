import Decidb.Formulation.AbsLink
import Decidb.Formulation.MinMaxConstraint

/-!
# Counting norms

`norm(e, 0)` becomes the sum of one indicator a row, held to `e` by three rows: two forward links
`M*z >= e` and `M*z >= -e`, and the reverse link `ABS(e) >= tol*z`. Without an explicit `M` the
forward links carry a placeholder; the formulation finds them again by the names of the variables that
share a row with the indicator, and puts in a constant derived from the column boxes.
-/

namespace Decidb

open Linear

/-! ## The rewrite -/

/-- An occurrence `scale * norm(e, 0[, M])` in a clause: the terms and the constant of `e`, and the
rows its aggregate counts. -/
structure NormTerm where
  scale : ℚ
  filter : RowMask
  inner : List LhsTerm
  constant : Nat → ℚ
  bound : Option ℚ

/-- The value of `e` at a row. -/
def NormTerm.value (n : NormTerm) (row : Nat) (y : Nat → ℚ) : ℚ :=
  rowValue n.inner row y + n.constant row

/-- One summand of an aggregate clause. -/
inductive NormItem where
  | term (t : LhsTerm)
  | norm (n : NormTerm)

/-- A clause that may count: the summands of its left-hand side, and the rest of it. -/
structure NormClause where
  items : List NormItem
  clause : EvaluatedConstraint

/-- The names declared so far, and the occurrences with their indicators. -/
structure NormState where
  declared : List String
  occurrences : List (Nat × NormTerm) := []

/-- The prefix of the indicators whose bound is derived. -/
def autoIndicatorPrefix : String := "__l0auto_ind_"

/-- The prefix of the ABS auxiliaries. -/
def absAuxiliaryPrefix : String := "__abs_aux_"

/-- Give one occurrence its indicator. -/
def NormState.addIndicator (s : NormState) (n : NormTerm) : NormState where
  declared := s.declared ++ [(if n.bound.isNone then autoIndicatorPrefix else "__l0_ind_") ++
    toString s.occurrences.length ++ "__"]
  occurrences := s.occurrences ++ [(s.declared.length, n)]

/-- What an occurrence leaves in its clause: the sum of its indicator over the rows it counts. -/
def NormTerm.indicatorTerm (n : NormTerm) (z : Nat) : LhsTerm where
  variableIndex := some z
  rowCoefficients := fun row => if n.filter row then n.scale else 0
  reduction := .sum

/-- The summands of one clause. -/
def rewriteNormItems : NormState → List NormItem → NormState × List LhsTerm
  | s, [] => (s, [])
  | s, .term t :: items =>
    let (s, terms) := rewriteNormItems s items
    (s, t :: terms)
  | s, .norm n :: items =>
    let (s', terms) := rewriteNormItems (s.addIndicator n) items
    (s', n.indicatorTerm s.declared.length :: terms)

/-- A clause with its norms replaced. -/
def NormClause.evaluated (c : NormClause) (terms : List LhsTerm) : EvaluatedConstraint :=
  { c.clause with lhsTerms := terms }

/-- `RewriteNorm` over the clauses, as far as it concerns order zero. -/
def rewriteNorm : NormState → List NormClause → NormState × List EvaluatedConstraint
  | s, [] => (s, [])
  | s, c :: clauses =>
    let (s, terms) := rewriteNormItems s c.items
    let (s, rest) := rewriteNorm s clauses
    (s, c.evaluated terms :: rest)

/-- The coefficient the rewrite puts on an indicator: the written bound, or a placeholder. -/
def NormTerm.linkCoefficient (n : NormTerm) : ℚ := n.bound.getD 1

/-- A term with its coefficient scaled. -/
def LhsTerm.scaled (t : LhsTerm) (c : ℚ) : LhsTerm :=
  { t with rowCoefficients := fun row => c * t.rowCoefficients row }

/-- The forward link `m*z >= sign*e`, with the decisions moved to the left. -/
def forwardLink (n : NormTerm) (z : Nat) (m sign : ℚ) : EvaluatedConstraint where
  lhsTerms := scalarTerm z m :: n.inner.map (·.scaled (-sign))
  rhsValues := fun row => .fin (sign * n.constant row)
  comparisonType := .ge

/-- The reverse link `ABS(e) >= tol*z`, its ABS being an auxiliary by now. -/
def reverseLink (tolerance : ℚ) (z aux : Nat) : EvaluatedConstraint where
  lhsTerms := [scalarTerm aux 1, scalarTerm z (-tolerance)]
  rhsValues := fun _ => .fin 0
  comparisonType := .ge

/-- The links of one occurrence. -/
def normLinks (tolerance : ℚ) (absAux : Nat → Nat) (occurrence : Nat × NormTerm) :
    List EvaluatedConstraint :=
  let (z, n) := occurrence
  [forwardLink n z n.linkCoefficient 1, forwardLink n z n.linkCoefficient (-1),
    reverseLink tolerance z (absAux z)]

/-! ## The derived bound -/

/-- The name of a variable starts with a prefix. -/
def hasNamePrefix (varNames : List String) (pre : String) (v : Nat) : Bool :=
  pre.toList.isPrefixOf (varNames.getD v "").toList

/-- The last indicator of a row whose bound is derived, and whether a variable that is neither such an
indicator nor an ABS auxiliary stands beside it. -/
def scanAutoIndicator (varNames : List String) (terms : List LhsTerm) : Option Nat × Bool :=
  terms.zipIdx.foldl
    (fun acc p =>
      match p.1.variableIndex with
      | none => acc
      | some v =>
        if hasNamePrefix varNames autoIndicatorPrefix v then (some p.2, acc.2)
        else if hasNamePrefix varNames absAuxiliaryPrefix v then acc
        else (acc.1, true))
    (none, false)

/-- One row's share of the Big-M of a constraint, and whether an open column was met. -/
def tightBigMStep (ec : EvaluatedConstraint) (box : FormulationBox) (acc : ℚ × Bool) (row : Nat) :
    Except String (ℚ × Bool) :=
  if (ec.groupOf row).isNone then .ok acc
  else
    match decideRowEffectiveBound ec row with
    | .fin k =>
      let range := decideRowTermRange ec.lhsTerms row box.lower box.upper
      .ok (max acc.1 (|k| + range.1), acc.2 || range.2)
    | _ => .error ("DECIDE cannot rewrite this constraint: its bound is Infinity at row " ++
        toString row ++ ", and rewriting ABS, MIN, MAX or <> needs a finite bound. Compare against " ++
        "a finite value instead.")

/-- Which construct asked for a Big-M. -/
def describeBigMConstruct (ec : EvaluatedConstraint) : String :=
  if ec.neClauseIdx.isSome then "<>" else if ec.absAuxIdx.isSome then "ABS" else "MIN/MAX"

/-- `DecideTightPerRowBigM`. -/
def decideTightPerRowBigM (ec : EvaluatedConstraint) (box : FormulationBox) (numRows : Nat)
    (varNames : List String) : Except String ℚ :=
  match (List.range numRows).foldlM (tightBigMStep ec box) (0, false) with
  | .error e => .error e
  | .ok (M, hasUnbounded) =>
    if hasUnbounded then
      throwUnboundedBigMNaming (findUnboundedContributor ec box.lower box.upper) varNames
        (describeBigMConstruct ec)
    else .ok (M + 1)

/-- A row with the coefficient of one term replaced on every row. -/
def EvaluatedConstraint.setCoefficient (ec : EvaluatedConstraint) (t : Nat) (c : ℚ) :
    EvaluatedConstraint :=
  { ec with
    lhsTerms := ec.lhsTerms.modify t fun term => { term with rowCoefficients := fun _ => c } }

/-- Put the derived bound into one row, if it is taken for a forward link. -/
def fillAutoBound (varNames : List String) (box : FormulationBox) (numRows : Nat)
    (ec : EvaluatedConstraint) : Except String EvaluatedConstraint :=
  match scanAutoIndicator varNames ec.lhsTerms with
  | (some t, true) =>
    match decideTightPerRowBigM (ec.setCoefficient t 0) box numRows varNames with
    | .error e => .error e
    | .ok M => .ok (ec.setCoefficient t M)
  | _ => .ok ec

/-- `FormulateModel`, as far as it concerns derived bounds of norms. -/
def fillAutoBounds (varNames : List String) (box : FormulationBox) (numRows : Nat)
    (constraints : List EvaluatedConstraint) : Except String (List EvaluatedConstraint) :=
  constraints.mapM (fillAutoBound varNames box numRows)

end Decidb
