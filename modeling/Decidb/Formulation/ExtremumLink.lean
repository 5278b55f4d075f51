import Decidb.Formulation.SolverInput

/-!
# Extremum links

`EmitExtremumLink` is the one place a MIN/MAX auxiliary is pinned to its members: an envelope row per
member, and a closing side that is either a native general constraint or one selector per member with
a Big-M row and `SUM(y) >= 1`.
-/

namespace Decidb

open Linear

/-- Which formulation of a construct the backend and the test switch allow. -/
structure NativeConstructPolicy where
  available : Bool := false
  forced : Bool := false
  deriving DecidableEq, Repr

/-- Native is the fallback where no Big-M exists. -/
def NativeConstructPolicy.use (p : NativeConstructPolicy) (bigMUnderivable : Bool) : Bool :=
  p.available && (p.forced || bigMUnderivable)

/-- Accumulator for a linking row: the expression negated, one entry per column, its constant part
separate. -/
structure MinMaxLinkRow where
  form : Form Nat ℚ := []
  constant : ℚ := 0

namespace MinMaxLinkRow

def addColumn (link : MinMaxLinkRow) (column : Nat) (coefficient : ℚ) : MinMaxLinkRow :=
  { link with form := Form.addColumn link.form column coefficient }

/-- The entries that reach a row. -/
def appendTo (link : MinMaxLinkRow) : Form Nat ℚ :=
  link.form.filter fun t => coefficientCut ≤ |t.2|

/-- The column the expression is an exact renaming of, if it is one. -/
def soleColumn? (link : MinMaxLinkRow) : Option Nat :=
  match link.appendTo with
  | [(column, coefficient)] => if coefficient = -1 ∧ link.constant = 0 then some column else none
  | _ => none

end MinMaxLinkRow

/-- One member of an extremum family. -/
structure ExtremumMember where
  link : MinMaxLinkRow
  range : AuxRange

/-- The value of a member's expression, as the emitted rows see it. -/
def ExtremumMember.value (m : ExtremumMember) (a : Nat → ℚ) : ℚ :=
  m.link.constant - m.link.appendTo.eval a

/-- `result = MIN/MAX(members)`, and which of its sides the site needs. -/
structure ExtremumLinkSpec where
  resultColumn : Nat
  isMax : Bool
  needEnvelope : Bool := false
  needClosing : Bool := false
  closingBigM : ℚ := 0
  closingUnderivable : Bool := false
  blameVar : Option Nat := none

/-- Refuse a Big-M that has no finite constant, naming the column to bound when there is one. -/
def throwUnboundedBigMNaming {α : Type} (bad : Option Nat) (varNames : List String)
    (construct : String) : Except String α :=
  match bad.bind (varNames[·]?) with
  | none | some "" => .error ("Rewriting " ++ construct ++
      " requires a finite bound on every decision variable it reads, and one of them is unbounded. " ++
      "Add an upper and a lower bound to the variables in that clause.")
  | some name => .error ("Rewriting " ++ construct ++ " requires a finite bound on '" ++ name ++
      "'. Add constraints '" ++ name ++ " >= <lower>' and '" ++ name ++ " <= <upper>'.")

/-- The column a native constraint takes for one member: its own column where the expression is
nothing but that column, otherwise a fresh one pinned to it. -/
def extremumArgumentColumn (input : SolverInput) (indexer : VarIndexer) (member : ExtremumMember) :
    SolverInput × Nat :=
  match member.link.soleColumn? with
  | some column => (input, column)
  | none =>
    let (input, t) := input.addGlobalContinuousAux indexer member.range
    (input.pushRow ⟨(t, 1) :: member.link.appendTo, .eq, member.link.constant⟩, t)

/-- The envelope row of one member. -/
def envelopeRow (spec : ExtremumLinkSpec) (member : ExtremumMember) : RawConstraint :=
  ⟨(spec.resultColumn, 1) :: member.link.appendTo, if spec.isMax then .ge else .le,
    member.link.constant⟩

/-- The Big-M row of one member, switched by the selector column `y`. -/
def closingRow (spec : ExtremumLinkSpec) (member : ExtremumMember) (y : Nat) : RawConstraint :=
  let mCoeff := if spec.isMax then spec.closingBigM else -spec.closingBigM
  ⟨(spec.resultColumn, 1) :: member.link.appendTo ++ [(y, mCoeff)],
    if spec.isMax then .le else .ge, mCoeff + member.link.constant⟩

/-- The argument columns of the native arm, one per member. -/
def emitArguments (indexer : VarIndexer) (input : SolverInput) :
    List ExtremumMember → SolverInput × List Nat
  | [] => (input, [])
  | member :: members =>
    let (input, c) := extremumArgumentColumn input indexer member
    let (input, cs) := emitArguments indexer input members
    (input, c :: cs)

/-- The selectors of the Big-M arm with their rows; returns the selector columns. -/
def emitSelectors (indexer : VarIndexer) (spec : ExtremumLinkSpec) (input : SolverInput) :
    List ExtremumMember → SolverInput × List Nat
  | [] => (input, [])
  | member :: members =>
    let (input, y) := input.addGlobalBinaryAux indexer
    let (input, ys) := emitSelectors indexer spec (input.pushRow (closingRow spec member y)) members
    (input, y :: ys)

/-- Emit one extremum link. -/
def emitExtremumLink (input : SolverInput) (indexer : VarIndexer) (spec : ExtremumLinkSpec)
    (members : List ExtremumMember) (varNames : List String) (policy : NativeConstructPolicy) :
    Except String SolverInput :=
  if members.isEmpty then .ok input
  else
    let input :=
      if spec.needEnvelope then
        members.foldl (fun input member => input.pushRow (envelopeRow spec member)) input
      else input
    if !spec.needClosing then .ok input
    else if policy.use spec.closingUnderivable then
      let (input, args) := emitArguments indexer input members
      .ok (input.pushGeneral ⟨if spec.isMax then .max else .min, spec.resultColumn, args⟩)
    else if spec.closingUnderivable then
      throwUnboundedBigMNaming spec.blameVar varNames "MIN/MAX"
    else
      let (input, ys) := emitSelectors indexer spec input members
      .ok (input.pushRow ⟨ys.map fun y => (y, 1), .ge, 1⟩)

end Decidb
