import Decidb.Formulation.AggregateRow

/-!
# The coefficient accumulator and its reuse

One `SparseCoeffAccumulator` serves group after group and constraint after constraint. A round begins in
either mode, takes its contributions, and is drained by `Flush`; the scratch array of a dense round stays
allocated for the rounds after it.
-/

namespace Decidb

open Linear

/-- `SparseCoeffAccumulator`, as one round leaves it to the next. -/
structure ReusedAccumulator where
  dense : List ℚ := []
  touched : List Nat := []
  useDense : Bool := false
  pairs : List (Nat × ℚ) := []

/-- How a round begins: for so many columns in dense mode, or with a hint of the size. -/
inductive AccumulatorMode where
  | dense (totalVars : Nat)
  | sparse (expectedSize : Nat)
  deriving DecidableEq, Repr

namespace ReusedAccumulator

/-- `BeginDense` keeps the array unless it is too short: `Flush` has zeroed what was written. -/
def beginDense (acc : ReusedAccumulator) (totalVars : Nat) : ReusedAccumulator where
  dense := if acc.dense.length < totalVars then List.replicate totalVars 0 else acc.dense
  touched := []
  useDense := true
  pairs := []

/-- `BeginSparse`; the size it expects reserves memory and nothing else. -/
def beginSparse (acc : ReusedAccumulator) : ReusedAccumulator :=
  { acc with
    touched := []
    useDense := false
    pairs := [] }

def begin (acc : ReusedAccumulator) : AccumulatorMode → ReusedAccumulator
  | .dense totalVars => acc.beginDense totalVars
  | .sparse _ => acc.beginSparse

/-- `Add`: a cell that holds zero is touched, again if it came back to zero. -/
def add (acc : ReusedAccumulator) (idx : Nat) (coeff : ℚ) : ReusedAccumulator :=
  if acc.useDense then
    { acc with
      touched := if acc.dense.getD idx 0 = 0 then acc.touched ++ [idx] else acc.touched
      dense := acc.dense.set idx (acc.dense.getD idx 0 + coeff) }
  else { acc with pairs := acc.pairs ++ [(idx, coeff)] }

/-- The loop of `Flush` over the touched cells: what it emits, and the array it leaves. -/
def drain : List Nat → List ℚ → List (Nat × ℚ) × List ℚ
  | [], dense => ([], dense)
  | idx :: touched, dense =>
    let (emitted, rest) := drain touched (dense.set idx 0)
    (if dense.getD idx 0 ≠ 0 then (idx, dense.getD idx 0) :: emitted else emitted, rest)

/-- `Flush`, appending to the entries it is handed. -/
def flush (acc : ReusedAccumulator) (out : List (Nat × ℚ)) : ReusedAccumulator × List (Nat × ℚ) :=
  if acc.useDense then
    let (emitted, dense) := drain acc.touched acc.dense
    ({ acc with dense, touched := [] }, out ++ emitted)
  else
    match acc.pairs.mergeSort fun p q => p.1 ≤ q.1 with
    | [] => (acc, out)
    | p :: pairs => ({ acc with pairs := [] }, out ++ SparseCoeffAccumulator.mergeRuns p pairs)

end ReusedAccumulator

/-- One round: its mode, its contributions, and the entries its flush appends to. A dense round is begun
for more columns than it adds to. -/
structure AccumulatorRound where
  mode : AccumulatorMode
  adds : List (Nat × ℚ)
  out : List (Nat × ℚ) := []
  adds_lt : ∀ totalVars, mode = .dense totalVars → ∀ e ∈ adds, e.1 < totalVars

/-- A round on what the rounds before it left. -/
def AccumulatorRound.run (round : AccumulatorRound) (acc : ReusedAccumulator) :
    ReusedAccumulator × List (Nat × ℚ) :=
  (round.adds.foldl (fun acc e => acc.add e.1 e.2) (acc.begin round.mode)).flush round.out

/-- The rounds in turn, with what each flush wrote. -/
def runRounds : ReusedAccumulator → List AccumulatorRound → ReusedAccumulator × List (List (Nat × ℚ))
  | acc, [] => (acc, [])
  | acc, round :: rounds =>
    let (acc, out) := round.run acc
    let (acc, outs) := runRounds acc rounds
    (acc, out :: outs)

end Decidb
