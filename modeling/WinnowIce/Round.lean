import WinnowIce.Horndini
import WinnowIce.Reducers
import WinnowIce.RFile

/-!
# WinnowIce.Round

One round of the CEGIS loop, as `main` in `sorcar.cpp` runs it for the conjunctive algorithms
`horndini`, `sorcar`, `sorcar-first`, `sorcar-greedy` and `sorcar-minimal`. A round reads the
examples gathered so far, the intervals of predicates and the round number, computes Horndini's
`X` from the intervals and asserts that it is consistent. Then it writes `X`, or runs a Sorcar
reducer from a start `R` and writes the reducer's result, both as the hypothesis and as the `.R`
file that the next round reads back. The Winnow and perceptron branches of `main` are
`Winnow.executeAlgorithm` and `Perceptron.executeAlgorithm`.

* `prepareR`: the start `R`, empty under `-r` and in round 1, else the `.R` file.
* `round`: one run of `main`.
* `run`: rounds in sequence, round `i` on the `i`-th examples the teacher hands out and the
  `.R` file of the round before.
-/

namespace HornVerification
namespace Main

open Sorcar

/-- The conjunctive algorithms of `enum algorithm`, as the option `-a` selects them. -/
inductive Algorithm
  | horndini
  | sorcar
  | sorcarFirst
  | sorcarGreedy
  | sorcarMinimal
deriving DecidableEq, Repr

/-- The options of `main` that a conjunctive round reads: `-a`, `-r` (`reset_R`), `-f`
(`horndini_first_round`) and `-t` (`alternate`). -/
structure Options where
  alg : Algorithm
  resetR : Bool
  horndiniFirstRound : Bool
  alternate : Bool
deriving DecidableEq, Repr

/-- What a round writes: the hypothesis of `write_JSON_file` and the text of the `.R` file. -/
structure Output where
  hypothesis : Conjunctions
  rFile : List Char

/-- The Sorcar reducer of the chain of `if`s in `main`: `reduce_predicates_first`, `_greedy`
(with at most `fuel` rounds of its outer loop), `_minimal` (with the solver `solve`), and
`reduce_predicates_all` for `sorcar`. -/
def reduce (solve : Solver) (fuel : Nat) (alg : Algorithm) (datapoints : List Datapoint)
    (hornConstraints : List HornConstraint) (X R : Conjunctions) :
    Option (Except String Conjunctions) :=
  match alg with
  | .sorcarFirst => reducePredicatesFirst datapoints hornConstraints X R
  | .sorcarGreedy => reducePredicatesGreedy fuel datapoints hornConstraints X R
  | .sorcarMinimal => some (reducePredicatesMinimal solve datapoints hornConstraints X R)
  | _ => reducePredicatesAll datapoints hornConstraints X R

/-- "Prepare set R": `|X|` empty sets when `reset_R || round == 1`, else the `.R` file. -/
def prepareR (opts : Options) (roundNo : Nat) (X : Conjunctions) (rFile : List Char) :
    Conjunctions :=
  if opts.resetR || roundNo == 1 then List.replicate X.length ∅ else readRFile rFile

/-- Whether the Sorcar branch runs the reducer: not in round 1 under `-f`, and not in an odd
round under `-t`. -/
def runsSorcar (opts : Options) (roundNo : Nat) : Bool :=
  !(opts.horndiniFirstRound && roundNo == 1) && !(opts.alternate && roundNo % 2 == 1)

/-- The error of `assert (sorcar::is_consistent(X, datapoints, horn_constraints))`. -/
def assertX : String := "assert(sorcar::is_consistent(X, datapoints, horn_constraints))"

/-- `main` for a conjunctive algorithm in round `roundNo`, on the examples, the intervals and the
text of the `.R` file: what it writes, or its error; `none` when it never returns. -/
def round (solve : Solver) (fuel : Nat) (opts : Options) (roundNo : Nat)
    (datapoints : List Datapoint) (hornConstraints : List HornConstraint)
    (intervals : List (UInt32 × UInt32)) (rFile : List Char) : Option (Except String Output) :=
  match horndiniIntervals datapoints hornConstraints intervals with
  | none => none
  | some (.error e) => some (.error e)
  | some (.ok X) =>
    if !isConsistent X datapoints hornConstraints then some (.error assertX)
    else if opts.alg = .horndini then some (.ok ⟨X, writeRFile X⟩)
    else if runsSorcar opts roundNo then
      (reduce solve fuel opts.alg datapoints hornConstraints X
        (prepareR opts roundNo X rFile)).map (Except.map fun R => ⟨R, writeRFile R⟩)
    else some (.ok ⟨X, writeRFile X⟩)

/-- Rounds `roundNo, roundNo + 1, …` on the examples the teacher hands out, each reading the
`.R` file of the round before: the hypotheses, or the first error. -/
def run (solve : Solver) (fuel : Nat) (opts : Options) (intervals : List (UInt32 × UInt32)) :
    Nat → List Char → List (List Datapoint × List HornConstraint) →
      Option (Except String (List Conjunctions))
  | _, _, [] => some (.ok [])
  | roundNo, rFile, (datapoints, hornConstraints) :: rest =>
    match round solve fuel opts roundNo datapoints hornConstraints intervals rFile with
    | none => none
    | some (.error e) => some (.error e)
    | some (.ok o) =>
      (run solve fuel opts intervals (roundNo + 1) o.rFile rest).map
        (Except.map (o.hypothesis :: ·))

/-! ## The teacher -/

/-- The teacher only adds examples: every round's data points and Horn constraints are among
the next round's. -/
def Grows (rounds : List (List Datapoint × List HornConstraint)) : Prop :=
  rounds.Chain' fun e e' => e.1 ⊆ e'.1 ∧ e.2 ⊆ e'.2

/-- The teacher refuted every hypothesis but the last: each round's examples after the first
make the hypothesis of the round before inconsistent. -/
def Refuted : List (List Datapoint × List HornConstraint) → List Conjunctions → Prop
  | _ :: e :: es, H :: Hs => isConsistent H e.1 e.2 = false ∧ Refuted (e :: es) Hs
  | _, _ => True

end Main
end HornVerification
