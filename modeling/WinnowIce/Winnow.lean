import WinnowIce.Online

/-!
# WinnowIce.Winnow

`winnow`, the learner of one location: its weights, the threshold `theta` and the update rate
`lr`. `predict` compares the weighted sum of a point's bits with `theta`; `update` divides by
`lr` the weights of the set bits of a false positive and multiplies by `lr` those of a false
negative. `execute_algorithm` zeroes the weights outside `X` and trains every learner with the
loop of `WinnowIce.Online`. Both `predict` and `update` index `weights` by the bits of the point.

* `predict_eq`, `update_eq`: with no more bits than weights, `predict` compares
  `score weights dp` with `theta`, and `update` maps the weights by `updateValue`.
* `predict_eq_error`: with more bits than weights, `predict` reads past the end of `weights`.
-/

namespace HornVerification

/-- `winnow`: the weights, the threshold `theta` and the update rate `lr`. -/
structure Winnow where
  weights : List ℚ
  theta : ℚ
  lr : ℚ

namespace Winnow

open Online

/-- `winnow(num_pred, init_wgts)`: `num_pred` weights of `2·num_pred/5`, `theta = 0.441` and
`lr = 2.4`, the trial the code keeps; `init_wgts` is not read. -/
def init (numPred : Nat) : Winnow :=
  ⟨List.replicate numPred (2 * numPred / 5), 441 / 1000, 12 / 5⟩

/-- `predict(dp)`: whether `Σ weights[i] · dp._int_data[i]`, over the bits of `dp`, reaches
`theta`. -/
def predict (w : Winnow) (dp : Datapoint) : Except String Bool :=
  ((List.range dp.intData.length).foldlM
    (fun sum i => (read w.weights i).map fun x => sum + x * bitValue (dp.bit i)) 0).map
      fun sum => decide (w.theta ≤ sum)

/-- The body of the loop of `update` at bit `i`: a false positive divides `weights[i]` by `lr`,
then a false negative multiplies it by `lr`, each when bit `i` is set. -/
def updateAt (w : Winnow) (dp : Datapoint) (prediction : Bool) (weights : List ℚ) (i : Nat) :
    Except String (List ℚ) := do
  let weights ← if !dp.classification && prediction && dp.bit i then modify weights i (· / w.lr)
    else .ok weights
  if dp.classification && !prediction && dp.bit i then modify weights i (· * w.lr)
  else .ok weights

def update (w : Winnow) (dp : Datapoint) (prediction : Bool) : Except String Winnow :=
  ((List.range dp.intData.length).foldlM (updateAt w dp prediction) w.weights).map
    fun weights => { w with weights := weights }

def trainOnce (w : Winnow) (examples : List Datapoint) : Except String Winnow :=
  Online.trainOnce predict update w examples

def checkAcc (w : Winnow) (examples : List Datapoint) : Except String Bool :=
  Online.checkAcc predict w examples

/-- `train(dps)`, with at most `fuel` epochs. -/
def train (examples : List Datapoint) (fuel : Nat) (w : Winnow) : Option (Except String Winnow) :=
  Online.train predict update examples fuel w

/-- The heuristic of `execute_algorithm` for learner `i`: the weight of every index `j` with
`X[i].count(j) == 0` becomes `0`. -/
def mask (X : Conjunctions) (i : Nat) (w : Winnow) : Winnow :=
  { w with weights := w.weights.mapIdx fun j x => if j ∈ conj X i then x else 0 }

/-- `winnow::execute_algorithm(w_objs, dps, X, R)`, with at most `fuel` epochs for each
learner: the trained learners. -/
def executeAlgorithm (fuel : Nat) (wObjs : List Winnow) (datapoints : List Datapoint)
    (X : Conjunctions) : Option (Except String (List Winnow)) :=
  trainAll predict update (examplesAt X datapoints) fuel 0 (wObjs.mapIdx (mask X))

/-! ## With every index in range -/

/-- `Σ_i weights[i] · dp._int_data[i]` over the bits of `dp`. -/
def score (weights : List ℚ) (dp : Datapoint) : ℚ :=
  ∑ i ∈ Finset.range dp.intData.length, weights.getD i 0 * bitValue (dp.bit i)

/-- What `update` leaves in `weights[i]`. -/
def updateValue (w : Winnow) (dp : Datapoint) (prediction : Bool) (i : Nat) (x : ℚ) : ℚ :=
  if !dp.classification && prediction && dp.bit i then x / w.lr
  else if dp.classification && !prediction && dp.bit i then x * w.lr
  else x

variable {w : Winnow} {dp : Datapoint}

theorem predict_eq (h : dp.intData.length ≤ w.weights.length) :
    predict w dp = .ok (decide (w.theta ≤ score w.weights dp)) := by
  rw [predict, foldlM_read_eq_ok (fun i => i) _ _ 0 fun i hi => lt_of_lt_of_le hi h, zero_add]
  rfl

theorem predict_eq_error (h : w.weights.length < dp.intData.length) :
    predict w dp = .error outOfRange := by
  rw [predict, foldlM_read_eq_error (fun i => i) _ _ _
    ⟨w.weights.length, List.mem_range.2 h, le_rfl⟩]
  rfl

theorem updateAt_eq (prediction : Bool) {weights : List ℚ} {i : Nat} (h : i < weights.length) :
    updateAt w dp prediction weights i =
      .ok (weights.set i (updateValue w dp prediction i (weights.getD i 0))) := by
  unfold updateAt updateValue
  cases dp.classification <;> cases prediction <;> cases dp.bit i <;>
    simp [modify_of_lt h, List.getElem?_eq_getElem h, set_getElem_self h, bind, Except.bind]

theorem updateValue_of_le (prediction : Bool) {i : Nat} (h : dp.intData.length ≤ i) (x : ℚ) :
    updateValue w dp prediction i x = x := by
  simp [updateValue, Datapoint.bit, List.getD_eq_getElem?_getD, List.getElem?_eq_none h]

theorem update_eq (prediction : Bool) (h : dp.intData.length ≤ w.weights.length) :
    update w dp prediction =
      .ok { w with weights := w.weights.mapIdx (updateValue w dp prediction) } := by
  rw [update, foldlM_pointwise _ (fun _ _ hi => updateAt_eq prediction hi) _ h]
  refine congrArg (fun ws => Except.ok { w with weights := ws }) ?_
  refine List.ext_getElem (by simp) fun i _ _ => ?_
  simp only [List.getElem_mapIdx]
  split_ifs with hi
  · rfl
  · exact (updateValue_of_le prediction (by omega) _).symm

end Winnow
end HornVerification
