import WinnowIce.Online

/-!
# WinnowIce.Perceptron

`perceptron`, the other learner of one location: `weights[0]` is a bias and `weights[i+1]` the
weight of bit `i`. `predict` compares the bias plus the weighted sum of a point's bits with
`theta`; `update` adds `lr·(label - prediction)` times each bit to its weight and, inside the
same loop over the bits, `lr·(label - prediction)` to the bias, so the bias moves once per bit.
`execute_algorithm` trains every learner with the loop of `WinnowIce.Online`, without the
masking of Winnow.

* `predict_eq`, `update_eq`: with fewer bits than weights, `predict` compares `score` with
  `theta`, and `update` maps the weights by `updateValue`.
* `predict_eq_error`: with as many bits as weights or more, `predict` reads past the end of
  `weights`.
-/

namespace HornVerification

/-- `perceptron`: the weights, `weights[0]` the bias, the threshold `theta` and the rate
`lr`. -/
structure Perceptron where
  weights : List ℚ
  theta : ℚ
  lr : ℚ

namespace Perceptron

open Online

/-- `perceptron(num_pred, init_wgts)`: `num_pred + 1` weights of `1`, `theta = 0` and
`lr = 0.01`; `init_wgts` is not read. -/
def init (numPred : Nat) : Perceptron := ⟨List.replicate (numPred + 1) 1, 0, 1 / 100⟩

/-- `predict(dp)`: whether `weights[0] + Σ weights[i+1] · dp._int_data[i]` reaches `theta`. -/
def predict (p : Perceptron) (dp : Datapoint) : Except String Bool :=
  read p.weights 0 >>= fun bias =>
    ((List.range dp.intData.length).foldlM
      (fun sum i => (read p.weights (i + 1)).map fun x => sum + x * bitValue (dp.bit i)) bias).map
        fun sum => decide (p.theta ≤ sum)

/-- `dp._classification - prediction`, as the number the code multiplies by. -/
def error (dp : Datapoint) (prediction : Bool) : ℚ :=
  bitValue dp.classification - bitValue prediction

/-- The body of the loop of `update` at bit `i`: `weights[i+1] += lr·e·bit i`, then
`weights[0] += lr·e`. -/
def updateAt (p : Perceptron) (dp : Datapoint) (prediction : Bool) (weights : List ℚ) (i : Nat) :
    Except String (List ℚ) :=
  modify weights (i + 1) (· + p.lr * error dp prediction * bitValue (dp.bit i)) >>= fun weights =>
    modify weights 0 (· + p.lr * error dp prediction)

def update (p : Perceptron) (dp : Datapoint) (prediction : Bool) : Except String Perceptron :=
  ((List.range dp.intData.length).foldlM (updateAt p dp prediction) p.weights).map
    fun weights => { p with weights := weights }

def trainOnce (p : Perceptron) (examples : List Datapoint) : Except String Perceptron :=
  Online.trainOnce predict update p examples

def checkAcc (p : Perceptron) (examples : List Datapoint) : Except String Bool :=
  Online.checkAcc predict p examples

/-- `train(dps)`, with at most `fuel` epochs. -/
def train (examples : List Datapoint) (fuel : Nat) (p : Perceptron) :
    Option (Except String Perceptron) :=
  Online.train predict update examples fuel p

/-- `perceptron::execute_algorithm(p_objs, dps, X, R)`, with at most `fuel` epochs for each
learner: the trained learners. -/
def executeAlgorithm (fuel : Nat) (pObjs : List Perceptron) (datapoints : List Datapoint)
    (X : Conjunctions) : Option (Except String (List Perceptron)) :=
  trainAll predict update (examplesAt X datapoints) fuel 0 pObjs

/-! ## With every index in range -/

/-- `weights[0] + Σ_i weights[i+1] · dp._int_data[i]` over the bits of `dp`. -/
def score (weights : List ℚ) (dp : Datapoint) : ℚ :=
  weights.getD 0 0 + ∑ i ∈ Finset.range dp.intData.length, weights.getD (i + 1) 0 * bitValue (dp.bit i)

/-- What `update` leaves in `weights[j]`: the bias moved by `lr·e` once per bit, the weight of
bit `j - 1` by `lr·e` when the bit is set. -/
def updateValue (p : Perceptron) (dp : Datapoint) (prediction : Bool) (j : Nat) (x : ℚ) : ℚ :=
  if j = 0 then x + dp.intData.length * (p.lr * error dp prediction)
  else x + p.lr * error dp prediction * bitValue (dp.bit (j - 1))

variable {p : Perceptron} {dp : Datapoint}

theorem predict_eq (h : dp.intData.length < p.weights.length) :
    predict p dp = .ok (decide (p.theta ≤ score p.weights dp)) := by
  rw [predict, read_of_lt (by omega)]
  simp only [bind, Except.bind]
  rw [foldlM_read_eq_ok (fun i => i + 1) _ _ _ fun i hi => show i + 1 < _ by omega]
  rfl

theorem predict_eq_error (h : p.weights.length ≤ dp.intData.length) :
    predict p dp = .error outOfRange := by
  rcases Nat.eq_zero_or_pos p.weights.length with h0 | h0
  · rw [predict, read_of_le (by omega)]
    rfl
  · rw [predict, read_of_lt h0]
    simp only [bind, Except.bind]
    rw [foldlM_read_eq_error (fun i => i + 1) _ _ _
      ⟨p.weights.length - 1, List.mem_range.2 (by omega), show _ ≤ _ + 1 by omega⟩]
    rfl

theorem foldlM_updateAt (prediction : Bool) (h : dp.intData.length < p.weights.length) :
    ∀ k ≤ dp.intData.length,
      (List.range k).foldlM (updateAt p dp prediction) p.weights =
        .ok (p.weights.mapIdx fun j x =>
          if j = 0 then x + k * (p.lr * error dp prediction)
          else if j ≤ k then x + p.lr * error dp prediction * bitValue (dp.bit (j - 1)) else x)
  | 0, _ => by
    refine congrArg Except.ok (List.ext_getElem (by simp) fun j _ _ => ?_)
    simp only [List.getElem_mapIdx]
    split_ifs <;> first | omega | simp
  | k + 1, hk => by
    rw [List.range_succ, List.foldlM_append, foldlM_updateAt prediction h k (by omega)]
    simp only [bind, Except.bind, List.foldlM_cons, List.foldlM_nil, updateAt]
    rw [modify_of_lt (by simp; omega)]
    simp only []
    rw [modify_of_lt (by simp; omega)]
    refine congrArg Except.ok (List.ext_getElem (by simp) fun j h₁ _ => ?_)
    simp only [List.getElem_set, List.getElem_mapIdx, getD_set, getD_mapIdx, List.length_mapIdx,
      List.length_set]
    have h₀ : 0 < p.weights.length := by omega
    have hk₁ : k + 1 < p.weights.length := by omega
    rcases Nat.eq_zero_or_pos j with rfl | hj
    · simp [h₀, List.getD_eq_getElem _ _ h₀]
      ring
    · by_cases hjk : j = k + 1
      · subst hjk
        simp [hk₁, List.getD_eq_getElem _ _ hk₁]
      · have : j ≤ k + 1 ↔ j ≤ k := by omega
        simp [hjk, hj.ne, Nat.pos_iff_ne_zero.1 hj, this, Ne.symm hjk]

theorem update_eq (prediction : Bool) (h : dp.intData.length < p.weights.length) :
    update p dp prediction =
      .ok { p with weights := p.weights.mapIdx (updateValue p dp prediction) } := by
  rw [update, foldlM_updateAt prediction h _ le_rfl]
  refine congrArg (fun ws => Except.ok { p with weights := ws }) ?_
  refine List.ext_getElem (by simp) fun j _ _ => ?_
  simp only [List.getElem_mapIdx, updateValue]
  split_ifs with h₀ hj
  · rfl
  · rfl
  · simp [Datapoint.bit, List.getD_eq_getElem?_getD, List.getElem?_eq_none (show
      dp.intData.length ≤ j - 1 by omega)]

end Perceptron
end HornVerification
