import WinnowIce.Perceptron
import Mathlib.Algebra.BigOperators.Ring

/-!
# WinnowIce.PerceptronTrain

When `perceptron::train` ends. `update` moves the bias inside its loop over the bits, once per
bit, so on a point without bits it moves nothing; with at least one bit, Novikoff's bound
survives the scaled bias step. For a bias `b` and weights `w` that separate the examples with a
gap `γ`, the measure `Φ(v) = (v_0 - c·b)²/n + Σ_{i<n} (v_{i+1} - c·w_i)²`, with
`c = (n·lr + 1)/γ`, weighs the bias by `1/n`, as `update` moves it `n` times as far as a weight,
and drops by `2·lr` at least on every wrong prediction.

* `train_stuck_without_features`: with no predicates and a nonnegative bias, `train` on a
  negative point runs out of every number of epochs, though a bias alone separates the point.
* `potential_update`, `potential_wrong`: how one update changes the measure.
* `potential_train`: the measure is a potential of the training loop.
* `train_converges`: from any weights, with `theta = 0` and a positive rate, `train` ends with
  `check_acc` true on examples of at least one bit that a bias and weights separate.
-/

namespace HornVerification
namespace Perceptron

open Online

/-- `b + Σ_i w_i · dp._int_data[i]`, the value of the bias `b` and the weights `w` at `dp`. -/
def margin (b : ℚ) (w : List ℚ) (dp : Datapoint) : ℚ :=
  b + ∑ i ∈ Finset.range dp.intData.length, w.getD i 0 * bitValue (dp.bit i)

/-- The bias `b` and the weights `w` strictly separate the examples: their value is positive at
every example labelled true and negative at every example labelled false. -/
def Separates (b : ℚ) (w : List ℚ) (examples : List Datapoint) : Prop :=
  ∀ dp ∈ examples, (dp.classification = true → 0 < margin b w dp) ∧
    (dp.classification = false → margin b w dp < 0)

/-! ## No bits -/

def bareNegative : Datapoint := ⟨[], 0, true, false⟩

theorem update_of_nil {p : Perceptron} {dp : Datapoint} (h : dp.intData = []) (prediction : Bool) :
    update p dp prediction = .ok p := by
  simp [update, h]
  rfl

/-- With only a bias, at `theta` or above, and no bits, `train` never ends on a negative point:
`predict` says true, and `update` has no bit to loop over, so no epoch changes the learner. -/
theorem train_stuck_without_features (bias : ℚ) (hbias : 0 ≤ bias) :
    Separates (-1) [] [bareNegative] ∧
      ∀ fuel, train [bareNegative] fuel { init 0 with weights := [bias] } = none := by
  have hpred : predict { init 0 with weights := [bias] } bareNegative = .ok true := by
    rw [predict_eq (show bareNegative.intData.length <
      ({ init 0 with weights := [bias] } : Perceptron).weights.length from Nat.one_pos)]
    simpa [score, bareNegative, init] using hbias
  refine ⟨by simp [Separates, margin, bareNegative], train_eq_none_of_fixed ?_ ?_⟩
  · rw [checkAcc_cons predict hpred]
    rfl
  · rw [trainOnce_cons predict update hpred (update_of_nil rfl true)]
    rfl

theorem train_stuck_without_features_init :
    (0 : ℚ) ≤ 1 ∧ Separates (-1) [] [bareNegative] ∧
      ∀ fuel, train [bareNegative] fuel { init 0 with weights := [1] } = none :=
  ⟨zero_le_one, train_stuck_without_features 1 zero_le_one⟩

/-! ## Convergence with at least one bit -/

theorem Separates.exists_gap {b : ℚ} {w : List ℚ} :
    ∀ {examples : List Datapoint}, Separates b w examples →
      ∃ γ, 0 < γ ∧ ∀ dp ∈ examples, γ ≤ error dp (!dp.classification) * margin b w dp
  | [], _ => ⟨1, one_pos, by simp⟩
  | dp :: l, h => by
    obtain ⟨γ, hγ, hl⟩ := Separates.exists_gap fun x hx => h x (List.mem_cons_of_mem _ hx)
    have hdp : 0 < error dp (!dp.classification) * margin b w dp := by
      obtain ⟨ht, hf⟩ := h dp (List.mem_cons_self _ _)
      cases hc : dp.classification
      · simpa [error, hc] using hf hc
      · simpa [error, hc] using ht hc
    refine ⟨min γ _, lt_min hγ hdp, fun x hx => ?_⟩
    rcases List.mem_cons.1 hx with rfl | hx
    · exact min_le_right _ _
    · exact (min_le_left _ _).trans (hl x hx)

structure Inv (lr : ℚ) (n : Nat) (p : Perceptron) : Prop where
  theta : p.theta = 0
  lr : p.lr = lr
  length : p.weights.length = n + 1

/-- The measure `(v_0 - c·b)²/n + Σ_{i<n} (v_{i+1} - c·w_i)²`. -/
def potential (n : Nat) (c b : ℚ) (w : List ℚ) (p : Perceptron) : ℚ :=
  (p.weights.getD 0 0 - c * b) ^ 2 / n +
    ∑ i ∈ Finset.range n, (p.weights.getD (i + 1) 0 - c * w.getD i 0) ^ 2

section Potential

variable {lr c b γ : ℚ} {w : List ℚ} {n : Nat} {p : Perceptron} {dp : Datapoint}

theorem getD_updated (prediction : Bool) {j : Nat} (h : j < p.weights.length) :
    (p.weights.mapIdx (updateValue p dp prediction)).getD j 0 =
      updateValue p dp prediction j (p.weights.getD j 0) := by
  rw [getD_mapIdx, if_pos h]

theorem Inv.update (hw : Inv lr n p) (prediction : Bool) :
    Inv lr n { p with weights := p.weights.mapIdx (updateValue p dp prediction) } :=
  ⟨hw.theta, hw.lr, by simp [hw.length]⟩

theorem mapIdx_updateValue_self :
    p.weights.mapIdx (updateValue p dp dp.classification) = p.weights :=
  List.ext_getElem (by simp) fun j _ _ => by
    simp [List.getElem_mapIdx, updateValue, error]

theorem potential_update (hn : n ≠ 0) (hw : Inv lr n p) (hbits : dp.intData.length = n)
    (prediction : Bool) :
    potential n c b w { p with weights := p.weights.mapIdx (updateValue p dp prediction) } =
      potential n c b w p +
        2 * (lr * error dp prediction) * (score p.weights dp - c * margin b w dp) +
        (lr * error dp prediction) ^ 2 * (n + ∑ i ∈ Finset.range n, bitValue (dp.bit i) ^ 2) := by
  obtain ⟨t, ht⟩ : ∃ t, t = lr * error dp prediction := ⟨_, rfl⟩
  have h₀ : (p.weights.mapIdx (updateValue p dp prediction)).getD 0 0 =
      p.weights.getD 0 0 + n * t := by
    rw [getD_updated prediction (by rw [hw.length]; omega), updateValue, if_pos rfl, hbits, hw.lr,
      ht]
  have hsucc : ∀ i ∈ Finset.range n,
      ((p.weights.mapIdx (updateValue p dp prediction)).getD (i + 1) 0 - c * w.getD i 0) ^ 2 =
        (p.weights.getD (i + 1) 0 - c * w.getD i 0) ^ 2 +
          2 * t * ((p.weights.getD (i + 1) 0 - c * w.getD i 0) * bitValue (dp.bit i)) +
          t ^ 2 * bitValue (dp.bit i) ^ 2 := fun i hi => by
    have hi' : i + 1 < p.weights.length := by
      rw [hw.length]
      exact Nat.succ_lt_succ (Finset.mem_range.1 hi)
    rw [getD_updated prediction hi', updateValue, if_neg (Nat.succ_ne_zero i), Nat.add_sub_cancel,
      hw.lr, ← ht]
    ring
  have hcross : score p.weights dp - c * margin b w dp = (p.weights.getD 0 0 - c * b) +
      ∑ i ∈ Finset.range n, (p.weights.getD (i + 1) 0 - c * w.getD i 0) * bitValue (dp.bit i) := by
    simp only [score, margin, hbits, sub_mul, Finset.sum_sub_distrib, mul_assoc, ← Finset.mul_sum]
    ring
  unfold potential
  dsimp only
  have hbias : (p.weights.getD 0 0 + n * t - c * b) ^ 2 / n =
      (p.weights.getD 0 0 - c * b) ^ 2 / n + 2 * t * (p.weights.getD 0 0 - c * b) + t ^ 2 * n := by
    have hn' : (n : ℚ) ≠ 0 := Nat.cast_ne_zero.2 hn
    rw [div_eq_iff hn', add_mul, add_mul, div_mul_cancel₀ _ hn']
    ring
  rw [h₀, hbias, Finset.sum_congr rfl hsucc, Finset.sum_add_distrib, Finset.sum_add_distrib,
    ← Finset.mul_sum, ← Finset.mul_sum, hcross, ← ht]
  ring

theorem sum_bitValue_sq_le (n : Nat) : ∑ i ∈ Finset.range n, bitValue (dp.bit i) ^ 2 ≤ n :=
  calc ∑ i ∈ Finset.range n, bitValue (dp.bit i) ^ 2
      ≤ ∑ _i ∈ Finset.range n, (1 : ℚ) :=
        Finset.sum_le_sum fun i _ => by cases dp.bit i <;> simp
    _ = n := by simp

theorem potential_wrong (hlr : 0 < lr) (hn : n ≠ 0) (hγ : 0 < γ) (hw : Inv lr n p)
    (hbits : dp.intData.length = n)
    (hgap : γ ≤ error dp (!dp.classification) * margin b w dp)
    (hwrong : decide (0 ≤ score p.weights dp) ≠ dp.classification) :
    potential n ((n * lr + 1) / γ) b w
        { p with weights := p.weights.mapIdx (updateValue p dp (!dp.classification)) } +
      2 * lr ≤ potential n ((n * lr + 1) / γ) b w p := by
  obtain ⟨c, hc⟩ : ∃ c, c = (n * lr + 1) / γ := ⟨_, rfl⟩
  obtain ⟨e, he⟩ : ∃ e, e = error dp (!dp.classification) := ⟨_, rfl⟩
  have he2 : e ^ 2 = 1 := by cases hl : dp.classification <;> simp [he, error, hl]
  have hes : e * score p.weights dp ≤ 0 := by
    cases hl : dp.classification
    · rw [hl, ne_eq, decide_eq_false_iff_not, not_not] at hwrong
      simpa [he, error, hl] using hwrong
    · rw [hl, ne_eq, decide_eq_true_iff] at hwrong
      simpa [he, error, hl] using (not_le.1 hwrong).le
  have hcγ : c * γ = n * lr + 1 := by rw [hc, div_mul_cancel₀ _ hγ.ne']
  have hgap' : lr * c * γ ≤ lr * c * (e * margin b w dp) :=
    mul_le_mul_of_nonneg_left (he ▸ hgap)
      (mul_nonneg hlr.le (hc ▸ div_nonneg (by positivity) hγ.le))
  have hsq : lr ^ 2 * ∑ i ∈ Finset.range n, bitValue (dp.bit i) ^ 2 ≤ lr ^ 2 * n :=
    mul_le_mul_of_nonneg_left (sum_bitValue_sq_le n) (sq_nonneg lr)
  have hscore := mul_nonpos_of_nonneg_of_nonpos hlr.le hes
  rw [← hc, potential_update hn hw hbits, ← he, mul_pow, he2, mul_one]
  have hlc : lr * c * γ = lr * (n * lr + 1) := by rw [mul_assoc, hcγ]
  linarith

end Potential

section Train

variable {lr γ b : ℚ} {w : List ℚ} {n : Nat} {examples : List Datapoint}

/-- The measure is a potential of the training loop on examples of `n ≥ 1` bits that `b` and
`w` separate with the gap `γ`. -/
theorem potential_train (hlr : 0 < lr) (hn : n ≠ 0) (hγ : 0 < γ)
    (hbits : ∀ dp ∈ examples, dp.intData.length = n)
    (hgap : ∀ dp ∈ examples, γ ≤ error dp (!dp.classification) * margin b w dp) :
    Potential predict update (Inv lr n) (potential n ((n * lr + 1) / γ) b w) (2 * lr)
      examples where
  pos := by linarith
  nonneg p _ := add_nonneg (div_nonneg (sq_nonneg _) (Nat.cast_nonneg n))
    (Finset.sum_nonneg fun _ _ => sq_nonneg _)
  step p hw dp hdp := by
    have hlen : dp.intData.length < p.weights.length := by rw [hbits dp hdp, hw.length]; omega
    refine ⟨_, _, predict_eq hlen, update_eq _ hlen, hw.update _, fun h => ?_, fun h => ?_⟩
    · rw [h, mapIdx_updateValue_self]
    · rw [hw.theta] at h ⊢
      have hflip : decide (0 ≤ score p.weights dp) = !dp.classification := by
        cases hl : dp.classification <;> simp_all
      rw [hflip]
      exact potential_wrong hlr hn hγ hw (hbits dp hdp) (hgap dp hdp) h

end Train

/-- With the `float` weights and rate read as exact rationals: from any weights, with the
constructor's `theta = 0` and any positive rate, `perceptron::train` ends after finitely many
epochs with `check_acc` true on every list of examples of `n = weights.size() - 1 ≥ 1` bits that
some bias and weights strictly separate. -/
theorem train_converges (weights : List ℚ) (lr : ℚ) (examples : List Datapoint) (b : ℚ)
    (w : List ℚ) (hn : 2 ≤ weights.length) (hlr : 0 < lr)
    (hbits : ∀ dp ∈ examples, dp.intData.length = weights.length - 1)
    (hsep : Separates b w examples) :
    ∃ fuel p, train examples fuel { init (weights.length - 1) with weights := weights, lr := lr } =
      some (.ok p) ∧ checkAcc p examples = .ok true := by
  obtain ⟨γ, hγ, hgap⟩ := hsep.exists_gap
  have hinv : Inv lr (weights.length - 1)
      { init (weights.length - 1) with weights := weights, lr := lr } :=
    ⟨rfl, rfl, by dsimp only; omega⟩
  exact (potential_train hlr (by omega) hγ hbits hgap).exists_train_ok hinv

def oneBitExamples : List Datapoint :=
  [⟨[true], 0, true, true⟩, ⟨[false], 0, true, false⟩]

theorem train_converges_oneBit :
    2 ≤ (init 1).weights.length ∧ (0 : ℚ) < (init 1).lr ∧
      (∀ dp ∈ oneBitExamples, dp.intData.length = (init 1).weights.length - 1) ∧
      Separates (-1) [2] oneBitExamples ∧
      ∃ fuel p, train oneBitExamples fuel { init ((init 1).weights.length - 1) with
        weights := (init 1).weights, lr := (init 1).lr } = some (.ok p) ∧
        checkAcc p oneBitExamples = .ok true :=
  have hn : 2 ≤ (init 1).weights.length := by decide
  have hlr : (0 : ℚ) < (init 1).lr := by simp [init]
  have hbits : ∀ dp ∈ oneBitExamples, dp.intData.length = (init 1).weights.length - 1 := by
    decide
  have hsep : Separates (-1) [2] oneBitExamples := by
    simp [Separates, oneBitExamples, margin, Datapoint.bit]
  ⟨hn, hlr, hbits, hsep, train_converges _ _ _ _ _ hn hlr hbits hsep⟩

end Perceptron
end HornVerification
