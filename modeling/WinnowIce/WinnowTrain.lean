import WinnowIce.Winnow
import Mathlib.Algebra.BigOperators.Ring

/-!
# WinnowIce.WinnowTrain

`winnow::train` ends on every list of examples that a disjunction labels, by Winnow's mistake
bound as a potential. The weights of the disjunction's indices `C` are never divided, since a
false positive has none of their bits set, and a false negative multiplies by `lr` one of them
that is below `theta`. The measure `Φ(w) = Σ_i w_i + (lr + 1)·θ·Σ_{i ∈ C} θ / w_i` is never
negative and drops by `(1 - 1/lr)·θ` at least on every wrong prediction.

* `potential_falsePositive`, `potential_falseNegative`: the two kinds of wrong prediction.
* `potential_train`: the measure is a potential of the training loop.
* `train_terminates`: `train` ends with `check_acc` true, for `theta = 0.441` and `lr = 2.4`.
-/

namespace HornVerification
namespace Winnow

open Online

/-- The examples that the disjunction over `C` labels: an example is labelled true exactly when
one of its bits in `C` is set. -/
def LabelledBy (C : Finset Nat) (examples : List Datapoint) : Prop :=
  ∀ dp ∈ examples, dp.classification = decide (∃ i ∈ C, dp.bit i = true)

structure Inv (θ lr : ℚ) (n : Nat) (C : Finset Nat) (w : Winnow) : Prop where
  theta : w.theta = θ
  lr : w.lr = lr
  length : w.weights.length = n
  nonneg : ∀ i, 0 ≤ w.weights.getD i 0
  pos : ∀ i ∈ C, 0 < w.weights.getD i 0

/-- The measure `Σ_i w_i + (lr + 1)·θ·Σ_{i ∈ C} θ / w_i`. -/
def potential (θ lr : ℚ) (n : Nat) (C : Finset Nat) (w : Winnow) : ℚ :=
  ∑ i ∈ Finset.range n, w.weights.getD i 0 + (lr + 1) * θ * ∑ i ∈ C, θ / w.weights.getD i 0

section Potential

variable {θ lr : ℚ} {n : Nat} {C : Finset Nat} {w : Winnow} {dp : Datapoint}

theorem getD_updated (prediction : Bool) (i : Nat) :
    (w.weights.mapIdx (updateValue w dp prediction)).getD i 0 =
      updateValue w dp prediction i (w.weights.getD i 0) := by
  rw [getD_mapIdx]
  split_ifs with hi
  · rfl
  · rw [List.getD_eq_getElem?_getD, List.getElem?_eq_none (not_lt.1 hi)]
    simp [updateValue]

theorem updateValue_falsePositive (h : dp.classification = false) (i : Nat) (x : ℚ) :
    updateValue w dp true i x = x - (1 - 1 / w.lr) * (x * bitValue (dp.bit i)) := by
  unfold updateValue
  cases dp.bit i <;> simp [h]
  ring

theorem updateValue_falseNegative (h : dp.classification = true) (i : Nat) (x : ℚ) :
    updateValue w dp false i x = x + (w.lr - 1) * (x * bitValue (dp.bit i)) := by
  unfold updateValue
  cases dp.bit i <;> simp [h]
  ring

theorem Inv.update (hlr : 1 < lr) (hw : Inv θ lr n C w) (prediction : Bool) :
    Inv θ lr n C { w with weights := w.weights.mapIdx (updateValue w dp prediction) } := by
  have hpos : ∀ i x, 0 < x → 0 < updateValue w dp prediction i x := fun i x hx => by
    unfold updateValue
    rw [hw.lr]
    split_ifs
    · exact div_pos hx (by linarith)
    · exact mul_pos hx (by linarith)
    · exact hx
  refine ⟨hw.theta, hw.lr, by simp [hw.length], fun i => ?_, fun i hi => ?_⟩
  · rw [getD_updated]
    rcases (hw.nonneg i).lt_or_eq with h | h
    · exact (hpos i _ h).le
    · rw [← h]
      simp [updateValue]
  · rw [getD_updated]
    exact hpos i _ (hw.pos i hi)

theorem one_sub_inv_pos (hlr : 1 < lr) : 0 < 1 - 1 / lr := by
  rw [sub_pos, div_lt_one (by linarith)]
  exact hlr

theorem potential_falsePositive (hlr : 1 < lr) (hw : Inv θ lr n C w)
    (hbits : dp.intData.length = n) (hC : ∀ i ∈ C, dp.bit i = false)
    (hc : dp.classification = false) (hpred : θ ≤ score w.weights dp) :
    potential θ lr n C { w with weights := w.weights.mapIdx (updateValue w dp true) } +
      (1 - 1 / lr) * θ ≤ potential θ lr n C w := by
  have hsum : ∑ i ∈ Finset.range n, (w.weights.mapIdx (updateValue w dp true)).getD i 0 =
      ∑ i ∈ Finset.range n, w.weights.getD i 0 - (1 - 1 / lr) * score w.weights dp := by
    rw [score, hbits, Finset.mul_sum, ← Finset.sum_sub_distrib]
    refine Finset.sum_congr rfl fun i _ => ?_
    rw [getD_updated, updateValue_falsePositive hc, hw.lr]
  have hC' : ∑ i ∈ C, θ / (w.weights.mapIdx (updateValue w dp true)).getD i 0 =
      ∑ i ∈ C, θ / w.weights.getD i 0 :=
    Finset.sum_congr rfl fun i hi => by
      rw [getD_updated, updateValue_falsePositive hc, hC i hi]
      simp
  have hdrop := mul_le_mul_of_nonneg_left hpred (one_sub_inv_pos hlr).le
  unfold potential
  dsimp only
  rw [hsum, hC']
  linarith

theorem getD_le_score (hw : ∀ i, 0 ≤ w.weights.getD i 0) {j : Nat} (hj : j < dp.intData.length)
    (hbit : dp.bit j = true) : w.weights.getD j 0 ≤ score w.weights dp := by
  have hf : ∀ i ∈ Finset.range dp.intData.length, 0 ≤ w.weights.getD i 0 * bitValue (dp.bit i) :=
    fun i _ => mul_nonneg (hw i) (bitValue_nonneg _)
  have := Finset.single_le_sum hf (Finset.mem_range.2 hj)
  rwa [hbit, bitValue_true, mul_one] at this

theorem sum_inv_falseNegative (hθ : 0 < θ) (hlr : 1 < lr) (hw : Inv θ lr n C w) {j : Nat}
    (hj : j ∈ C) (hbit : dp.bit j = true) (hc : dp.classification = true) :
    ∑ i ∈ C, θ / (w.weights.mapIdx (updateValue w dp false)).getD i 0 ≤
      ∑ i ∈ C, θ / w.weights.getD i 0 - (1 - 1 / lr) * (θ / w.weights.getD j 0) := by
  have hterm : ∀ i ∈ C, θ / (w.weights.mapIdx (updateValue w dp false)).getD i 0 -
      θ / w.weights.getD i 0 ≤ if i = j then -((1 - 1 / lr) * (θ / w.weights.getD j 0)) else 0 :=
    fun i hi => by
      rw [getD_updated, updateValue_falseNegative hc, hw.lr]
      by_cases hij : i = j
      · subst hij
        rw [if_pos rfl, hbit, bitValue_true, mul_one, ← one_add_mul, add_sub_cancel, ← div_div]
        exact le_of_eq (by ring)
      · rw [if_neg hij]
        cases dp.bit i
        · simp
        · rw [bitValue_true, sub_nonpos]
          exact div_le_div_of_nonneg_left hθ.le (hw.pos i hi)
            (le_add_of_nonneg_right (mul_nonneg (by linarith) (by linarith [hw.pos i hi])))
  have := Finset.sum_le_sum hterm
  rw [Finset.sum_sub_distrib, Finset.sum_ite_eq' C j, if_pos hj] at this
  linarith

theorem potential_falseNegative (hθ : 0 < θ) (hlr : 1 < lr) (hw : Inv θ lr n C w)
    (hbits : dp.intData.length = n) (hCn : C ⊆ Finset.range n) {j : Nat} (hj : j ∈ C)
    (hbit : dp.bit j = true) (hc : dp.classification = true) (hpred : score w.weights dp < θ) :
    potential θ lr n C { w with weights := w.weights.mapIdx (updateValue w dp false) } +
      (1 - 1 / lr) * θ ≤ potential θ lr n C w := by
  obtain ⟨a, ha_def⟩ : ∃ a, a = 1 - 1 / lr := ⟨_, rfl⟩
  have ha : 0 < a := ha_def ▸ one_sub_inv_pos hlr
  have hlra : lr * a = lr - 1 := by
    rw [ha_def, mul_sub, mul_one_div_cancel (by linarith), mul_one]
  have hsum : ∑ i ∈ Finset.range n, (w.weights.mapIdx (updateValue w dp false)).getD i 0 =
      ∑ i ∈ Finset.range n, w.weights.getD i 0 + (lr - 1) * score w.weights dp := by
    rw [score, hbits, Finset.mul_sum, ← Finset.sum_add_distrib]
    refine Finset.sum_congr rfl fun i _ => ?_
    rw [getD_updated, updateValue_falseNegative hc, hw.lr]
  have ht : 1 ≤ θ / w.weights.getD j 0 := by
    have hmS := getD_le_score hw.nonneg (hbits ▸ Finset.mem_range.1 (hCn hj)) hbit
    rw [le_div_iff₀ (hw.pos j hj), one_mul]
    linarith
  have hlθ : 0 ≤ (lr + 1) * θ := (mul_pos (by linarith) hθ).le
  have hK : (lr + 1) * θ * a ≤ (lr + 1) * θ * (a * (θ / w.weights.getD j 0)) :=
    mul_le_mul_of_nonneg_left (le_mul_of_one_le_right ha.le ht) hlθ
  have key : (lr + 1) * θ * a = θ * (lr - 1) + θ * a := by rw [← hlra]; ring
  have hS' : (lr - 1) * score w.weights dp ≤ (lr - 1) * θ :=
    mul_le_mul_of_nonneg_left hpred.le (by linarith)
  have hmul := mul_le_mul_of_nonneg_left (sum_inv_falseNegative hθ hlr hw hj hbit hc) hlθ
  unfold potential
  dsimp only
  rw [hsum, ← ha_def]
  rw [← ha_def] at hmul
  linarith

end Potential

section Train

variable {θ lr : ℚ} {n : Nat} {C : Finset Nat} {examples : List Datapoint}

/-- The measure is a potential of the training loop on examples of `n` bits that a disjunction
over indices below `n` labels. -/
theorem potential_train (hθ : 0 < θ) (hlr : 1 < lr) (hCn : C ⊆ Finset.range n)
    (hbits : ∀ dp ∈ examples, dp.intData.length = n) (hlabel : LabelledBy C examples) :
    Potential predict update (Inv θ lr n C) (potential θ lr n C) ((1 - 1 / lr) * θ) examples where
  pos := mul_pos (one_sub_inv_pos hlr) hθ
  nonneg w hw := by
    unfold potential
    have h₁ := Finset.sum_nonneg fun i (_ : i ∈ Finset.range n) => hw.nonneg i
    have h₂ := Finset.sum_nonneg fun i (hi : i ∈ C) => (div_pos hθ (hw.pos i hi)).le
    exact add_nonneg h₁ (mul_nonneg (mul_pos (by linarith) hθ).le h₂)
  step w hw dp hdp := by
    have hlen : dp.intData.length ≤ w.weights.length := by rw [hbits dp hdp, hw.length]
    refine ⟨_, _, predict_eq hlen, update_eq _ hlen, hw.update hlr _, fun h => ?_, fun h => ?_⟩
    · have hid : ∀ i x, updateValue w dp (decide (w.theta ≤ score w.weights dp)) i x = x := by
        intro i x
        unfold updateValue
        rw [← h]
        cases decide (w.theta ≤ score w.weights dp) <;> simp
      have hws : w.weights.mapIdx (updateValue w dp (decide (w.theta ≤ score w.weights dp))) =
          w.weights :=
        List.ext_getElem (by simp) fun i _ _ => by simp only [List.getElem_mapIdx, hid]
      rw [hws]
    · rw [hw.theta] at h ⊢
      have hlab := hlabel dp hdp
      by_cases hp : θ ≤ score w.weights dp
      · rw [decide_eq_true hp] at h ⊢
        have hc : dp.classification = false := Bool.eq_false_iff.2 (Ne.symm h)
        refine potential_falsePositive hlr hw (hbits dp hdp) (fun i hi => ?_) hc hp
        rw [hc, eq_comm, decide_eq_false_iff_not] at hlab
        simpa using fun hb => hlab ⟨i, hi, hb⟩
      · rw [decide_eq_false hp] at h ⊢
        have hc : dp.classification = true := by
          cases hc : dp.classification
          · exact absurd hc.symm h
          · rfl
        rw [hc, eq_comm, decide_eq_true_iff] at hlab
        obtain ⟨j, hj, hb⟩ := hlab
        exact potential_falseNegative hθ hlr hw (hbits dp hdp) hCn hj hb hc (not_le.1 hp)

end Train

/-- From weights that are nonnegative, and positive at the indices `C`, `winnow::train`, with the
constructor's `theta = 0.441` and `lr = 2.4`, ends after finitely many epochs with `check_acc`
true on every list of examples of as many bits as there are weights that the disjunction over
`C` labels. -/
theorem train_terminates (weights : List ℚ) (examples : List Datapoint) (C : Finset Nat)
    (hbits : ∀ dp ∈ examples, dp.intData.length = weights.length)
    (hnonneg : ∀ x ∈ weights, 0 ≤ x) (hC : ∀ i ∈ C, ∃ x, weights[i]? = some x ∧ 0 < x)
    (hlabel : LabelledBy C examples) :
    ∃ fuel w, train examples fuel { init weights.length with weights := weights } = some (.ok w) ∧
      checkAcc w examples = .ok true := by
  have hCn : C ⊆ Finset.range weights.length := fun i hi => by
    obtain ⟨x, hx, -⟩ := hC i hi
    obtain ⟨hi', -⟩ := List.getElem?_eq_some_iff.1 hx
    exact Finset.mem_range.2 hi'
  have hinv : Inv (441 / 1000) (12 / 5) weights.length C
      { init weights.length with weights := weights } := by
    refine ⟨rfl, rfl, rfl, fun i => ?_, fun i hi => ?_⟩
    · rw [List.getD_eq_getElem?_getD]
      cases h : weights[i]? with
      | none => exact le_rfl
      | some x => exact hnonneg x (List.mem_iff_getElem?.2 ⟨i, h⟩)
    · obtain ⟨x, hx, hpos⟩ := hC i hi
      simpa [List.getD_eq_getElem?_getD, hx] using hpos
  exact (potential_train (by norm_num) (by norm_num) hCn hbits hlabel).exists_train_ok hinv

def promoteDemoteExamples : List Datapoint :=
  [⟨[true, false], 0, true, false⟩, ⟨[false, true], 0, true, true⟩]

theorem train_terminates_promoteDemote :
    (∀ dp ∈ promoteDemoteExamples, dp.intData.length = [(4 / 5 : ℚ), 1 / 10].length) ∧
      (∀ x ∈ [(4 / 5 : ℚ), 1 / 10], 0 ≤ x) ∧
      (∀ i ∈ ({1} : Finset Nat), ∃ x, [(4 / 5 : ℚ), 1 / 10][i]? = some x ∧ 0 < x) ∧
      LabelledBy {1} promoteDemoteExamples ∧
      trainOnce { init 2 with weights := [4 / 5, 1 / 10] } promoteDemoteExamples =
        .ok { init 2 with weights := [1 / 3, 6 / 25] } ∧
      ∃ fuel w, train promoteDemoteExamples fuel { init [(4 / 5 : ℚ), 1 / 10].length with
        weights := [4 / 5, 1 / 10] } = some (.ok w) ∧ checkAcc w promoteDemoteExamples = .ok true :=
  have hbits : ∀ dp ∈ promoteDemoteExamples, dp.intData.length = [(4 / 5 : ℚ), 1 / 10].length := by
    decide
  have hnonneg : ∀ x ∈ [(4 / 5 : ℚ), 1 / 10], 0 ≤ x := by norm_num
  have hC : ∀ i ∈ ({1} : Finset Nat), ∃ x, [(4 / 5 : ℚ), 1 / 10][i]? = some x ∧ 0 < x := by
    norm_num
  have hlabel : LabelledBy {1} promoteDemoteExamples := by
    simp [LabelledBy, promoteDemoteExamples, Datapoint.bit]
  have hepoch : trainOnce { init 2 with weights := [4 / 5, 1 / 10] } promoteDemoteExamples =
      .ok { init 2 with weights := [1 / 3, 6 / 25] } := by
    norm_num [Winnow.trainOnce, Online.trainOnce, promoteDemoteExamples, predict_eq, update_eq,
      score, Finset.sum_range_succ, updateValue, Datapoint.bit, bitValue, init, bind, Except.bind]
    rfl
  ⟨hbits, hnonneg, hC, hlabel, hepoch, train_terminates _ _ _ hbits hnonneg hC hlabel⟩

end Winnow
end HornVerification
