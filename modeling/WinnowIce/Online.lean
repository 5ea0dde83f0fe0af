import WinnowIce.Basic
import Mathlib.Algebra.Order.Field.Rat
import Mathlib.Algebra.Order.BigOperators.Group.Finset
import Mathlib.Algebra.Order.Archimedean.Basic

/-!
# WinnowIce.Online

What `winnow` and `perceptron` share. Both train with the same `train_once`, `check_acc` and
`train` over their own `predict` and `update`, and both start `execute_algorithm` with the same
loop: an implication example is labelled by `X`, every example is inverted, and the examples are
sorted by location. The floats of the code are rationals here. A read or write of `weights[i]`
past the end of the vector, which the code leaves undefined, ends the run with the error
`outOfRange`.

* `foldlM_read_eq_ok`, `foldlM_read_eq_error`: a loop reading `weights` at indices in range
  sums what it reads; one index out of range ends it with `outOfRange`.
* `foldlM_pointwise`: a loop whose body at `i` rewrites `weights[i]` alone maps the entries it
  visits.
* `Potential.exists_train_ok`: a learner with a potential that every wrong prediction lowers
  by a fixed amount, and that no right one changes, ends `train` with every example right.
* `train_eq_none_of_fixed`: a learner that gets an example wrong, and that an epoch gives back
  unchanged, never ends `train`.
* `Safe.train_ne_error`, `trainAll_ne_error`: when `predict` and `update` cannot fail, no
  training fails.
-/

namespace HornVerification
namespace Online

/-- The error of a read or write of `weights[i]` past the end of the vector. -/
def outOfRange : String := "weights[i] out of range"

def read (weights : List ℚ) (i : Nat) : Except String ℚ :=
  match weights[i]? with
  | some x => .ok x
  | none => .error outOfRange

def modify (weights : List ℚ) (i : Nat) (f : ℚ → ℚ) : Except String (List ℚ) :=
  (read weights i).map fun x => weights.set i (f x)

/-- `dp._int_data[i]` as the number the code multiplies by. -/
def bitValue (b : Bool) : ℚ := if b then 1 else 0

theorem read_of_lt {weights : List ℚ} {i : Nat} (h : i < weights.length) :
    read weights i = .ok (weights.getD i 0) := by
  simp [read, List.getElem?_eq_getElem h, List.getD_eq_getElem _ _ h]

theorem read_of_le {weights : List ℚ} {i : Nat} (h : weights.length ≤ i) :
    read weights i = .error outOfRange := by
  simp [read, List.getElem?_eq_none h]

theorem modify_of_lt {weights : List ℚ} {i : Nat} (h : i < weights.length) (f : ℚ → ℚ) :
    modify weights i f = .ok (weights.set i (f (weights.getD i 0))) := by
  simp [modify, read_of_lt h, Except.map]

theorem getD_set (weights : List ℚ) (i j : Nat) (a : ℚ) :
    (weights.set i a).getD j 0 = if i = j ∧ i < weights.length then a else weights.getD j 0 := by
  by_cases hij : i = j
  · subst hij
    by_cases hi : i < weights.length
    · simp [List.getD_eq_getElem?_getD, List.getElem?_set, hi]
    · simp [List.getD_eq_getElem?_getD, List.getElem?_set, hi,
        List.getElem?_eq_none (not_lt.1 hi)]
  · simp [List.getD_eq_getElem?_getD, List.getElem?_set, hij]

theorem set_getElem_self {weights : List ℚ} {i : Nat} (h : i < weights.length) :
    weights.set i weights[i] = weights :=
  List.ext_getElem (by simp) fun j _ _ => by
    rw [List.getElem_set]
    split <;> simp_all

theorem getD_mapIdx (weights : List ℚ) (f : Nat → ℚ → ℚ) (j : Nat) :
    (weights.mapIdx f).getD j 0 = if j < weights.length then f j (weights.getD j 0) else 0 := by
  by_cases hj : j < weights.length
  · simp [List.getD_eq_getElem?_getD, List.getElem?_mapIdx, List.getElem?_eq_getElem hj, hj]
  · simp [List.getD_eq_getElem?_getD, List.getElem?_mapIdx, List.getElem?_eq_none (not_lt.1 hj),
      hj]

@[simp] theorem bitValue_true : bitValue true = 1 := rfl
@[simp] theorem bitValue_false : bitValue false = 0 := rfl

theorem bitValue_nonneg (b : Bool) : 0 ≤ bitValue b := by
  cases b <;> simp

/-! ## Loops over the indices -/

section Loops

variable {weights : List ℚ}

theorem foldlM_read_eq_ok (idx : Nat → Nat) (g : Nat → ℚ) :
    ∀ (n : Nat) (a : ℚ), (∀ i < n, idx i < weights.length) →
      (List.range n).foldlM (fun s i => (read weights (idx i)).map fun x => s + x * g i) a =
        .ok (a + ∑ i ∈ Finset.range n, weights.getD (idx i) 0 * g i)
  | 0, a, _ => by simp; rfl
  | n + 1, a, h => by
    rw [List.range_succ, List.foldlM_append,
      foldlM_read_eq_ok idx g n a fun i hi => h i (Nat.lt_succ_of_lt hi), Finset.sum_range_succ,
      ← add_assoc]
    simp only [bind, Except.bind, List.foldlM_cons, List.foldlM_nil,
      read_of_lt (h n (Nat.lt_succ_self n)), Except.map]
    rfl

theorem foldlM_read_eq_error (idx : Nat → Nat) {α : Type} (f : α → Nat → ℚ → α) :
    ∀ (l : List Nat) (a : α), (∃ j ∈ l, weights.length ≤ idx j) →
      l.foldlM (fun s i => (read weights (idx i)).map (f s i)) a = .error outOfRange
  | [], _, ⟨_, hj, _⟩ => absurd hj (List.not_mem_nil _)
  | i :: l, a, ⟨j, hj, hle⟩ => by
    rw [List.foldlM_cons]
    by_cases hi : idx i < weights.length
    · rw [read_of_lt hi]
      refine foldlM_read_eq_error idx f l _ ⟨j, ?_, hle⟩
      rcases List.mem_cons.1 hj with rfl | hj
      · omega
      · exact hj
    · rw [read_of_le (not_lt.1 hi)]
      rfl

theorem foldlM_pointwise {g : List ℚ → Nat → Except String (List ℚ)} (f : Nat → ℚ → ℚ)
    (hg : ∀ ws i, i < ws.length → g ws i = .ok (ws.set i (f i (ws.getD i 0)))) :
    ∀ n, n ≤ weights.length →
      (List.range n).foldlM g weights = .ok (weights.mapIdx fun i x => if i < n then f i x else x)
  | 0, _ => by
    refine congrArg Except.ok (List.ext_getElem (by simp) fun i _ _ => ?_)
    simp
  | n + 1, h => by
    rw [List.range_succ, List.foldlM_append, foldlM_pointwise f hg n (by omega)]
    simp only [bind, Except.bind, List.foldlM_cons, List.foldlM_nil]
    rw [hg _ n (by simp; omega)]
    refine congrArg Except.ok (List.ext_getElem (by simp) fun i h₁ _ => ?_)
    simp only [List.getElem_set, List.getElem_mapIdx, getD_mapIdx, List.length_mapIdx]
    by_cases hi : n = i
    · subst hi
      simp [List.getElem?_eq_getElem (show n < weights.length by omega),
        show n < weights.length by omega]
    · have : i < n + 1 ↔ i < n := by omega
      simp [hi, this]

end Loops

/-! ## Training -/

section Train

variable {W : Type} (predict : W → Datapoint → Except String Bool)
  (update : W → Datapoint → Bool → Except String W)

/-- `train_once`: every example in turn is predicted and learned from. -/
def trainOnce (w : W) (examples : List Datapoint) : Except String W :=
  examples.foldlM (fun w dp => predict w dp >>= update w dp) w

/-- `check_acc`: whether every example is predicted as labelled; it stops at the first that is
not. -/
def checkAcc (w : W) : List Datapoint → Except String Bool
  | [] => .ok true
  | dp :: dps => predict w dp >>= fun pred =>
    if pred = dp.classification then checkAcc w dps else .ok false

/-- `train`: `check_acc`, and while it fails, `train_once` and `check_acc` again, with at most
`fuel` epochs; `none` means the epochs ran out. -/
def train (examples : List Datapoint) (fuel : Nat) (w : W) : Option (Except String W) :=
  match checkAcc predict w examples, fuel with
  | .error e, _ => some (.error e)
  | .ok true, _ => some (.ok w)
  | .ok false, 0 => none
  | .ok false, fuel + 1 =>
    match trainOnce predict update w examples with
    | .error e => some (.error e)
    | .ok w' => train examples fuel w'

/-- The first loop of `execute_algorithm` on one point: an implication example gets the label
`satisfies(dp, X[id])`, and then every bit and the label are inverted. -/
def invertExample (X : Conjunctions) (dp : Datapoint) : Datapoint :=
  { dp with
    intData := dp.intData.map not
    classification :=
      !(if dp.isClassified then dp.classification else Sorcar.satisfies dp (conj X dp.loc)) }

/-- The examples `execute_algorithm` gives the learner of location `i`: the inverted points of
that location, in order. -/
def examplesAt (X : Conjunctions) (datapoints : List Datapoint) (i : Nat) : List Datapoint :=
  (datapoints.map (invertExample X)).filter fun dp => dp.loc = i

/-- The last loop of `execute_algorithm`: the learner of each location, from location `i` on,
trained on the examples of its location. -/
def trainAll (examples : Nat → List Datapoint) (fuel : Nat) :
    Nat → List W → Option (Except String (List W))
  | _, [] => some (.ok [])
  | i, w :: ws =>
    match train predict update (examples i) fuel w with
    | none => none
    | some (.error e) => some (.error e)
    | some (.ok w') => (trainAll examples fuel (i + 1) ws).map (Except.map (w' :: ·))

theorem checkAcc_cons {w : W} {dp : Datapoint} {dps : List Datapoint} {pred : Bool}
    (h : predict w dp = .ok pred) :
    checkAcc predict w (dp :: dps) =
      if pred = dp.classification then checkAcc predict w dps else .ok false := by
  rw [checkAcc, h]
  rfl

theorem trainOnce_cons {w w₁ : W} {dp : Datapoint} {dps : List Datapoint} {pred : Bool}
    (h : predict w dp = .ok pred) (hu : update w dp pred = .ok w₁) :
    trainOnce predict update w (dp :: dps) = trainOnce predict update w₁ dps := by
  rw [trainOnce, List.foldlM_cons, h]
  simp only [bind, Except.bind, hu]
  rfl

/-- On the examples, from a learner that keeps `Inv`, `predict` and `update` succeed and keep
`Inv`. -/
def Safe (Inv : W → Prop) (examples : List Datapoint) : Prop :=
  ∀ w, Inv w → ∀ dp ∈ examples, ∃ pred w', predict w dp = .ok pred ∧
    update w dp pred = .ok w' ∧ Inv w'

/-- A measure of how far a learner is from getting every example right. It is never negative,
and on an example of the list, from a learner that keeps `Inv`, `predict` and `update` succeed
and keep `Inv`; a right prediction changes nothing, a wrong one lowers the measure by `δ` at
least. -/
structure Potential (Inv : W → Prop) (Φ : W → ℚ) (δ : ℚ) (examples : List Datapoint) :
    Prop where
  pos : 0 < δ
  nonneg : ∀ w, Inv w → 0 ≤ Φ w
  step : ∀ w, Inv w → ∀ dp ∈ examples, ∃ pred w', predict w dp = .ok pred ∧
    update w dp pred = .ok w' ∧ Inv w' ∧ (pred = dp.classification → w' = w) ∧
      (pred ≠ dp.classification → Φ w' + δ ≤ Φ w)

variable {predict update} {Inv : W → Prop} {Φ : W → ℚ} {δ : ℚ} {examples : List Datapoint}

theorem Safe.checkAcc_ok (hS : Safe predict update Inv examples) {w : W} (hw : Inv w) :
    ∀ l ⊆ examples, ∃ b, checkAcc predict w l = .ok b
  | [], _ => ⟨true, rfl⟩
  | dp :: l, hl => by
    obtain ⟨pred, -, hp, -⟩ := hS w hw dp (hl (List.mem_cons_self _ _))
    rw [checkAcc_cons predict hp]
    split
    · exact hS.checkAcc_ok hw l fun x hx => hl (List.mem_cons_of_mem _ hx)
    · exact ⟨false, rfl⟩

theorem Potential.safe (hP : Potential predict update Inv Φ δ examples) :
    Safe predict update Inv examples := fun w hw dp hdp =>
  let ⟨pred, w', hp, hu, hw', _⟩ := hP.step w hw dp hdp
  ⟨pred, w', hp, hu, hw'⟩

theorem Potential.trainOnce_le (hP : Potential predict update Inv Φ δ examples) :
    ∀ l ⊆ examples, ∀ w, Inv w → ∃ w', trainOnce predict update w l = .ok w' ∧ Inv w' ∧
      Φ w' ≤ Φ w ∧ (checkAcc predict w l = .ok false → Φ w' + δ ≤ Φ w)
  | [], _, w, hw => ⟨w, rfl, hw, le_rfl, fun h => by cases h⟩
  | dp :: l, hl, w, hw => by
    have hl' : l ⊆ examples := fun x hx => hl (List.mem_cons_of_mem _ hx)
    obtain ⟨pred, w₁, hp, hu, hw₁, hright, hwrong⟩ := hP.step w hw dp (hl (List.mem_cons_self _ _))
    obtain ⟨w', h', hw', hle, hlt⟩ := hP.trainOnce_le l hl' w₁ hw₁
    refine ⟨w', by rw [trainOnce_cons predict update hp hu]; exact h', hw', ?_⟩
    rw [checkAcc_cons predict hp]
    by_cases hc : pred = dp.classification
    · obtain rfl := hright hc
      rw [if_pos hc]
      exact ⟨hle, hlt⟩
    · have := hwrong hc
      rw [if_neg hc]
      exact ⟨by linarith [hP.pos], fun _ => by linarith⟩

theorem Potential.train_of_lt (hP : Potential predict update Inv Φ δ examples) :
    ∀ (fuel : Nat) (w : W), Inv w → Φ w < fuel * δ →
      ∃ w', train predict update examples fuel w = some (.ok w') ∧
        checkAcc predict w' examples = .ok true := by
  intro fuel
  induction fuel with
  | zero =>
    intro w hw hlt
    rw [Nat.cast_zero, zero_mul] at hlt
    linarith [hP.nonneg w hw]
  | succ fuel ih =>
    intro w hw hlt
    obtain ⟨b, hb⟩ := hP.safe.checkAcc_ok hw examples (List.Subset.refl _)
    cases b
    · obtain ⟨w', h', hw', -, hdrop⟩ := hP.trainOnce_le examples (List.Subset.refl _) w hw
      obtain ⟨w'', h'', hc⟩ := ih w' hw' (by push_cast at hlt; linarith [hdrop hb])
      exact ⟨w'', by unfold train; simp only [hb, h']; exact h'', hc⟩
    · exact ⟨w, by unfold train; simp only [hb], hb⟩

/-- A learner with a potential ends `train` after finitely many epochs, with `check_acc`
true. -/
theorem Potential.exists_train_ok (hP : Potential predict update Inv Φ δ examples) {w : W}
    (hw : Inv w) : ∃ fuel w', train predict update examples fuel w = some (.ok w') ∧
      checkAcc predict w' examples = .ok true := by
  obtain ⟨fuel, hfuel⟩ := exists_nat_gt (Φ w / δ)
  exact ⟨fuel, hP.train_of_lt fuel w hw ((div_lt_iff₀ hP.pos).1 hfuel)⟩

theorem train_eq_none_of_fixed {w : W} (hc : checkAcc predict w examples = .ok false)
    (ht : trainOnce predict update w examples = .ok w) :
    ∀ fuel, train predict update examples fuel w = none
  | 0 => by unfold train; simp only [hc]
  | fuel + 1 => by
    unfold train
    simp only [hc, ht]
    exact train_eq_none_of_fixed hc ht fuel

theorem train_of_predict_error {w : W} {dp : Datapoint} {dps : List Datapoint} {e : String}
    (h : predict w dp = .error e) (fuel : Nat) :
    train predict update (dp :: dps) fuel w = some (.error e) := by
  have hc : checkAcc predict w (dp :: dps) = .error e := by rw [checkAcc, h]; rfl
  unfold train
  simp only [hc]

/-! ## Every location -/

theorem trainAll_of_train_error {examples : Nat → List Datapoint} {fuel i : Nat} {w : W}
    {ws : List W} {e : String} (h : train predict update (examples i) fuel w = some (.error e)) :
    trainAll predict update examples fuel i (w :: ws) = some (.error e) := by
  simp only [trainAll, h]

end Train

end Online
end HornVerification
