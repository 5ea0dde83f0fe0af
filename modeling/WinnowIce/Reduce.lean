import WinnowIce.PrepareSets

/-!
# WinnowIce.Reduce

The two Sorcar reducers that fix violations one at a time and drop what they fixed:
`sorcar::reduce_predicates_all` adds every relevant predicate, `sorcar::reduce_predicates_first`
the first one. A predicate is *relevant* to a point when it is in `X_minus_R` at the point's
location and the point has it false. Both reducers check their arguments, run `prepare_sets`,
make one pass over the negative points, and repeat passes over the Horn constraints until a
pass fixes nothing. Assertions of the code are errors of the model, with the asserted
expression as message.

* `Split`: a reducer's state, `R` and `X_minus_R`; `Split.Inv` is `R ⊆ X` and
  `X_minus_R = X \ R`.
* `reduceWith`: the shape both reducers share, applied to their own negative step and Horn fix.
* `hornPass`, `hornLoop`: the passes over the Horn constraints.
-/

namespace HornVerification
namespace Sorcar

/-- The two vectors a reducer updates: `R`, and `X_minus_R`. -/
structure Split where
  R : Conjunctions
  XmR : Conjunctions

/-- `R` and `X_minus_R` as `prepare_sets(X, R, X_minus_R)` leaves them. -/
def Split.prepare (X R : Conjunctions) : Split := ⟨(prepareSets X R).1, (prepareSets X R).2⟩

/-- The predicates of `X_minus_R[dp.loc]` that `dp` has false. -/
def relevant (s : Split) (dp : Datapoint) : Finset Nat :=
  (conj s.XmR dp.loc).filter fun i => dp.bit i = false

def Split.move (s : Split) (k : Nat) (P : Finset Nat) : Split :=
  ⟨s.R.modify (· ∪ P) k, s.XmR.modify (· \ P) k⟩

/-- The loop over `X_minus_R[id]` that moves to `R` every predicate `dp` has false. -/
def addAll (s : Split) (dp : Datapoint) : Split := s.move dp.loc (relevant s dp)

/-- The same loop with `break` after the first move: the least relevant predicate, if any. -/
def addFirst (s : Split) (dp : Datapoint) : Option Split :=
  if h : (relevant s dp).Nonempty then some (s.move dp.loc {(relevant s dp).min' h}) else none

/-- The negative-point step of `reduce_predicates_all`: a negative point that satisfies `R`
gets all its relevant predicates. The code asserts that the point does not satisfy `X`, and
that `R[id]` grew. -/
def negativeAll (X : Conjunctions) (s : Split) (dp : Datapoint) : Except String Split :=
  if dp.isNegative && satisfies dp (conj s.R dp.loc) then
    if satisfies dp (conj X dp.loc) then .error "assert(!satisfies(dp, X[id]))"
    else if (conj s.R dp.loc).card < (conj (addAll s dp).R dp.loc).card then .ok (addAll s dp)
    else .error "assert(size_before < R[id].size())"
  else .ok s

/-- The negative-point step of `reduce_predicates_first`: the first relevant predicate. The
code asserts that `R[id]` grew. -/
def negativeFirst (s : Split) (dp : Datapoint) : Except String Split :=
  if dp.isNegative && satisfies dp (conj s.R dp.loc) then
    if (conj s.R dp.loc).card < (conj ((addFirst s dp).getD s).R dp.loc).card then
      .ok ((addFirst s dp).getD s)
    else .error "assert(size_before < R[id].size())"
  else .ok s

/-- `reduce_predicates_all` on a violated Horn constraint: all relevant predicates of every
premise, premise after premise. -/
def fixAll (hc : HornConstraint) (s : Split) : Except String Split :=
  .ok (hc.premises.foldl addAll s)

/-- `reduce_predicates_first` on a violated Horn constraint: the first relevant predicate of
the first premise that has one. The code asserts that there is one. -/
def fixFirst (hc : HornConstraint) (s : Split) : Except String Split :=
  match hc.premises.findSome? (addFirst s) with
  | some s' => .ok s'
  | none => .error "assert(added)"

/-- The loop computing `lhs_satisfied`: premise after premise, assert that its location is one
of `R`, and stop at the first premise that does not satisfy `R`. The text of the assertion
differs between the reducers. -/
def lhsCheck (assertion : String) (R : Conjunctions) : List Datapoint → Except String Bool
  | [] => .ok true
  | dp :: rest =>
    if dp.loc < R.length then
      if satisfies dp (conj R dp.loc) then lhsCheck assertion R rest else .ok false
    else .error assertion

/-- The `lhs_satisfied` loop of `reduce_predicates_all`, `_first` and `_greedy`. -/
def lhsSatisfied (R : Conjunctions) (premises : List Datapoint) : Except String Bool :=
  lhsCheck "assert(dp->_categorical_data[0] >= 0 && dp->_categorical_data[0] < R.size())" R
    premises

def conclusionSatisfied (R : Conjunctions) (hc : HornConstraint) : Bool :=
  match hc.conclusion with
  | some c => satisfies c (conj R c.loc)
  | none => false

/-- One pass of the inner `while` over the Horn list: a constraint with a false premise is
dropped, a satisfied one is kept, a violated one is fixed and dropped. The flag is
`added_relevant_predicate`: it stays true when the pass fixed nothing. -/
def hornPass (fix : HornConstraint → Split → Except String Split) :
    Split → List HornConstraint → Except String (Split × List HornConstraint × Bool)
  | s, [] => .ok (s, [], true)
  | s, hc :: rest =>
    match lhsSatisfied s.R hc.premises with
    | .error e => .error e
    | .ok false => hornPass fix s rest
    | .ok true =>
      if conclusionSatisfied s.R hc then
        (hornPass fix s rest).map fun r => (r.1, hc :: r.2.1, r.2.2)
      else
        match fix hc s with
        | .error e => .error e
        | .ok s' => (hornPass fix s' rest).map fun r => (r.1, r.2.1, false)

/-- The `do … while (!added_relevant_predicate)` loop with at most `fuel` passes; `none` means
the passes ran out. -/
def hornLoop (fix : HornConstraint → Split → Except String Split) :
    Nat → Split → List HornConstraint → Option (Except String Split)
  | 0, _, _ => none
  | fuel + 1, s, hcs =>
    match hornPass fix s hcs with
    | .error e => some (.error e)
    | .ok (s', hcs', added) => if added then some (.ok s') else hornLoop fix fuel s' hcs'

/-- The body of the loop over the data points: assert that the location is one of `R`, then the
variant's negative step. -/
def checkLocation (negative : Split → Datapoint → Except String Split) (s : Split)
    (dp : Datapoint) : Except String Split :=
  if dp.loc < s.R.length then negative s dp else .error "assert(id >= 0 && id < R.size())"

/-- The debug check `assert(is_consistent(R, datapoints, horn_constraints))` that ends every
reducer. -/
def checkConsistent (datapoints : List Datapoint) (hornConstraints : List HornConstraint)
    (R : Conjunctions) : Except String Conjunctions :=
  if isConsistent R datapoints hornConstraints then .ok R
  else .error "assert(is_consistent(R, datapoints, horn_constraints))"

/-- The debug check on the outcome of a reducer's loops. -/
def assertConsistent (datapoints : List Datapoint) (hornConstraints : List HornConstraint) :
    Except String Split → Except String Conjunctions
  | .error e => .error e
  | .ok s => checkConsistent datapoints hornConstraints s.R

/-- The shape `reduce_predicates_all` and `reduce_predicates_first` share: check the arguments,
`prepare_sets`, one pass over the data points, the Horn loop with one pass more than there are
constraints, and the debug check. -/
def reduceWith (negative : Split → Datapoint → Except String Split)
    (fix : HornConstraint → Split → Except String Split) (datapoints : List Datapoint)
    (hornConstraints : List HornConstraint) (X R : Conjunctions) :
    Option (Except String Conjunctions) :=
  if X.isEmpty then some (.error "X must not be empty")
  else if X.length ≠ R.length then some (.error "R and X must be of same size")
  else
    match datapoints.foldlM (checkLocation negative) (.prepare X R) with
    | .error e => some (.error e)
    | .ok s => (hornLoop fix (hornConstraints.length + 1) s hornConstraints).map
        (assertConsistent datapoints hornConstraints)

/-- `sorcar::reduce_predicates_all(datapoints, horn_constraints, X, R)`: the new `R`. -/
def reducePredicatesAll (datapoints : List Datapoint) (hornConstraints : List HornConstraint)
    (X R : Conjunctions) : Option (Except String Conjunctions) :=
  reduceWith (negativeAll X) fixAll datapoints hornConstraints X R

/-- `sorcar::reduce_predicates_first(datapoints, horn_constraints, X, R)`: the new `R`. -/
def reducePredicatesFirst (datapoints : List Datapoint) (hornConstraints : List HornConstraint)
    (X R : Conjunctions) : Option (Except String Conjunctions) :=
  reduceWith negativeFirst fixFirst datapoints hornConstraints X R

theorem lhsCheck_sound {assertion : String} {R : Conjunctions} {ps : List Datapoint} {b : Bool}
    (h : lhsCheck assertion R ps = .ok b) : b = decide (∀ p ∈ ps, Sat (conj R) p) := by
  induction ps with
  | nil => cases h; simp
  | cons p ps ih =>
    simp only [lhsCheck] at h
    split_ifs at h with hl hs
    · simp [ih h, Sat, hs]
    · cases h; simp [Sat, hs]

theorem lhsCheck_of_valid {assertion : String} {R : Conjunctions} {ps : List Datapoint}
    (h : ∀ p ∈ ps, p.loc < R.length) :
    lhsCheck assertion R ps = .ok (decide (∀ p ∈ ps, Sat (conj R) p)) := by
  induction ps with
  | nil => simp [lhsCheck]
  | cons p ps ih =>
    rw [lhsCheck, if_pos (h p (List.mem_cons_self _ _))]
    split
    · simp [ih fun q hq => h q (List.mem_cons_of_mem _ hq), Sat, *]
    · simp [Sat, *]

theorem conclusionSatisfied_iff {R : Conjunctions} {hc : HornConstraint} :
    conclusionSatisfied R hc = true ↔ ∃ c, hc.conclusion = some c ∧ Sat (conj R) c := by
  rcases hc with ⟨ps, _ | c⟩ <;> simp [conclusionSatisfied, Sat]

/-! ## The invariant of a split, and moves -/

/-- `R ⊆ X` and `X_minus_R = X \ R` at every location, both vectors as long as `X`. -/
structure Split.Inv (X : Conjunctions) (s : Split) : Prop where
  lenR : s.R.length = X.length
  lenXmR : s.XmR.length = X.length
  le : ∀ k, conj s.R k ⊆ conj X k
  diff : ∀ k, conj s.XmR k = conj X k \ conj s.R k

/-- `R` only gained predicates from `s` to `s'`. -/
def Split.Grows (s s' : Split) : Prop := ∀ k, conj s.R k ⊆ conj s'.R k

theorem Split.Grows.refl (s : Split) : s.Grows s := fun _ => subset_rfl

theorem Split.Grows.trans {s t u : Split} (h₁ : s.Grows t) (h₂ : t.Grows u) : s.Grows u :=
  fun k => (h₁ k).trans (h₂ k)

theorem Split.Grows.not_sat {s s' : Split} (h : s.Grows s') {dp : Datapoint}
    (hd : ¬ Sat (conj s.R) dp) : ¬ Sat (conj s'.R) dp :=
  fun h' => hd (Sat.of_subset (h dp.loc) h')

@[simp] theorem Split.prepare_R (X R : Conjunctions) :
    (Split.prepare X R).R = (prepareSets X R).1 := rfl

@[simp] theorem Split.prepare_XmR (X R : Conjunctions) :
    (Split.prepare X R).XmR = (prepareSets X R).2 := rfl

theorem Split.Inv.prepare (X R : Conjunctions) : (Split.prepare X R).Inv X where
  lenR := length_prepareSets_fst X R
  lenXmR := length_prepareSets_snd X R
  le k := by rw [Split.prepare_R, conj_prepareSets_fst]; exact Finset.inter_subset_right
  diff k := by
    rw [Split.prepare_R, Split.prepare_XmR, conj_prepareSets_fst, conj_prepareSets_snd,
      Finset.sdiff_inter_self_right]

section Move

variable {X : Conjunctions} {s : Split} {k : Nat} {P : Finset Nat}

theorem Split.Inv.xmr_subset (hs : s.Inv X) (k : Nat) : conj s.XmR k ⊆ conj X k :=
  hs.diff k ▸ Finset.sdiff_subset

theorem Split.Inv.conj_move_R (hs : s.Inv X) (hP : P ⊆ conj X k) (j : Nat) :
    conj (s.move k P).R j = if k = j then conj s.R j ∪ P else conj s.R j := by
  rw [Split.move, conj_modify]
  by_cases hkj : k = j
  · subst hkj
    by_cases hk : k < s.R.length
    · simp [hk]
    · rw [conj_of_length_le (by rw [← hs.lenR]; omega)] at hP
      simp [hk, Finset.subset_empty.1 hP]
  · simp [hkj]

theorem conj_move_XmR (s : Split) (k : Nat) (P : Finset Nat) (j : Nat) :
    conj (s.move k P).XmR j = if k = j then conj s.XmR j \ P else conj s.XmR j :=
  @conj_modify_of_empty s.XmR (· \ P) (Finset.empty_sdiff P) k j

theorem Split.Inv.move (hs : s.Inv X) (hP : P ⊆ conj X k) :
    (s.move k P).Inv X ∧ s.Grows (s.move k P) := by
  refine ⟨⟨by simp [Split.move, hs.lenR], by simp [Split.move, hs.lenXmR], fun j => ?_,
    fun j => ?_⟩, fun j => ?_⟩ <;> rw [hs.conj_move_R hP] <;> try rw [conj_move_XmR]
  · split
    · subst_vars
      exact Finset.union_subset (hs.le _) hP
    · exact hs.le j
  · split
    · rw [hs.diff, sdiff_sdiff_left]; rfl
    · exact hs.diff j
  · split
    · exact Finset.subset_union_left
    · exact subset_rfl

theorem Split.Inv.relevant_nonempty (hs : s.Inv X) {dp : Datapoint}
    (hR : Sat (conj s.R) dp) (hX : ¬ Sat (conj X) dp) : (relevant s dp).Nonempty := by
  simp only [Sat, satisfies_iff, not_forall, Bool.not_eq_true] at hR hX
  obtain ⟨i, hi, hb⟩ := hX
  refine ⟨i, Finset.mem_filter.2 ⟨?_, hb⟩⟩
  rw [hs.diff, Finset.mem_sdiff]
  exact ⟨hi, fun h => by simp [hR i h] at hb⟩

theorem Split.Inv.move_relevant (hs : s.Inv X) {dp : Datapoint} (hP : P ⊆ relevant s dp)
    (hne : P.Nonempty) :
    ¬ Sat (conj (s.move dp.loc P).R) dp ∧
      (conj s.R dp.loc).card < (conj (s.move dp.loc P).R dp.loc).card := by
  have hPX : P ⊆ conj s.XmR dp.loc := hP.trans (Finset.filter_subset _ _)
  have hR : conj (s.move dp.loc P).R dp.loc = conj s.R dp.loc ∪ P := by
    rw [hs.conj_move_R (hPX.trans (hs.xmr_subset _)), if_pos rfl]
  unfold Sat
  rw [hR]
  obtain ⟨i, hi⟩ := hne
  refine ⟨fun h => ?_, Finset.card_lt_card ⟨Finset.subset_union_left, fun h => ?_⟩⟩
  · have := satisfies_iff.1 h i (Finset.mem_union_right _ hi)
    simp [(Finset.mem_filter.1 (hP hi)).2] at this
  · have hiR := h (Finset.mem_union_right _ hi)
    have := hPX hi
    rw [hs.diff, Finset.mem_sdiff] at this
    exact this.2 hiR

end Move

end Sorcar
end HornVerification
