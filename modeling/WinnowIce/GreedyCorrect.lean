import WinnowIce.GreedyLoops

/-!
# WinnowIce.GreedyCorrect

Rounds of `reduce_predicates_greedy`, and the whole reducer. A round enters the violated Horn
constraints and picks. In a tidy map every pick is undefined behaviour (`erasePicked_of_found`),
so a run returns only through rounds that picked nothing, and then returns `R ∩ X` as it is. On
well-formed examples and an `X` consistent with them, the first round picks exactly when
`R ∩ X` is not consistent.

* `reducePredicatesGreedy_bounds`: what the reducer returns is `R ∩ X`.
* `reducePredicatesGreedy_picks_undefined`: an `R ∩ X` that is not consistent makes the first
  round pick.
* `reducePredicatesGreedy_idle`: an `R ∩ X` that is consistent already comes back as it is,
  after one round.
* `collectNegatives_negativeZeros`: the first pick on negative points that all fail the one
  predicate of `X`.
-/

namespace HornVerification
namespace Sorcar

section Rounds

variable {datapoints : List Datapoint} {hornConstraints : List HornConstraint}

theorem Tidy.of_collectHorns {s : Split} {P P₁ : Predicates} {done : Bool}
    (hT : Tidy datapoints hornConstraints s P)
    (h : collectHorns hornConstraints s P = .ok (P₁, done)) :
    Tidy datapoints hornConstraints s P₁ :=
  let ⟨hs, _, hm⟩ := @mem_collectHorns datapoints _ _ _ _ _ h
  hT.add hs hm

theorem greedyRound_of_tidy {s : Split} {P P₁ : Predicates} {done : Bool}
    (hT : Tidy datapoints hornConstraints s P)
    (h : collectHorns hornConstraints s P = .ok (P₁, done)) :
    greedyRound datapoints hornConstraints s P =
      if (scan P₁).found then some (.error erasedUnderIterator) else some (.ok (s, P₁, done)) := by
  have hT₁ := hT.of_collectHorns h
  by_cases hf : (scan P₁).found = true
  · simp only [greedyRound, h, pickLoop_of_found hT₁ hf, if_pos hf]
  · rw [Bool.not_eq_true] at hf
    simp [greedyRound, h, pickLoop, hf, allEmpty_of_empty (hT₁.not_mem_of_not_found hf), commit]

theorem greedyLoop_of_tidy : ∀ (fuel : Nat) {s s' : Split} {P : Predicates},
    Tidy datapoints hornConstraints s P →
    greedyLoop datapoints hornConstraints fuel s P = some (.ok s') → s' = s
  | 0, _, _, _, _, h => by cases h
  | fuel + 1, s, s', P, hT, h => by
    rw [greedyLoop] at h
    rcases hc : collectHorns hornConstraints s P with e | ⟨P₁, done⟩
    · simp [greedyRound, hc] at h
    · rw [greedyRound_of_tidy hT hc] at h
      by_cases hf : (scan P₁).found = true
      · simp [hf] at h
      · simp only [hf, Bool.false_eq_true, if_false] at h
        split at h
        · exact (Except.ok.inj (Option.some.inj h)).symm
        · exact greedyLoop_of_tidy fuel (hT.of_collectHorns hc) h

end Rounds

/-! ## The reducer -/

section Reducer

variable {datapoints : List Datapoint} {hornConstraints : List HornConstraint} {X R : Conjunctions}

theorem tidy_collectNegatives {s : Split} {P : Predicates}
    (h : collectNegatives datapoints s (.empty s.XmR.length) = .ok P) :
    Tidy datapoints hornConstraints s P := by
  obtain ⟨hs, hm⟩ := mem_collectNegatives h
  exact Tidy.empty.add hs hm

theorem mem_collectNegatives_of_sat {s : Split} {P₀ P : Predicates}
    (h : collectNegatives datapoints s P₀ = .ok P) {d : Nat} {dp : Datapoint}
    (hd : datapoints[d]? = some dp) (hn : dp.isNegative = true) (hR : Sat (conj s.R) dp) {p : Nat}
    (hp : p ∈ relevant s dp) : d ∈ (P.get dp.loc p).first :=
  ((@mem_collectNegatives datapoints [] _ _ _ h).2 .first d dp.loc p).2
    (.inr ⟨rfl, ⟨dp, hd, hn, hR⟩, dp, mem_targets_first.2 hd, rfl, hp⟩)

theorem reducePredicatesGreedy_eq_ok {fuel : Nat} {R' : Conjunctions}
    (h : reducePredicatesGreedy fuel datapoints hornConstraints X R = some (.ok R')) :
    ∃ P r, collectNegatives datapoints (.prepare X R) (.empty X.length) = .ok P ∧
      greedyLoop datapoints hornConstraints fuel (.prepare X R) P = some r ∧
      assertConsistent datapoints hornConstraints r = .ok R' := by
  unfold reducePredicatesGreedy at h
  split_ifs at h
  · cases h
  · cases h
  split at h
  next => cases h
  next P hP =>
    obtain ⟨r, hr, hR'⟩ := Option.map_eq_some'.1 h
    exact ⟨P, r, hP, hr, hR'⟩

theorem reducePredicatesGreedy_ok_eq {fuel : Nat} {R' : Conjunctions}
    (h : reducePredicatesGreedy fuel datapoints hornConstraints X R = some (.ok R')) :
    R' = (prepareSets X R).1 := by
  obtain ⟨P, r, hP, hr, hR'⟩ := reducePredicatesGreedy_eq_ok h
  obtain ⟨s', rfl, rfl⟩ := assertConsistent_eq_ok hR'
  rw [← (Split.Inv.prepare X R).lenXmR] at hP
  rw [greedyLoop_of_tidy fuel (tidy_collectNegatives hP) hr]
  rfl

theorem reducePredicatesGreedy_bounds {fuel : Nat} {R' : Conjunctions}
    (h : reducePredicatesGreedy fuel datapoints hornConstraints X R = some (.ok R')) :
    R'.length = X.length ∧ ∀ k, conj R k ∩ conj X k ⊆ conj R' k ∧ conj R' k ⊆ conj X k := by
  obtain rfl := reducePredicatesGreedy_ok_eq h
  refine ⟨length_prepareSets_fst X R, fun k => ?_⟩
  rw [conj_prepareSets_fst]
  exact ⟨subset_rfl, Finset.inter_subset_right⟩

theorem reducePredicatesGreedy_ok_consistent {fuel : Nat} {R' : Conjunctions}
    (h : reducePredicatesGreedy fuel datapoints hornConstraints X R = some (.ok R')) :
    isConsistent R' datapoints hornConstraints = true :=
  let ⟨_, _, _, _, hR'⟩ := reducePredicatesGreedy_eq_ok h
  isConsistent_of_assertConsistent hR'

theorem collectNegatives_prepare (hwf : WellFormed X.length datapoints hornConstraints) :
    ∃ P, collectNegatives datapoints (.prepare X R) (.empty X.length) = .ok P :=
  collectNegatives_ok _ fun dp m => (Split.Inv.prepare X R).lenR ▸ hwf.datapoints dp m

/-- On well-formed examples and an `X` consistent with them, an `R ∩ X` that is not consistent
makes the first round pick: a negative point that satisfies it, or a Horn constraint it
violates, has a predicate of `X \ R` that fixes it. The pick is undefined behaviour. -/
theorem reducePredicatesGreedy_picks_undefined
    (hwf : WellFormed X.length datapoints hornConstraints) (hlen : X.length = R.length)
    (hX : isConsistent X datapoints hornConstraints = true) (hX0 : X ≠ [])
    (hR : isConsistent (prepareSets X R).1 datapoints hornConstraints = false) (fuel : Nat) :
    reducePredicatesGreedy (fuel + 1) datapoints hornConstraints X R =
      some (.error erasedUnderIterator) := by
  have hXc := (isConsistent_iff _ _ _).1 hX
  have hs := Split.Inv.prepare X R
  obtain ⟨P, hP⟩ := collectNegatives_prepare (R := R) hwf
  have hT : Tidy datapoints hornConstraints (.prepare X R) P :=
    tidy_collectNegatives (by rwa [hs.lenXmR])
  obtain ⟨⟨P₁, done⟩, hc⟩ := collectHorns_ok P fun hc m dp hp => hs.lenR ▸ hwf.premises hc m dp hp
  obtain ⟨-, -, hm₁⟩ := @mem_collectHorns datapoints _ _ _ _ _ hc
  have hfound : (scan P₁).found = true := by
    by_contra hnf
    have hempty := (hT.of_collectHorns hc).not_mem_of_not_found (Bool.eq_false_iff.2 hnf)
    refine Bool.false_ne_true (hR.symm.trans ((isConsistent_iff _ _ _).2
      ⟨fun dp m hp => Sat.of_subset (hs.le dp.loc) (hXc.positives dp m hp),
        fun dp m hn hsat => ?_, fun hc' m => ?_⟩))
    · obtain ⟨d, hd⟩ := List.mem_iff_getElem?.1 m
      obtain ⟨q, hq⟩ := hs.relevant_nonempty hsat (hXc.negatives dp m hn)
      exact hempty .first d dp.loc q
        ((hm₁ .first d dp.loc q).2 (.inl (mem_collectNegatives_of_sat hP hd hn hsat hq)))
    · by_contra hv
      obtain ⟨n, hn⟩ := List.mem_iff_getElem?.1 m
      obtain ⟨dp, hdp, p, hp⟩ := exists_relevant_of_violated hs (hXc.horns hc' m) hv
      exact hempty .second n dp.loc p ((hm₁ .second n dp.loc p).2
        (.inr ⟨rfl, ⟨hc', hn, hv⟩, dp, mem_targets_second.2 ⟨hc', hn, hdp⟩, rfl, hp⟩))
  rw [reducePredicatesGreedy, if_neg (by simpa using hX0), if_neg (by omega), hP]
  simp only [greedyLoop, greedyRound_of_tidy hT hc, if_pos hfound, Option.map_some']
  rfl

theorem erasures_mem_picked {datapoints : List Datapoint} {hornConstraints : List HornConstraint}
    {s : Split} {P : Predicates} (hT : Tidy datapoints hornConstraints s P) {σ : Side}
    {x i p : Nat} (hx : x ∈ (P.get i p).side σ) :
    (x, i, p) ∈ erasures datapoints hornConstraints s σ ((P.get i p).side σ) :=
  mem_erasures.2 ⟨hx, hT.sound σ x i p hx⟩

theorem collectNegatives_negativeZeros (n : Nat) :
    ∃ P, collectNegatives (List.replicate n negativeZero) (.prepare [{0}] [∅]) (.empty 1) = .ok P ∧
      Tidy (List.replicate n negativeZero) [] (.prepare [{0}] [∅]) P ∧
      (∀ d < n, d ∈ (P.get 0 0).first) ∧
      (0 < n → (scan P).found = true ∧ (scan P).id = 0 ∧ (scan P).p = 0) := by
  have hs := Split.Inv.prepare [{0}] [∅]
  have hXmR : conj (Split.prepare [{0}] [∅]).XmR 0 = {0} := by
    rw [Split.prepare_XmR, conj_prepareSets_snd]
    decide
  obtain ⟨P, hP⟩ : ∃ P, collectNegatives (List.replicate n negativeZero) (.prepare [{0}] [∅])
      (.empty 1) = .ok P := collectNegatives_ok _ fun dp m => by
    rw [List.eq_of_mem_replicate m, hs.lenR]
    decide
  have hT : Tidy (List.replicate n negativeZero) [] (.prepare [{0}] [∅]) P :=
    tidy_collectNegatives (by rw [hs.lenXmR]; exact hP)
  have hmem : ∀ d < n, d ∈ (P.get 0 0).first := fun d hd =>
    mem_collectNegatives_of_sat hP (List.getElem?_replicate_of_lt hd) rfl
      (by rw [Sat, Split.prepare_R, conj_prepareSets_fst]; decide)
      (by rw [relevant, show negativeZero.loc = 0 from rfl, hXmR]; decide)
  refine ⟨P, hP, hT, hmem, fun hn => ?_⟩
  have hfound : (scan P).found = true := by
    by_contra h
    exact hT.not_mem_of_not_found (Bool.eq_false_iff.2 h) .first 0 0 0 (hmem 0 hn)
  obtain ⟨hi, -, hc⟩ := scan_found hfound
  obtain ⟨σ, x, hx⟩ := exists_mem_of_count_pos hc
  have hid : (scan P).id = 0 := Nat.lt_one_iff.1 (by rwa [hT.size, hs.lenXmR] at hi)
  have hp := (hT.sound σ x _ _ hx).mem_XmR
  rw [hid, hXmR, Finset.mem_singleton] at hp
  exact ⟨hfound, hid, hp⟩

/-- On one negative point at location `0` with its only bit false, `X = [{0}]` and `R = [∅]`,
the first pick is the entry `(0, 0)`, which holds the point, and the loop over that entry's
points calls `predicates.at(0).at(0).first.erase(0)`: it erases from the set it traverses the
element it is at. -/
theorem reducePredicatesGreedy_erases_traversed :
    ∃ P, collectNegatives [negativeZero] (.prepare [{0}] [∅]) (.empty 1) = .ok P ∧
      collectHorns [] (.prepare [{0}] [∅]) P = .ok (P, true) ∧
      (scan P).found = true ∧ (scan P).id = 0 ∧ (scan P).p = 0 ∧ 0 ∈ (P.get 0 0).first ∧
      (0, 0, 0) ∈ erasures [negativeZero] [] (.prepare [{0}] [∅]) .first (P.get 0 0).first := by
  obtain ⟨P, hP, hT, hmem, hpick⟩ := collectNegatives_negativeZeros 1
  obtain ⟨hfound, hid, hp⟩ := hpick Nat.one_pos
  exact ⟨P, hP, rfl, hfound, hid, hp, hmem 0 Nat.one_pos, erasures_mem_picked hT (hmem 0 Nat.one_pos)⟩

/-- On that one point the examples are well formed and consistent with `X`, and every run,
however many rounds it is given, ends at its first pick in undefined behaviour. -/
theorem reducePredicatesGreedy_first_pick_undefined :
    WellFormed [({0} : Finset Nat)].length [negativeZero] [] ∧
      [({0} : Finset Nat)].length = [(∅ : Finset Nat)].length ∧
      isConsistent [{0}] [negativeZero] [] = true ∧
      ∀ fuel, reducePredicatesGreedy (fuel + 1) [negativeZero] [] [{0}] [∅] =
        some (.error erasedUnderIterator) :=
  have hwf : WellFormed [({0} : Finset Nat)].length [negativeZero] [] :=
    ⟨by decide, by simp, by simp⟩
  ⟨hwf, rfl, by decide, reducePredicatesGreedy_picks_undefined hwf rfl (by decide)
    (List.cons_ne_nil _ _) (by rw [prepareSets_eq]; decide)⟩

end Reducer

/-! ## An `R` that is already consistent -/

section Idle

variable {datapoints : List Datapoint} {hornConstraints : List HornConstraint} {X R : Conjunctions}

theorem pickLoop_of_empty {s : Split} {P : Predicates} (h : ∀ σ y i p, y ∉ (P.get i p).side σ)
    (fuel : Nat) (picked : List (Nat × Nat)) :
    pickLoop datapoints hornConstraints s (fuel + 1) P picked = some (.ok (P, picked)) := by
  have hnf : (scan P).found = false := by
    by_contra hf
    obtain ⟨-, -, hc⟩ := scan_found (Bool.eq_true_of_not_eq_false hf)
    obtain ⟨σ, x, hx⟩ := exists_mem_of_count_pos hc
    exact h σ x _ _ hx
  rw [pickLoop, if_neg (by simp [hnf])]

theorem greedyLoop_idle {s : Split} {P : Predicates}
    (hl : ∀ hc ∈ hornConstraints, ∀ p ∈ hc.premises, p.loc < s.R.length)
    (hh : ∀ hc ∈ hornConstraints, HornSat (conj s.R) hc) (hP : ∀ σ y i p, y ∉ (P.get i p).side σ)
    (fuel : Nat) : greedyLoop datapoints hornConstraints (fuel + 1) s P = some (.ok s) := by
  obtain ⟨⟨P₁, done⟩, hc⟩ := collectHorns_ok P hl
  obtain ⟨-, hdone, hm⟩ := @mem_collectHorns datapoints _ _ _ _ _ hc
  have hP₁ : ∀ σ y i p, y ∉ (P₁.get i p).side σ := fun σ y i p hy => by
    rcases (hm σ y i p).1 hy with h | ⟨-, ⟨hc', hy', hv⟩, -⟩
    · exact hP σ y i p h
    · exact hv (hh hc' (List.mem_iff_getElem?.2 ⟨y, hy'⟩))
  simp only [greedyLoop, greedyRound, hc, pickLoop_of_empty hP₁, allEmpty_of_empty hP₁, if_true,
    hdone.2 hh, List.isEmpty_nil, Bool.and_self]
  rfl

theorem reducePredicatesGreedy_idle (hwf : WellFormed X.length datapoints hornConstraints)
    (hX0 : X ≠ []) (hlen : X.length = R.length)
    (hc : isConsistent (prepareSets X R).1 datapoints hornConstraints = true) (fuel : Nat) :
    reducePredicatesGreedy (fuel + 1) datapoints hornConstraints X R =
      some (.ok (prepareSets X R).1) := by
  have hcons := (isConsistent_iff _ _ _).1 hc
  have hs := Split.Inv.prepare X R
  obtain ⟨P, hP⟩ := collectNegatives_prepare (R := R) hwf
  obtain ⟨-, hm⟩ := @mem_collectNegatives datapoints hornConstraints _ _ _ hP
  have hP' : ∀ σ y i p, y ∉ (P.get i p).side σ := fun σ y i p hy => by
    rcases (hm σ y i p).1 hy with h | ⟨-, ⟨dp, hd, hn, hR⟩, -⟩
    · simp [Predicates.get, Predicates.empty] at h
    · exact hcons.negatives dp (List.mem_iff_getElem?.2 ⟨y, hd⟩) hn hR
  have hl : ∀ hc ∈ hornConstraints, ∀ p ∈ hc.premises, p.loc < (Split.prepare X R).R.length :=
    fun hc m p hp => hs.lenR ▸ hwf.premises hc m p hp
  rw [reducePredicatesGreedy, if_neg (by simpa using hX0), if_neg (by omega), hP]
  simp only [greedyLoop_idle hl hcons.horns hP', Option.map_some', assertConsistent,
    checkConsistent, Split.prepare_R, hc, if_true]

end Idle

end Sorcar
end HornVerification
