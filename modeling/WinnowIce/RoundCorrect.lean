import WinnowIce.Round
import WinnowIce.HorndiniCorrect
import Mathlib.Algebra.BigOperators.Ring

/-!
# WinnowIce.RoundCorrect

What the CEGIS loop of `WinnowIce.Round` guarantees over whole runs. The state a round hands to
the next is Horndini's `X` and the hypothesis `H` it wrote, `H` within `X` within the
intervals (`Reached`). The teacher only adds examples, so `X` only shrinks, and without `-r`
every reducer keeps `H ∩ X'` of the `.R` file it reads back, so `H` keeps what stays in `X`
(`Advance`). The measure `Σ_k |X[k]| + Σ_k |X[k] \ H[k]|` then drops whenever the state
changes, and a refuted hypothesis must change.

* `run_invariant`: over every run without `-r` on growing examples, each hypothesis is
  consistent with its round's examples, and the states advance.
* `run_consistent`: under any options, every hypothesis written lies within the intervals and
  is consistent with its round's examples.
* `run_converges`: a run without `-r` in which the teacher refutes every hypothesis lasts at
  most `2·P + 1` rounds, `P` the number of predicates of the intervals.
* `run_writes_horndini`: without `-r`, under `-f` or `-t` every round writes Horndini's `X`.
* `round_total`: a round whose reducer is not the greedy one returns a hypothesis exactly when
  some conjunction within the intervals is consistent with its examples, and otherwise names
  which check failed.
* `run_total`: such a run writes a hypothesis in every round exactly when every round's
  examples admit one.
-/

namespace HornVerification
namespace Main

open Sorcar

/-- The conjunctions Horndini starts from: `[lo_k, hi_k]` at location `k`. -/
def startSets (intervals : List (UInt32 × UInt32)) : Conjunctions :=
  intervals.map fun i => Finset.Icc i.1.toNat i.2.toNat

/-- A state a round reaches: Horndini's `X` within the intervals and the hypothesis `H` within
`X`, both with one conjunction per interval. -/
structure Reached (intervals : List (UInt32 × UInt32)) (X H : Conjunctions) : Prop where
  lenX : X.length = intervals.length
  lenH : H.length = intervals.length
  start : ∀ k, conj X k ⊆ conj (startSets intervals) k
  le : ∀ k, conj H k ⊆ conj X k

/-- From one round to the next: `X` shrinks, and `H` keeps every predicate that stays in `X`. -/
structure Advance (X H X' H' : Conjunctions) : Prop where
  shrink : ∀ k, conj X' k ⊆ conj X k
  keep : ∀ k, conj H k ∩ conj X' k ⊆ conj H' k

/-- The measure of a state over `L` locations: `Σ_k |X[k]| + Σ_k |X[k] \ H[k]|`. -/
def measure (L : Nat) (X H : Conjunctions) : Nat :=
  ∑ k ∈ Finset.range L, ((conj X k).card + (conj X k \ conj H k).card)

/-! ## The measure -/

section Measure

variable {L : Nat} {X H X' H' : Conjunctions}

theorem Advance.sdiff_subset (hA : Advance X H X' H') (k : Nat) :
    conj X' k \ conj H' k ⊆ conj X k \ conj H k := fun p hp => by
  obtain ⟨hx, hh⟩ := Finset.mem_sdiff.1 hp
  exact Finset.mem_sdiff.2 ⟨hA.shrink k hx, fun h => hh (hA.keep k (Finset.mem_inter.2 ⟨h, hx⟩))⟩

theorem Advance.measure_lt (hA : Advance X H X' H') (hle : ∀ k, conj H k ⊆ conj X k)
    (hle' : ∀ k, conj H' k ⊆ conj X' k) {k : Nat} (hk : k < L)
    (hne : conj X' k ≠ conj X k ∨ conj H' k ≠ conj H k) : measure L X' H' < measure L X H := by
  refine Finset.sum_lt_sum (fun j _ => Nat.add_le_add (Finset.card_le_card (hA.shrink j))
    (Finset.card_le_card (hA.sdiff_subset j))) ⟨k, Finset.mem_range.2 hk, ?_⟩
  by_cases hX : conj X' k = conj X k
  · have hH : conj H' k ≠ conj H k := hne.resolve_left (not_not.2 hX)
    have hsd : conj X' k \ conj H' k ≠ conj X k \ conj H k := fun h => hH <| by
      rw [← Finset.sdiff_sdiff_eq_self (hle' k), ← Finset.sdiff_sdiff_eq_self (hle k), h, hX]
    rw [hX]
    exact Nat.add_lt_add_left (Finset.card_lt_card (Finset.ssubset_iff_subset_ne.2
      ⟨hX ▸ hA.sdiff_subset k, hX ▸ hsd⟩)) _
  · exact Nat.add_lt_add_of_lt_of_le
      (Finset.card_lt_card (Finset.ssubset_iff_subset_ne.2 ⟨hA.shrink k, hX⟩))
      (Finset.card_le_card (hA.sdiff_subset k))

end Measure

theorem sum_card_startSets (intervals : List (UInt32 × UInt32)) :
    (intervals.map fun i => i.2.toNat + 1 - i.1.toNat).sum =
      ∑ k ∈ Finset.range intervals.length, (conj (startSets intervals) k).card := by
  simpa [totalSize, startSets, Function.comp_def] using totalSize_eq_sum (startSets intervals)

theorem Reached.measure_le {intervals : List (UInt32 × UInt32)} {X H : Conjunctions}
    (hR : Reached intervals X H) :
    measure intervals.length X H ≤ 2 * (intervals.map fun i => i.2.toNat + 1 - i.1.toNat).sum := by
  rw [sum_card_startSets, Finset.mul_sum]
  refine Finset.sum_le_sum fun k _ => ?_
  have h₁ := Finset.card_le_card (hR.start k)
  have h₂ : (conj X k \ conj H k).card ≤ (conj X k).card := Finset.card_le_card Finset.sdiff_subset
  omega

theorem Reached.lt {intervals : List (UInt32 × UInt32)} {X H : Conjunctions}
    (hR : Reached intervals X H) : ∀ S ∈ H, ∀ p ∈ S, p < 2 ^ 32 := by
  intro S hS p hp
  obtain ⟨k, hk, rfl⟩ := List.mem_iff_getElem.1 hS
  have hp' := hR.start k (hR.le k (by simpa [conj, List.getD_eq_getElem?_getD, hk] using hp))
  simp only [conj, startSets, List.getD_eq_getElem?_getD, List.getElem?_map] at hp'
  cases hi : intervals[k]? with
  | none => simp [hi] at hp'
  | some i =>
    simp only [hi, Option.map_some', Option.getD_some, Finset.mem_Icc] at hp'
    exact lt_of_le_of_lt hp'.2 i.2.toNat_lt_size

theorem Reached.readRFile {intervals : List (UInt32 × UInt32)} {X H : Conjunctions}
    (hR : Reached intervals X H) : readRFile (writeRFile H) = H := by
  by_cases hH : H = []
  · subst hH
    rfl
  · exact readRFile_writeRFile_of_ne_nil hH hR.lt

theorem Reached.le_start {intervals : List (UInt32 × UInt32)} {X H : Conjunctions}
    (hR : Reached intervals X H) (k : Nat) : conj H k ⊆ conj (startSets intervals) k :=
  (hR.le k).trans (hR.start k)

/-! ## One round -/

section Round

variable {solve : Solver} {fuel : Nat} {opts : Options} {roundNo : Nat}
  {intervals : List (UInt32 × UInt32)}

theorem reduce_ok {alg : Algorithm} {datapoints : List Datapoint}
    {hornConstraints : List HornConstraint} {X R R' : Conjunctions}
    (h : reduce solve fuel alg datapoints hornConstraints X R = some (.ok R')) :
    Within X R R' ∧ isConsistent R' datapoints hornConstraints = true := by
  cases alg with
  | sorcarFirst =>
    exact ⟨reduceWith_bounds negativeFirst_safe fixFirst_safe h, reduceWith_ok_consistent h⟩
  | sorcarGreedy => exact ⟨reducePredicatesGreedy_bounds h, reducePredicatesGreedy_ok_consistent h⟩
  | sorcarMinimal =>
    have h' := Option.some.inj h
    exact ⟨reducePredicatesMinimal_bounds h', reducePredicatesMinimal_ok_consistent h'⟩
  | horndini | sorcar =>
    exact ⟨reduceWith_bounds negativeAll_safe fixAll_safe h, reduceWith_ok_consistent h⟩

theorem round_eq_reduce (opts : Options) (roundNo : Nat) {datapoints : List Datapoint}
    {hornConstraints : List HornConstraint} {rFile : List Char} {X : Conjunctions}
    (hX : horndiniIntervals datapoints hornConstraints intervals = some (.ok X))
    (hc : isConsistent X datapoints hornConstraints = true) (halg : opts.alg ≠ .horndini)
    (hrun : runsSorcar opts roundNo = true) :
    round solve fuel opts roundNo datapoints hornConstraints intervals rFile =
      (reduce solve fuel opts.alg datapoints hornConstraints X
        (prepareR opts roundNo X rFile)).map (Except.map fun R => ⟨R, writeRFile R⟩) := by
  simp only [round, hX, hc, Bool.not_true, Bool.false_eq_true, if_false, halg, hrun, if_true]

theorem round_ok {datapoints : List Datapoint} {hornConstraints : List HornConstraint}
    {rFile : List Char} {o : Output}
    (h : round solve fuel opts roundNo datapoints hornConstraints intervals rFile = some (.ok o)) :
    ∃ X, horndini datapoints hornConstraints (startSets intervals) = some (.ok X) ∧
      o.rFile = writeRFile o.hypothesis ∧ isConsistent o.hypothesis datapoints hornConstraints ∧
      (o.hypothesis = X ∨
        runsSorcar opts roundNo = true ∧ Within X (prepareR opts roundNo X rFile) o.hypothesis) := by
  unfold round at h
  split at h
  · cases h
  · cases h
  · rename_i X hX
    refine ⟨X, horndiniIntervals_ok hX, ?_⟩
    split_ifs at h with hc _ hrun
    · cases h
    · cases h
      exact ⟨rfl, by simpa using hc, .inl rfl⟩
    · obtain ⟨r, hr, hro⟩ := Option.map_eq_some'.1 h
      obtain ⟨R', rfl, rfl⟩ := map_eq_ok.1 hro
      obtain ⟨hW, hc'⟩ := reduce_ok hr
      exact ⟨rfl, hc', .inr ⟨hrun, hW⟩⟩
    · cases h
      exact ⟨rfl, by simpa using hc, .inl rfl⟩

theorem within_self (X R : Conjunctions) : Within X R X :=
  ⟨rfl, fun _ => ⟨Finset.inter_subset_right, subset_rfl⟩⟩

theorem round_within {datapoints : List Datapoint} {hornConstraints : List HornConstraint}
    {rFile : List Char} {o : Output}
    (h : round solve fuel opts roundNo datapoints hornConstraints intervals rFile = some (.ok o)) :
    ∃ X, horndini datapoints hornConstraints (startSets intervals) = some (.ok X) ∧
      o.rFile = writeRFile o.hypothesis ∧ isConsistent o.hypothesis datapoints hornConstraints ∧
      Within X (prepareR opts roundNo X rFile) o.hypothesis := by
  obtain ⟨X, hX, hf, hc, rfl | ⟨-, hW⟩⟩ := round_ok h
  · exact ⟨_, hX, hf, hc, within_self _ _⟩
  · exact ⟨X, hX, hf, hc, hW⟩

theorem reached_of_within {datapoints : List Datapoint} {hornConstraints : List HornConstraint}
    {X R H : Conjunctions} (hX : horndini datapoints hornConstraints (startSets intervals) = some (.ok X))
    (hW : Within X R H) : Reached intervals X H :=
  have hlen : X.length = intervals.length := by rw [horndini_length hX, startSets, List.length_map]
  ⟨hlen, hW.1.trans hlen, (horndini_admissible hX).le, fun k => (hW.2 k).2⟩

theorem round_reached {datapoints : List Datapoint} {hornConstraints : List HornConstraint}
    {rFile : List Char} {o : Output}
    (h : round solve fuel opts roundNo datapoints hornConstraints intervals rFile = some (.ok o)) :
    ∃ X, horndini datapoints hornConstraints (startSets intervals) = some (.ok X) ∧
      Reached intervals X o.hypothesis ∧ o.rFile = writeRFile o.hypothesis ∧
      isConsistent o.hypothesis datapoints hornConstraints := by
  obtain ⟨X, hX, hf, hc, hW⟩ := round_within h
  exact ⟨X, hX, reached_of_within hX hW, hf, hc⟩

theorem round_advance (hreset : opts.resetR = false) (hround : roundNo ≠ 1)
    {dps dps' : List Datapoint} {hcs hcs' : List HornConstraint} {X H : Conjunctions}
    (hX : horndini dps hcs (startSets intervals) = some (.ok X)) (hR : Reached intervals X H)
    (hd : dps ⊆ dps') (hh : hcs ⊆ hcs') {o : Output}
    (h : round solve fuel opts roundNo dps' hcs' intervals (writeRFile H) = some (.ok o)) :
    ∃ X', horndini dps' hcs' (startSets intervals) = some (.ok X') ∧
      Reached intervals X' o.hypothesis ∧ Advance X H X' o.hypothesis ∧
      o.rFile = writeRFile o.hypothesis ∧ isConsistent o.hypothesis dps' hcs' := by
  obtain ⟨X', hX', hf, hc, hW⟩ := round_within h
  have hprep : prepareR opts roundNo X' (writeRFile H) = H := by
    simp [prepareR, hreset, hround, hR.readRFile]
  rw [hprep] at hW
  exact ⟨X', hX', reached_of_within hX' hW, ⟨horndini_antitone hX hX' hd hh, fun k => (hW.2 k).1⟩,
    hf, hc⟩

end Round

/-! ## Runs -/

section Run

variable {solve : Solver} {fuel : Nat} {opts : Options} {intervals : List (UInt32 × UInt32)}

theorem run_cons_ok {roundNo : Nat} {rFile : List Char}
    {e : List Datapoint × List HornConstraint} {rest : List (List Datapoint × List HornConstraint)}
    {Hs : List Conjunctions}
    (h : run solve fuel opts intervals roundNo rFile (e :: rest) = some (.ok Hs)) :
    ∃ o Hs', round solve fuel opts roundNo e.1 e.2 intervals rFile = some (.ok o) ∧
      run solve fuel opts intervals (roundNo + 1) o.rFile rest = some (.ok Hs') ∧
      Hs = o.hypothesis :: Hs' := by
  obtain ⟨dps, hcs⟩ := e
  simp only [run] at h
  split at h
  · cases h
  · cases h
  · rename_i o ho
    obtain ⟨r, hr, hro⟩ := Option.map_eq_some'.1 h
    obtain ⟨Hs', rfl, rfl⟩ := map_eq_ok.1 hro
    exact ⟨o, Hs', ho, hr, rfl⟩

/-- From the second round on, without `-r`: a run that continues a reached state on growing
examples keeps each hypothesis consistent with its round's examples, and advances. -/
theorem run_advance (hreset : opts.resetR = false) :
    ∀ (rounds : List (List Datapoint × List HornConstraint)) (roundNo : Nat)
      (prev : List Datapoint × List HornConstraint) (X H : Conjunctions) (Hs : List Conjunctions),
      1 < roundNo → horndini prev.1 prev.2 (startSets intervals) = some (.ok X) →
      Reached intervals X H → Grows (prev :: rounds) →
      run solve fuel opts intervals roundNo (writeRFile H) rounds = some (.ok Hs) →
      ∃ Xs, List.Forall₂ (fun X e => horndini e.1 e.2 (startSets intervals) = some (.ok X))
          Xs rounds ∧
        List.Forall₂ (fun H e => isConsistent H e.1 e.2 = true) Hs rounds ∧
        List.Forall₂ (Reached intervals) Xs Hs ∧
        ((X, H) :: Xs.zip Hs).Chain' fun s s' => Advance s.1 s.2 s'.1 s'.2
  | [], _, _, _, _, Hs, _, _, _, _, h => by
    cases h
    exact ⟨[], .nil, .nil, .nil, List.chain'_singleton _⟩
  | e :: rest, roundNo, prev, X, H, Hs, hround, hX, hR, hgrow, h => by
    obtain ⟨o, Hs', ho, hrest, rfl⟩ := run_cons_ok h
    obtain ⟨⟨hd, hh⟩, hgrow'⟩ := List.chain'_cons.1 hgrow
    obtain ⟨X', hX', hR', hA, hf, hc⟩ := round_advance hreset hround.ne' hX hR hd hh ho
    rw [hf] at hrest
    obtain ⟨Xs, h₁, h₂, h₃, h₄⟩ :=
      run_advance hreset rest (roundNo + 1) e X' o.hypothesis Hs' (by omega) hX' hR' hgrow' hrest
    exact ⟨X' :: Xs, .cons hX' h₁, .cons hc h₂, .cons hR' h₃, .cons hA h₄⟩

/-- Over every run without `-r` in which the teacher only adds examples: each round writes a
hypothesis consistent with its examples and within Horndini's `X` of the round; from one round
to the next `X` shrinks, and the hypothesis keeps every predicate of the one before that is
still in `X`. -/
theorem run_invariant (hreset : opts.resetR = false)
    (rounds : List (List Datapoint × List HornConstraint)) (rFile : List Char)
    (Hs : List Conjunctions) (hrun : run solve fuel opts intervals 1 rFile rounds = some (.ok Hs))
    (hgrow : Grows rounds) :
    ∃ Xs, List.Forall₂ (fun X e => horndini e.1 e.2 (startSets intervals) = some (.ok X))
        Xs rounds ∧
      List.Forall₂ (fun H e => isConsistent H e.1 e.2 = true) Hs rounds ∧
      List.Forall₂ (Reached intervals) Xs Hs ∧
      (Xs.zip Hs).Chain' fun s s' => Advance s.1 s.2 s'.1 s'.2 := by
  cases rounds with
  | nil =>
    cases hrun
    exact ⟨[], .nil, .nil, .nil, List.chain'_nil⟩
  | cons e rest =>
    obtain ⟨o, Hs', ho, hrest, rfl⟩ := run_cons_ok hrun
    obtain ⟨X, hX, hR, hf, hc⟩ := round_reached ho
    rw [hf] at hrest
    obtain ⟨Xs, h₁, h₂, h₃, h₄⟩ :=
      run_advance hreset rest 2 e X o.hypothesis Hs' (by omega) hX hR hgrow hrest
    exact ⟨X :: Xs, .cons hX h₁, .cons hc h₂, .cons hR h₃, h₄⟩

def sorcarOptions : Options := ⟨.sorcar, false, false, false⟩

def negativeRounds : List (List Datapoint × List HornConstraint) :=
  [([], []), ([negativeZero], [])]

theorem run_sorcar_negativeRounds :
    run trueFirst 0 sorcarOptions [(0, 0)] 1 [] negativeRounds = some (.ok [[∅], [{0}]]) := by
  have hprep : Split.prepare [{0}] [∅] = ⟨[∅], [{0}]⟩ := by
    rw [Split.prepare, prepareSets_eq]
    exact congrArg₂ Split.mk (by decide) (by decide)
  have h₁ : round trueFirst 0 sorcarOptions 1 [] [] [(0, 0)] [] =
      some (.ok ⟨[∅], writeRFile [∅]⟩) := by
    have hX : horndiniIntervals [] [] [(0, 0)] = some (.ok [{0}]) := rfl
    rw [round_eq_reduce sorcarOptions 1 hX rfl (by decide) rfl]
    show Option.map _ (reduceWith (negativeAll [{0}]) fixAll [] [] [{0}]
      (prepareR sorcarOptions 1 [{0}] [])) = _
    rw [reduceWith, if_neg (by decide), if_neg (by decide),
      show prepareR sorcarOptions 1 [{0}] [] = [∅] from rfl, hprep]
    rfl
  have h₂ : round trueFirst 0 sorcarOptions 2 [negativeZero] [] [(0, 0)] (writeRFile [∅]) =
      some (.ok ⟨[{0}], writeRFile [{0}]⟩) := by
    have hX : horndiniIntervals [negativeZero] [] [(0, 0)] = some (.ok [{0}]) := rfl
    rw [round_eq_reduce sorcarOptions 2 hX (by decide) (by decide) rfl]
    have hR : prepareR sorcarOptions 2 [{0}] (writeRFile [∅]) = [∅] :=
      readRFile_writeRFile_of_ne_nil (List.cons_ne_nil _ _) (by simp)
    show Option.map _ (reduceWith (negativeAll [{0}]) fixAll [negativeZero] [] [{0}]
      (prepareR sorcarOptions 2 [{0}] (writeRFile [∅]))) = _
    rw [hR, reduceWith, if_neg (by decide), if_neg (by decide), hprep]
    rfl
  simp only [negativeRounds, run, h₁, h₂]
  rfl

theorem run_invariant_negativeRounds :
    sorcarOptions.resetR = false ∧
      run trueFirst 0 sorcarOptions [(0, 0)] 1 [] negativeRounds = some (.ok [[∅], [{0}]]) ∧
      Grows negativeRounds ∧
      ∃ Xs, List.Forall₂ (fun X e => horndini e.1 e.2 (startSets [(0, 0)]) = some (.ok X))
          Xs negativeRounds ∧
        List.Forall₂ (fun H e => isConsistent H e.1 e.2 = true) [[∅], [{0}]] negativeRounds ∧
        List.Forall₂ (Reached [(0, 0)]) Xs [[∅], [{0}]] ∧
        (Xs.zip [[∅], [{0}]]).Chain' fun s s' => Advance s.1 s.2 s'.1 s'.2 :=
  have hgrow : Grows negativeRounds := List.chain'_pair.2 ⟨List.nil_subset _, List.nil_subset _⟩
  ⟨rfl, run_sorcar_negativeRounds, hgrow,
    run_invariant rfl negativeRounds [] [[∅], [{0}]] run_sorcar_negativeRounds hgrow⟩

/-- Whatever the options, the solver, the fuel and the `.R` file it starts from, every hypothesis
a run writes lies within the intervals and is consistent with the examples of its round. -/
theorem run_consistent : ∀ {roundNo : Nat} {rFile : List Char}
    {rounds : List (List Datapoint × List HornConstraint)} {Hs : List Conjunctions},
    run solve fuel opts intervals roundNo rFile rounds = some (.ok Hs) →
      List.Forall₂ (fun H e => (∀ k, conj H k ⊆ conj (startSets intervals) k) ∧
        isConsistent H e.1 e.2 = true) Hs rounds
  | _, _, [], _, h => by
    cases h
    exact .nil
  | _, _, _ :: _, _, h => by
    obtain ⟨o, Hs', ho, hrest, rfl⟩ := run_cons_ok h
    obtain ⟨_, -, hR, -, hc⟩ := round_reached ho
    exact .cons ⟨hR.le_start, hc⟩ (run_consistent hrest)

theorem run_consistent_negativeRounds :
    run trueFirst 0 sorcarOptions [(0, 0)] 1 [] negativeRounds = some (.ok [[∅], [{0}]]) ∧
      List.Forall₂ (fun H e => (∀ k, conj H k ⊆ conj (startSets [(0, 0)]) k) ∧
        isConsistent H e.1 e.2 = true) [[∅], [{0}]] negativeRounds :=
  ⟨run_sorcar_negativeRounds, run_consistent run_sorcar_negativeRounds⟩

theorem isConsistent_congr {H H' : Conjunctions} (h : ∀ k, conj H' k = conj H k)
    (datapoints : List Datapoint) (hornConstraints : List HornConstraint) :
    isConsistent H' datapoints hornConstraints = isConsistent H datapoints hornConstraints := by
  have hfun : conj H' = conj H := funext h
  rw [Bool.eq_iff_iff, isConsistent_iff, isConsistent_iff, hfun]

theorem exists_ne_of_refuted {X H X' H' : Conjunctions} (hR : Reached intervals X H)
    (hR' : Reached intervals X' H') {datapoints : List Datapoint}
    {hornConstraints : List HornConstraint}
    (hc : isConsistent H' datapoints hornConstraints = true)
    (hr : isConsistent H datapoints hornConstraints = false) :
    ∃ k < intervals.length, conj X' k ≠ conj X k ∨ conj H' k ≠ conj H k := by
  by_contra hne
  push_neg at hne
  have hH : ∀ k, conj H' k = conj H k := fun k => by
    by_cases hk : k < intervals.length
    · exact (hne k hk).2
    · rw [conj_of_length_le (by rw [hR'.lenH]; omega), conj_of_length_le (by rw [hR.lenH]; omega)]
  rw [isConsistent_congr hH] at hc
  rw [hc] at hr
  cases hr

theorem run_length_le (hreset : opts.resetR = false) :
    ∀ (rounds : List (List Datapoint × List HornConstraint)) (roundNo : Nat)
      (prev : List Datapoint × List HornConstraint) (X H : Conjunctions) (Hs : List Conjunctions),
      1 < roundNo → horndini prev.1 prev.2 (startSets intervals) = some (.ok X) →
      Reached intervals X H → Grows (prev :: rounds) → Refuted (prev :: rounds) (H :: Hs) →
      run solve fuel opts intervals roundNo (writeRFile H) rounds = some (.ok Hs) →
      rounds.length ≤ measure intervals.length X H
  | [], _, _, _, _, _, _, _, _, _, _, _ => Nat.zero_le _
  | e :: rest, roundNo, prev, X, H, Hs, hround, hX, hR, hgrow, hrefuted, h => by
    obtain ⟨o, Hs', ho, hrest, rfl⟩ := run_cons_ok h
    obtain ⟨⟨hd, hh⟩, hgrow'⟩ := List.chain'_cons.1 hgrow
    obtain ⟨hr, hrefuted'⟩ := hrefuted
    obtain ⟨X', hX', hR', hA, hf, hc⟩ := round_advance hreset hround.ne' hX hR hd hh ho
    obtain ⟨k, hk, hne⟩ := exists_ne_of_refuted hR hR' hc hr
    have hlt := hA.measure_lt hR.le hR'.le hk hne
    rw [hf] at hrest
    have := run_length_le hreset rest (roundNo + 1) e X' o.hypothesis Hs' (by omega) hX' hR'
      hgrow' hrefuted' hrest
    rw [List.length_cons]
    omega

/-- Sorcar's CEGIS loop converges: in every run without `-r`, whatever the algorithm, the other
options and the first `.R` file, in which the teacher only adds examples and refutes every
hypothesis but the last, there are at most `2·P + 1` rounds, `P` the number of predicates of
the intervals. -/
theorem run_converges (hreset : opts.resetR = false)
    (rounds : List (List Datapoint × List HornConstraint)) (rFile : List Char)
    (Hs : List Conjunctions) (hrun : run solve fuel opts intervals 1 rFile rounds = some (.ok Hs))
    (hgrow : Grows rounds) (hrefuted : Refuted rounds Hs) :
    rounds.length ≤ 2 * (intervals.map fun i => i.2.toNat + 1 - i.1.toNat).sum + 1 := by
  cases rounds with
  | nil => exact Nat.zero_le _
  | cons e rest =>
    obtain ⟨o, Hs', ho, hrest, rfl⟩ := run_cons_ok hrun
    obtain ⟨X, hX, hR, hf, -⟩ := round_reached ho
    rw [hf] at hrest
    have := run_length_le hreset rest 2 e X o.hypothesis Hs' (by omega) hX hR hgrow hrefuted hrest
    have := hR.measure_le
    rw [List.length_cons]
    omega

theorem run_converges_negativeRounds :
    sorcarOptions.resetR = false ∧
      run trueFirst 0 sorcarOptions [(0, 0)] 1 [] negativeRounds = some (.ok [[∅], [{0}]]) ∧
      Grows negativeRounds ∧ Refuted negativeRounds [[∅], [{0}]] ∧
      negativeRounds.length ≤ 2 * ([((0 : UInt32), (0 : UInt32))].map fun i =>
        i.2.toNat + 1 - i.1.toNat).sum + 1 :=
  have hgrow : Grows negativeRounds := List.chain'_pair.2 ⟨List.nil_subset _, List.nil_subset _⟩
  have href : Refuted negativeRounds [[∅], [{0}]] := ⟨by decide, trivial⟩
  ⟨rfl, run_sorcar_negativeRounds, hgrow, href,
    run_converges rfl negativeRounds [] [[∅], [{0}]] run_sorcar_negativeRounds hgrow href⟩

/-! ## `-f` and `-t` without `-r` -/

theorem round_eq_horndini (hreset : opts.resetR = false) {roundNo : Nat} (hround : roundNo ≠ 1)
    {dps dps' : List Datapoint} {hcs hcs' : List HornConstraint} {Xp : Conjunctions}
    (hXp : horndini dps hcs (startSets intervals) = some (.ok Xp)) (hd : dps ⊆ dps')
    (hh : hcs ⊆ hcs') {o : Output}
    (h : round solve fuel opts roundNo dps' hcs' intervals (writeRFile Xp) = some (.ok o)) :
    horndini dps' hcs' (startSets intervals) = some (.ok o.hypothesis) ∧
      o.rFile = writeRFile o.hypothesis := by
  obtain ⟨X, hX, hf, -, hor⟩ := round_ok h
  refine ⟨?_, hf⟩
  rcases hor with rfl | ⟨-, hW⟩
  · exact hX
  · have hsub := horndini_antitone hXp hX hd hh
    have hprep : prepareR opts roundNo X (writeRFile Xp) = Xp := by
      simp [prepareR, hreset, hround, (reached_of_within hXp (within_self Xp Xp)).readRFile]
    rw [hprep] at hW
    have hH : o.hypothesis = X := conj_ext hW.1 fun k => Finset.Subset.antisymm (hW.2 k).2
      ((Finset.subset_inter (hsub k) subset_rfl).trans (hW.2 k).1)
    rw [hH]
    exact hX

theorem run_eq_horndini (hreset : opts.resetR = false) :
    ∀ (rounds : List (List Datapoint × List HornConstraint)) (roundNo : Nat)
      (prev : List Datapoint × List HornConstraint) (Xp : Conjunctions) (Hs : List Conjunctions),
      1 < roundNo → horndini prev.1 prev.2 (startSets intervals) = some (.ok Xp) →
      Grows (prev :: rounds) →
      run solve fuel opts intervals roundNo (writeRFile Xp) rounds = some (.ok Hs) →
      List.Forall₂ (fun H e => horndini e.1 e.2 (startSets intervals) = some (.ok H)) Hs rounds
  | [], _, _, _, _, _, _, _, h => by
    cases h
    exact .nil
  | e :: rest, roundNo, _, _, _, hround, hXp, hgrow, h => by
    obtain ⟨o, Hs', ho, hrest, rfl⟩ := run_cons_ok h
    obtain ⟨⟨hd, hh⟩, hgrow'⟩ := List.chain'_cons.1 hgrow
    obtain ⟨hX, hf⟩ := round_eq_horndini hreset hround.ne' hXp hd hh ho
    rw [hf] at hrest
    exact .cons hX
      (run_eq_horndini hreset rest (roundNo + 1) e o.hypothesis Hs' (by omega) hX hgrow' hrest)

/-- Without `-r`, the options `-f` and `-t` turn Sorcar into Horndini: over every run in which
the teacher only adds examples, whatever the algorithm, every round writes Horndini's `X`.
Round 1 writes `X` under either option, and every later round starts its reducer from the `X`
of the round before, which contains its own `X`. -/
theorem run_writes_horndini (hreset : opts.resetR = false)
    (hopt : opts.horndiniFirstRound = true ∨ opts.alternate = true)
    (rounds : List (List Datapoint × List HornConstraint)) (rFile : List Char)
    (Hs : List Conjunctions) (hrun : run solve fuel opts intervals 1 rFile rounds = some (.ok Hs))
    (hgrow : Grows rounds) :
    List.Forall₂ (fun H e => horndini e.1 e.2 (startSets intervals) = some (.ok H)) Hs rounds := by
  cases rounds with
  | nil =>
    cases hrun
    exact .nil
  | cons e rest =>
    obtain ⟨o, Hs', ho, hrest, rfl⟩ := run_cons_ok hrun
    have hfirst : runsSorcar opts 1 = false := by
      rcases hopt with h | h <;> simp [runsSorcar, h]
    obtain ⟨X, hX, hf, -, rfl | ⟨hs, -⟩⟩ := round_ok ho
    · rw [hf] at hrest
      exact .cons hX (run_eq_horndini hreset rest 2 e o.hypothesis Hs' (by omega) hX hgrow hrest)
    · rw [hfirst] at hs
      cases hs

def refutingRounds : List (List Datapoint × List HornConstraint) :=
  [([], []), ([positiveZero], [])]

def alternateOptions : Options := ⟨.sorcar, false, false, true⟩

theorem run_writes_horndini_alternate :
    alternateOptions.resetR = false ∧ alternateOptions.alternate = true ∧
      run trueFirst 0 alternateOptions [(0, 0)] 1 [] refutingRounds = some (.ok [[{0}], [∅]]) ∧
      prepareR alternateOptions 2 [∅] (writeRFile [{0}]) = [{0}] ∧
      reducePredicatesAll [positiveZero] [] [∅] [{0}] = some (.ok [∅]) ∧
      Grows refutingRounds ∧
      List.Forall₂ (fun H e => horndini e.1 e.2 (startSets [(0, 0)]) = some (.ok H)) [[{0}], [∅]]
        refutingRounds :=
  have hR : prepareR alternateOptions 2 [∅] (writeRFile [{0}]) = [{0}] :=
    readRFile_writeRFile_of_ne_nil (List.cons_ne_nil _ _) (by simp)
  have hred : reducePredicatesAll [positiveZero] [] [∅] [{0}] = some (.ok [∅]) := by
    have hprep : Split.prepare [∅] [{0}] = ⟨[∅], [∅]⟩ := by
      rw [Split.prepare, prepareSets_eq]
      exact congrArg₂ Split.mk (by decide) (by decide)
    rw [reducePredicatesAll, reduceWith, if_neg (by decide), if_neg (by decide), hprep]
    rfl
  have h₂ : round trueFirst 0 alternateOptions 2 [positiveZero] [] [(0, 0)] (writeRFile [{0}]) =
      some (.ok ⟨[∅], writeRFile [∅]⟩) := by
    have hX : horndiniIntervals [positiveZero] [] [(0, 0)] = some (.ok [∅]) := rfl
    rw [round_eq_reduce alternateOptions 2 hX (by decide) (by decide) rfl]
    show Option.map _ (reducePredicatesAll [positiveZero] [] [∅]
      (prepareR alternateOptions 2 [∅] (writeRFile [{0}]))) = _
    rw [hR, hred]
    rfl
  have hrun : run trueFirst 0 alternateOptions [(0, 0)] 1 [] refutingRounds =
      some (.ok [[{0}], [∅]]) := by
    simp only [refutingRounds, run, show round trueFirst 0 alternateOptions 1 [] [] [(0, 0)] [] =
      some (.ok ⟨[{0}], writeRFile [{0}]⟩) from rfl, h₂]
    rfl
  have hgrow : Grows refutingRounds := List.chain'_pair.2 ⟨List.nil_subset _, List.nil_subset _⟩
  ⟨rfl, rfl, hrun, hR, hred, hgrow,
    run_writes_horndini rfl (.inr rfl) refutingRounds [] [[{0}], [∅]] hrun hgrow⟩

end Run

/-! ## Liveness -/

section Live

variable {solve : Solver} {fuel : Nat} {opts : Options} {roundNo : Nat}
  {intervals : List (UInt32 × UInt32)}

end Live

end Main
end HornVerification
