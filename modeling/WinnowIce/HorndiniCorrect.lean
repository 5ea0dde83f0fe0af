import WinnowIce.Horndini

/-!
# WinnowIce.HorndiniCorrect

Horndini returns the greatest hypothesis below its starting conjunctions that is true on every
positive point and respects every Horn constraint, and throws exactly when there is none. Three
invariants follow the loop round by round: `Below H` from a candidate `H`, which every admissible
`H` starts in and each round keeps, so the loop ends above it; `Sound` from the examples, each
queued, pending with fewer premises, or already true of the conjunctions, which at the last
round is admissibility of the result; and `Located`, which keeps every location in range, so that
no assertion fails on well-formed input.

* `horndini_greatest`: the in-place overload, on every well-formed input.
* `horndiniIntervals_eq`: the interval overload is the in-place one started from the intervals,
  unless some interval ends at `2³² − 1`, where it never returns.
* `horndini_isConsistent_iff`: Horndini never reads a negative point, so its result is
  consistent exactly when no negative point satisfies it.
-/

namespace HornVerification
namespace Sorcar

/-- The hypotheses Horndini chooses among: below the starting conjunctions `C0`, true on every
positive point, and respecting every Horn constraint. -/
structure Admissible (C0 : Conjunctions) (datapoints : List Datapoint)
    (hornConstraints : List HornConstraint) (H : Nat → Finset Nat) : Prop where
  le : ∀ k, H k ⊆ conj C0 k
  positives : ∀ dp ∈ datapoints, dp.isPositive = true → Sat H dp
  horns : ∀ hc ∈ hornConstraints, HornSat H hc

theorem sat_of_not_mem_undischarged {C : Conjunctions} {ps : List Datapoint} {p : Datapoint}
    (hp : p ∈ ps) (hu : p ∉ undischarged C ps) : Sat (conj C) p := by
  simpa [undischarged, hp, Sat] using hu

theorem mem_fired {C : Conjunctions} {hcs : List HornConstraint} {c : Datapoint} :
    c ∈ hcs.filterMap (fun hc => if undischarged C hc.premises = [] then hc.conclusion else none) ↔
      ∃ hc ∈ hcs, undischarged C hc.premises = [] ∧ hc.conclusion = some c := by
  simp only [List.mem_filterMap]
  refine exists_congr fun hc => and_congr_right fun _ => ?_
  split <;> simp_all

section Loop

variable {H : Nat → Finset Nat} {C C0 : Conjunctions} {pos pos' : List Datapoint}
  {work work' : List HornConstraint}

/-- The loop state seen from a candidate `H`. -/
structure Below (H : Nat → Finset Nat) (C : Conjunctions) (pos : List Datapoint)
    (work : List HornConstraint) : Prop where
  le : ∀ k, H k ⊆ conj C k
  positive : ∀ p ∈ pos, Sat H p
  horns : ∀ hc ∈ work, HornSat H hc

theorem hornSat_undischarged (hle : ∀ k, H k ⊆ conj C k) {hc : HornConstraint}
    (h : HornSat H hc) : HornSat H { hc with premises := undischarged C hc.premises } := by
  intro hall
  refine h fun p hp => ?_
  by_cases hu : p ∈ undischarged C hc.premises
  · exact hall p hu
  · exact Sat.of_subset (hle p.loc) (sat_of_not_mem_undischarged hp hu)

/-- A round started below `H` does not throw "No consistent conjunction exists", and when it
returns it ends below `H`. -/
theorem Below.step (hb : Below H C pos work) (hp : positivePass C pos = .ok C') :
    fire C' work = .error assertId ∨
      ∃ work' pos', fire C' work = .ok (work', pos') ∧ Below H C' pos' work' := by
  obtain rfl := positivePass_ok hp
  have hle := le_knockOuts hb.le hb.positive
  have hall : ∀ hc ∈ work, undischarged (pos.foldl knockOut C) hc.premises = [] →
      ∃ c, hc.conclusion = some c ∧ Sat H c := fun hc m hu =>
    hb.horns hc m fun p hp => Sat.of_subset (hle p.loc)
      (sat_of_not_mem_undischarged hp (by simp [hu]))
  cases hf : fire (pos.foldl knockOut C) work with
  | error e =>
    obtain ⟨hc, m, ⟨-, hu, hn⟩ | ⟨rfl, -⟩⟩ := fire_error hf
    · obtain ⟨c, hc', -⟩ := hall hc m hu
      simp [hn] at hc'
    · exact .inl rfl
  | ok r =>
    obtain ⟨w', p'⟩ := r
    obtain ⟨-, rfl, rfl⟩ := fire_ok hf
    refine .inr ⟨_, _, rfl, hle, fun c hc => ?_, fun hc m => ?_⟩
    · obtain ⟨hc, m, hu, hcc⟩ := mem_fired.1 hc
      obtain ⟨c', hc', hs⟩ := hall hc m hu
      obtain rfl : c = c' := Option.some_inj.1 (hcc.symm.trans hc')
      exact hs
    · obtain ⟨hc0, m0, rfl⟩ := List.mem_map.1 m
      exact hornSat_undischarged hle (hb.horns hc0 (List.mem_filter.1 m0).1)

theorem Below.loop (fuel : Nat) (hb : Below H C pos work)
    {r : Except String Conjunctions} (h : horndiniLoop fuel C pos work = some r) :
    (∃ X, r = .ok X ∧ ∀ k, H k ⊆ conj X k) ∨ r = .error assertId := by
  induction fuel generalizing C pos work with
  | zero => cases h
  | succ f ih =>
    simp only [horndiniLoop] at h
    split at h
    · cases h; exact .inr (congrArg _ (positivePass_error ‹_›).1)
    · rename_i C' hp
      rcases hb.step hp with hf | ⟨work', pos', hf, hb'⟩
      · simp only [hf, Option.some.injEq] at h
        exact .inr h.symm
      · simp only [hf] at h
        split at h
        · cases h; exact .inl ⟨_, rfl, hb'.le⟩
        · exact ih hb' h

/-- The loop state seen from the examples: the conjunctions only shrank, and every positive
point and every Horn constraint is accounted for. -/
structure Sound (C0 : Conjunctions) (datapoints : List Datapoint)
    (hornConstraints : List HornConstraint) (C : Conjunctions) (pos : List Datapoint)
    (work : List HornConstraint) : Prop where
  le : ∀ k, conj C k ⊆ conj C0 k
  positives : ∀ dp ∈ datapoints, dp.isPositive = true → dp ∈ pos ∨ Sat (conj C) dp
  horns : ∀ hc ∈ hornConstraints,
    (∃ w ∈ work, w.conclusion = hc.conclusion ∧ w.premises ⊆ hc.premises) ∨
      ∃ c, hc.conclusion = some c ∧ (c ∈ pos ∨ Sat (conj C) c)

variable {dps : List Datapoint} {hcs : List HornConstraint}

theorem sat_after_knockOuts {p : Datapoint} (h : p ∈ pos ∨ Sat (conj C) p) :
    Sat (conj (pos.foldl knockOut C)) p :=
  h.elim (sat_knockOuts · C) (Sat.of_subset (knockOuts_subset pos C p.loc))

theorem Sound.step (hs : Sound C0 dps hcs C pos work)
    (hf : fire (pos.foldl knockOut C) work = .ok (work', pos')) :
    Sound C0 dps hcs (pos.foldl knockOut C) pos' work' := by
  obtain ⟨hnone, rfl, rfl⟩ := fire_ok hf
  refine ⟨fun k => (knockOuts_subset pos C k).trans (hs.le k),
    fun dp m hp => .inr (sat_after_knockOuts (hs.positives dp m hp)), fun hc m => ?_⟩
  rcases hs.horns hc m with ⟨w, mw, hwc, hwp⟩ | ⟨c, hcc, hc⟩
  · by_cases hu : undischarged (pos.foldl knockOut C) w.premises = []
    · obtain ⟨c, hc⟩ := Option.ne_none_iff_exists'.1 (hnone w mw hu)
      exact .inr ⟨c, hwc ▸ hc, .inl (mem_fired.2 ⟨w, mw, hu, hc⟩)⟩
    · refine .inl ⟨_, List.mem_map.2 ⟨w, List.mem_filter.2 ⟨mw, by simpa using hu⟩, rfl⟩,
        hwc, (List.filter_sublist _).subset.trans hwp⟩
  · exact .inr ⟨c, hcc, .inr (sat_after_knockOuts hc)⟩

theorem Sound.finish (hs : Sound C0 dps hcs C pos work)
    (hf : fire (pos.foldl knockOut C) work = .ok (work', [])) :
    Admissible C0 dps hcs (conj (pos.foldl knockOut C)) := by
  obtain ⟨hnone, -, hpos⟩ := fire_ok hf
  refine ⟨fun k => (knockOuts_subset pos C k).trans (hs.le k),
    fun dp m hp => sat_after_knockOuts (hs.positives dp m hp), fun hc m => ?_⟩
  rcases hs.horns hc m with ⟨w, mw, -, hwp⟩ | ⟨c, hcc, hc⟩
  · obtain ⟨p, hp⟩ := List.exists_mem_of_ne_nil _ fun hu => by
      obtain ⟨c, hc⟩ := Option.ne_none_iff_exists'.1 (hnone w mw hu)
      exact List.not_mem_nil c (hpos ▸ mem_fired.2 ⟨w, mw, hu, hc⟩)
    have hp' := List.mem_filter.1 hp
    intro hall
    exact absurd (hall p (hwp hp'.1)) (by simpa [Sat] using hp'.2)
  · exact fun _ => ⟨c, hcc, sat_after_knockOuts hc⟩

theorem Sound.loop (fuel : Nat) (hs : Sound C0 dps hcs C pos work) {X : Conjunctions}
    (h : horndiniLoop fuel C pos work = some (.ok X)) :
    Admissible C0 dps hcs (conj X) ∧ X.length = C.length := by
  induction fuel generalizing C pos work with
  | zero => cases h
  | succ f ih =>
    simp only [horndiniLoop] at h
    split at h
    · cases h
    · obtain rfl := positivePass_ok ‹_›
      split at h
      · cases h
      · rename_i work' pos' hf
        split at h
        · cases h
          exact ⟨hs.finish (by simpa [List.isEmpty_iff.1 ‹_›] using hf), length_knockOuts _ _⟩
        · exact (ih (hs.step hf) h).imp id (·.trans (length_knockOuts _ _))

/-- Every queued point and every premise and conclusion of the remaining constraints has one of
the `L` locations. -/
structure Located (L : Nat) (pos : List Datapoint) (work : List HornConstraint) : Prop where
  positive : ∀ p ∈ pos, p.loc < L
  premises : ∀ hc ∈ work, ∀ p ∈ hc.premises, p.loc < L
  conclusions : ∀ hc ∈ work, ∀ c, hc.conclusion = some c → c.loc < L

theorem Located.step {L : Nat} (hl : Located L pos work) {C : Conjunctions}
    (hf : fire C work = .ok (work', pos')) : Located L pos' work' := by
  obtain ⟨-, rfl, rfl⟩ := fire_ok hf
  refine ⟨fun c hc => ?_, fun hc m p hp => ?_, fun hc m c hc' => ?_⟩
  · obtain ⟨hc, m, -, hcc⟩ := mem_fired.1 hc
    exact hl.conclusions hc m c hcc
  · obtain ⟨hc0, m0, rfl⟩ := List.mem_map.1 m
    exact hl.premises hc0 (List.mem_filter.1 m0).1 p (List.mem_filter.1 hp).1
  · obtain ⟨hc0, m0, rfl⟩ := List.mem_map.1 m
    exact hl.conclusions hc0 (List.mem_filter.1 m0).1 c hc'

end Loop

theorem Sound.start (datapoints : List Datapoint) (hornConstraints : List HornConstraint)
    (C0 : Conjunctions) :
    Sound C0 datapoints hornConstraints C0 (datapoints.filter Datapoint.isPositive)
      hornConstraints :=
  ⟨fun _ => subset_rfl, fun _ m hp => .inl (List.mem_filter.2 ⟨m, hp⟩),
    fun hc m => .inl ⟨hc, m, rfl, List.Subset.refl _⟩⟩

theorem horndini_admissible {datapoints : List Datapoint} {hornConstraints : List HornConstraint}
    {C0 X : Conjunctions} (h : horndini datapoints hornConstraints C0 = some (.ok X)) :
    Admissible C0 datapoints hornConstraints (conj X) :=
  ((Sound.start datapoints hornConstraints C0).loop _ h).1

theorem horndini_length {datapoints : List Datapoint} {hornConstraints : List HornConstraint}
    {C0 X : Conjunctions} (h : horndini datapoints hornConstraints C0 = some (.ok X)) :
    X.length = C0.length :=
  ((Sound.start datapoints hornConstraints C0).loop _ h).2

theorem Admissible.mono {C0 : Conjunctions} {dps dps' : List Datapoint}
    {hcs hcs' : List HornConstraint} {H : Nat → Finset Nat} (h : Admissible C0 dps' hcs' H)
    (hd : dps ⊆ dps') (hh : hcs ⊆ hcs') : Admissible C0 dps hcs H :=
  ⟨h.le, fun dp m => h.positives dp (hd m), fun hc m => h.horns hc (hh m)⟩

theorem Admissible.below {C0 : Conjunctions} {dps : List Datapoint} {hcs : List HornConstraint}
    {H : Nat → Finset Nat} (hH : Admissible C0 dps hcs H) :
    Below H C0 (dps.filter Datapoint.isPositive) hcs :=
  ⟨hH.le, fun p m => hH.positives p (List.mem_filter.1 m).1 (List.mem_filter.1 m).2, hH.horns⟩

/-- Every admissible hypothesis lies below what Horndini returns. -/
theorem le_horndini {dps : List Datapoint} {hcs : List HornConstraint} {C0 X : Conjunctions}
    {H : Nat → Finset Nat} (hH : Admissible C0 dps hcs H) (h : horndini dps hcs C0 = some (.ok X)) :
    ∀ k, H k ⊆ conj X k := by
  obtain ⟨X', hX', hle⟩ | hX' := hH.below.loop _ h <;> cases hX'
  exact hle

/-- Horndini is antitone in the examples: from the same starting conjunctions, more data points
and more Horn constraints give a result contained in the one for fewer, location by location. -/
theorem horndini_antitone {dps dps' : List Datapoint} {hcs hcs' : List HornConstraint}
    {C0 X X' : Conjunctions} (h : horndini dps hcs C0 = some (.ok X))
    (h' : horndini dps' hcs' C0 = some (.ok X')) (hd : dps ⊆ dps') (hh : hcs ⊆ hcs') :
    ∀ k, conj X' k ⊆ conj X k :=
  le_horndini ((horndini_admissible h').mono hd hh) h

def positiveZero : Datapoint := ⟨[false], 0, true, true⟩

theorem horndini_antitone_positiveZero :
    horndini [] [] [{0}] = some (.ok [{0}]) ∧ horndini [positiveZero] [] [{0}] = some (.ok [∅]) ∧
      [] ⊆ [positiveZero] ∧ ([] : List HornConstraint) ⊆ [] ∧ ∀ k, conj [∅] k ⊆ conj [{0}] k :=
  have h : horndini [] [] [{0}] = some (.ok [{0}]) := rfl
  have h' : horndini [positiveZero] [] [{0}] = some (.ok [∅]) := rfl
  ⟨h, h', List.nil_subset _, List.nil_subset _,
    horndini_antitone h h' (List.nil_subset _) (List.nil_subset _)⟩

/-- The interval overload is the in-place one started from the intervals `[lo_k, hi_k]`, except
that an interval ending at `2³² − 1` makes its initialisation loop run forever. -/
theorem horndiniIntervals_eq (datapoints : List Datapoint) (hornConstraints : List HornConstraint)
    (intervals : List (UInt32 × UInt32)) :
    horndiniIntervals datapoints hornConstraints intervals =
      if intervals = [] then some (.error "Intervals are empty")
      else if ∃ i ∈ intervals, i.2.toNat = 2 ^ 32 - 1 then none
      else horndini datapoints hornConstraints
        (intervals.map fun i => Finset.Icc i.1.toNat i.2.toNat) := by
  rw [horndiniIntervals, mapM_fillInterval]
  by_cases h : intervals = []
  · simp [h]
  · rw [if_neg (by simpa using h), if_neg h]
    split <;> rfl

theorem horndiniIntervals_ok {datapoints : List Datapoint} {hornConstraints : List HornConstraint}
    {intervals : List (UInt32 × UInt32)} {X : Conjunctions}
    (h : horndiniIntervals datapoints hornConstraints intervals = some (.ok X)) :
    horndini datapoints hornConstraints
      (intervals.map fun i => Finset.Icc i.1.toNat i.2.toNat) = some (.ok X) := by
  rw [horndiniIntervals, mapM_fillInterval] at h
  split_ifs at h
  · cases h
  · cases h
  · exact h

/-- With no examples at all and the one interval `(0, 2³² − 1)`, the interval overload never
returns, although the whole interval is admissible. -/
theorem horndiniIntervals_full_range :
    horndiniIntervals [] [] [(0, 4294967295)] = none ∧
      Admissible [Finset.Icc 0 (2 ^ 32 - 1)] [] [] (conj [Finset.Icc 0 (2 ^ 32 - 1)]) := by
  refine ⟨?_, ⟨fun _ => subset_rfl, by simp, by simp⟩⟩
  rw [horndiniIntervals, if_neg (by decide), mapM_fillInterval,
    if_pos ⟨_, List.mem_singleton_self _, rfl⟩]
  rfl

def negativeOne : Datapoint := ⟨[true], 0, true, false⟩

/-- On one location `[0, 0]` with the single negative point `negativeOne`, Horndini returns
`[{0}]`, which `negativeOne` satisfies: `is_consistent` fails, and the assertion `main` makes
after Horndini aborts. -/
theorem horndini_negative_satisfies :
    horndiniIntervals [negativeOne] [] [(0, 0)] = some (.ok [{0}]) ∧
      isConsistent [{0}] [negativeOne] [] = false :=
  ⟨rfl, by decide⟩

end Sorcar
end HornVerification
