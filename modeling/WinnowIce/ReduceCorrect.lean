import WinnowIce.Reduce

/-!
# WinnowIce.ReduceCorrect

`reduceWith` is proved correct once, for any negative step and Horn fix that are *safe* (a step
that succeeds keeps the split invariant and only adds to `R`) and *live* (a step on something
that `X` gets right succeeds, and afterwards `R` gets it right as well). A constraint leaves the
Horn worklist only when one of its premises fails `R` (it is *settled*) and stays settled while
`R` grows, so a pass that fixes nothing leaves every constraint satisfied, and one pass more
than there are constraints is always enough.

* `hornLoop_live`: the Horn loop ends with every constraint satisfied.
* `reduceWith_bounds`: what a reducer returns lies between `R ∩ X` and `X`.
* `reduceWith_consistent`: from an `X` consistent with the examples, a reducer returns an `R`
  consistent with them; on an empty `X` it throws and leaves `R = X` as it was.
* `reducePredicates_consistent`: the steps of both reducers are safe and live, so both return a
  consistent `R`, with no assertion failing.
* `reduceWith_idle`: an `R ∩ X` that is consistent already comes back as it is.
-/

namespace HornVerification
namespace Sorcar

/-- Some premise of `hc` fails `R`: `hc` holds in `R`, and in every larger `R`. -/
def Settled (s : Split) (hc : HornConstraint) : Prop := ∃ p ∈ hc.premises, ¬ Sat (conj s.R) p

theorem Split.Grows.settled {s s' : Split} (h : s.Grows s') {hc : HornConstraint}
    (hs : Settled s hc) : Settled s' hc :=
  let ⟨p, hp, hn⟩ := hs
  ⟨p, hp, h.not_sat hn⟩

theorem Settled.hornSat {s : Split} {hc : HornConstraint} (h : Settled s hc) :
    HornSat (conj s.R) hc :=
  let ⟨p, hp, hn⟩ := h
  fun hall => absurd (hall p hp) hn

/-- A step that succeeds keeps the split invariant and only adds to `R`. -/
def StepSafe (X : Conjunctions) (step : Split → Except String Split) : Prop :=
  ∀ s s', s.Inv X → step s = .ok s' → s'.Inv X ∧ s.Grows s'

/-- A negative step succeeds on a point that `X` classifies right, and afterwards `R` classifies
it right. -/
def NegativeLive (X : Conjunctions) (negative : Split → Datapoint → Except String Split) :
    Prop :=
  ∀ s dp, s.Inv X → (dp.isNegative = true → ¬ Sat (conj X) dp) →
    ∃ s', negative s dp = .ok s' ∧ (dp.isNegative = true → ¬ Sat (conj s'.R) dp)

/-- A Horn fix succeeds on a constraint whose premises all satisfy `R` but not all `X`, and
settles it. -/
def FixLive (X : Conjunctions) (fix : HornConstraint → Split → Except String Split) : Prop :=
  ∀ s hc, s.Inv X → (∀ p ∈ hc.premises, Sat (conj s.R) p) →
    (∃ p ∈ hc.premises, ¬ Sat (conj X) p) → ∃ s', fix hc s = .ok s' ∧ Settled s' hc

section Generic

variable {X : Conjunctions} {negative : Split → Datapoint → Except String Split}
  {fix : HornConstraint → Split → Except String Split}

/-! ### The pass over the data points -/

theorem checkLocation_safe (hN : ∀ dp, StepSafe X (negative · dp)) (dp : Datapoint) :
    StepSafe X (checkLocation negative · dp) := fun s s' hs h => by
  dsimp only [checkLocation] at h
  split_ifs at h
  exact hN dp s s' hs h

theorem foldlM_safe (hN : ∀ dp, StepSafe X (negative · dp)) :
    ∀ (dps : List Datapoint) {s s' : Split}, s.Inv X →
      dps.foldlM (checkLocation negative) s = .ok s' → s'.Inv X ∧ s.Grows s'
  | [], s, _, hs, h => by cases h; exact ⟨hs, .refl s⟩
  | dp :: dps, s, _, hs, h => by
    rw [List.foldlM_cons, bind_eq_ok] at h
    obtain ⟨t, h₁, h₂⟩ := h
    obtain ⟨ht, hst⟩ := checkLocation_safe hN dp s t hs h₁
    obtain ⟨h', hts⟩ := foldlM_safe hN dps ht h₂
    exact ⟨h', hst.trans hts⟩

theorem foldlM_live (hNs : ∀ dp, StepSafe X (negative · dp)) (hNl : NegativeLive X negative) :
    ∀ (dps : List Datapoint) {s : Split}, s.Inv X → (∀ dp ∈ dps, dp.loc < X.length) →
      (∀ dp ∈ dps, dp.isNegative = true → ¬ Sat (conj X) dp) →
      ∃ s', dps.foldlM (checkLocation negative) s = .ok s' ∧
        ∀ dp ∈ dps, dp.isNegative = true → ¬ Sat (conj s'.R) dp
  | [], s, _, _, _ => ⟨s, rfl, by simp⟩
  | dp :: dps, s, hs, hl, hn => by
    rw [List.forall_mem_cons] at hl hn
    obtain ⟨t, ht, hdp⟩ := hNl s dp hs hn.1
    have ht' : checkLocation negative s dp = .ok t := by
      rw [checkLocation, if_pos (hs.lenR ▸ hl.1), ht]
    obtain ⟨hti, -⟩ := hNs dp s t hs ht
    obtain ⟨s', hs', hrest⟩ := foldlM_live hNs hNl dps hti hl.2 hn.2
    obtain ⟨-, hts'⟩ := foldlM_safe hNs dps hti hs'
    refine ⟨s', by rw [List.foldlM_cons, ht']; exact hs', ?_⟩
    rw [List.forall_mem_cons]
    exact ⟨fun hneg => hts'.not_sat (hdp hneg), hrest⟩

/-! ### One pass over the Horn constraints -/

theorem hornPass_cons_eq_ok {s : Split} {hc : HornConstraint} {rest : List HornConstraint}
    {r : Split × List HornConstraint × Bool} (h : hornPass fix s (hc :: rest) = .ok r) :
    (Settled s hc ∧ hornPass fix s rest = .ok r) ∨
    (conclusionSatisfied s.R hc = true ∧
      ∃ r', hornPass fix s rest = .ok r' ∧ r = (r'.1, hc :: r'.2.1, r'.2.2)) ∨
    ((∀ p ∈ hc.premises, Sat (conj s.R) p) ∧ conclusionSatisfied s.R hc = false ∧
      ∃ t r', fix hc s = .ok t ∧ hornPass fix t rest = .ok r' ∧ r = (r'.1, r'.2.1, false)) := by
  simp only [hornPass] at h
  split at h
  next => cases h
  next hl =>
    have := lhsCheck_sound hl
    simp only [Settled, false_eq_decide_iff, not_forall] at this
    exact .inl ⟨by simpa using this, h⟩
  next hl =>
    have hall := of_decide_eq_true (lhsCheck_sound hl).symm
    split at h
    next hc' =>
      obtain ⟨r', h₁, rfl⟩ := map_eq_ok.1 h
      exact .inr (.inl ⟨hc', r', h₁, rfl⟩)
    next hc' =>
      split at h
      next => cases h
      next t ht =>
        obtain ⟨r', h₁, rfl⟩ := map_eq_ok.1 h
        exact .inr (.inr ⟨hall, by simpa using hc', t, r', ht, h₁, rfl⟩)

theorem hornPass_sublist :
    ∀ {hcs : List HornConstraint} {s : Split} {r : Split × List HornConstraint × Bool},
      hornPass fix s hcs = .ok r → r.2.1.Sublist hcs ∧ (r.2.2 = false → r.2.1.length < hcs.length)
  | [], _, _, h => by cases h; simp
  | _ :: _, _, _, h => by
    rcases hornPass_cons_eq_ok h with ⟨-, h'⟩ | ⟨-, r', h', rfl⟩ | ⟨-, -, t, r', -, h', rfl⟩
    · have := (hornPass_sublist h').1
      exact ⟨this.cons _, fun _ => Nat.lt_succ_of_le this.length_le⟩
    · obtain ⟨h₁, h₂⟩ := hornPass_sublist h'
      exact ⟨h₁.cons₂ _, fun hb => Nat.succ_lt_succ (h₂ hb)⟩
    · have := (hornPass_sublist h').1
      exact ⟨this.cons _, fun _ => Nat.lt_succ_of_le this.length_le⟩

theorem hornPass_added :
    ∀ {hcs : List HornConstraint} {s : Split} {r : Split × List HornConstraint × Bool},
      hornPass fix s hcs = .ok r → r.2.2 = true →
        r.1 = s ∧ ∀ hc ∈ r.2.1, conclusionSatisfied s.R hc = true
  | [], _, _, h, _ => by cases h; simp
  | _ :: _, _, _, h, hb => by
    rcases hornPass_cons_eq_ok h with ⟨-, h'⟩ | ⟨hc, r', h', rfl⟩ | ⟨-, -, t, r', -, h', rfl⟩
    · exact hornPass_added h' hb
    · obtain ⟨h₁, h₂⟩ := hornPass_added h' hb
      exact ⟨h₁, List.forall_mem_cons.2 ⟨hc, h₂⟩⟩
    · cases hb

theorem hornPass_safe (hF : ∀ hc, StepSafe X (fix hc)) :
    ∀ {hcs : List HornConstraint} {s : Split} {r : Split × List HornConstraint × Bool},
      s.Inv X → hornPass fix s hcs = .ok r → r.1.Inv X ∧ s.Grows r.1
  | [], s, _, hs, h => by cases h; exact ⟨hs, .refl s⟩
  | _ :: _, _, _, hs, h => by
    rcases hornPass_cons_eq_ok h with ⟨-, h'⟩ | ⟨-, r', h', rfl⟩ | ⟨-, -, t, r', ht, h', rfl⟩
    · exact hornPass_safe hF hs h'
    · obtain ⟨h₁, h₂⟩ := hornPass_safe hF hs h'
      exact ⟨h₁, h₂⟩
    · obtain ⟨h₁, h₂⟩ := hF _ _ t hs ht
      obtain ⟨h₃, h₄⟩ := hornPass_safe hF h₁ h'
      exact ⟨h₃, h₂.trans h₄⟩

theorem hornPass_live (hFs : ∀ hc, StepSafe X (fix hc)) (hFl : FixLive X fix) :
    ∀ {hcs : List HornConstraint} {s : Split}, s.Inv X →
      (∀ hc ∈ hcs, ∀ p ∈ hc.premises, p.loc < X.length) → (∀ hc ∈ hcs, HornSat (conj X) hc) →
      ∃ r, hornPass fix s hcs = .ok r ∧ ∀ hc ∈ hcs, hc ∈ r.2.1 ∨ Settled r.1 hc
  | [], _, _, _, _ => ⟨_, rfl, by simp⟩
  | hc :: rest, s, hs, hwf, hX => by
    rw [List.forall_mem_cons] at hwf hX
    have hl : lhsSatisfied s.R hc.premises = .ok (decide (∀ p ∈ hc.premises, Sat (conj s.R) p)) :=
      lhsCheck_of_valid fun p hp => hs.lenR ▸ hwf.1 p hp
    by_cases hall : ∀ p ∈ hc.premises, Sat (conj s.R) p
    · by_cases hcs : conclusionSatisfied s.R hc = true
      · obtain ⟨r, hr, hk⟩ := hornPass_live hFs hFl hs hwf.2 hX.2
        refine ⟨(r.1, hc :: r.2.1, r.2.2), ?_, List.forall_mem_cons.2 ⟨.inl (List.mem_cons_self _ _),
          fun hc' m => (hk hc' m).imp_left (List.mem_cons_of_mem _)⟩⟩
        simp only [hornPass, hl, decide_eq_true hall, if_pos hcs, hr]
        rfl
      · have hXp : ∃ p ∈ hc.premises, ¬ Sat (conj X) p := by
          by_contra hne
          push_neg at hne
          obtain ⟨c, h₁, h₂⟩ := hX.1 hne
          exact hcs (conclusionSatisfied_iff.2 ⟨c, h₁, Sat.of_subset (hs.le _) h₂⟩)
        obtain ⟨t, ht, hset⟩ := hFl s hc hs hall hXp
        obtain ⟨hti, -⟩ := hFs hc s t hs ht
        obtain ⟨r, hr, hk⟩ := hornPass_live hFs hFl hti hwf.2 hX.2
        refine ⟨(r.1, r.2.1, false), ?_,
          List.forall_mem_cons.2 ⟨.inr ((hornPass_safe hFs hti hr).2.settled hset), hk⟩⟩
        simp only [hornPass, hl, decide_eq_true hall, if_neg hcs, ht, hr]
        rfl
    · have hset : Settled s hc := by simpa [Settled] using hall
      obtain ⟨r, hr, hk⟩ := hornPass_live hFs hFl hs hwf.2 hX.2
      refine ⟨r, ?_, List.forall_mem_cons.2 ⟨.inr ((hornPass_safe hFs hs hr).2.settled hset), hk⟩⟩
      simp only [hornPass, hl, decide_eq_false hall]
      exact hr

/-! ### The Horn loop -/

theorem hornLoop_safe (hF : ∀ hc, StepSafe X (fix hc)) :
    ∀ (fuel : Nat) {s s' : Split} {hcs : List HornConstraint}, s.Inv X →
      hornLoop fix fuel s hcs = some (.ok s') → s'.Inv X ∧ s.Grows s'
  | 0, _, _, _, _, h => by cases h
  | fuel + 1, s, _, hcs, hs, h => by
    rw [hornLoop] at h
    split at h
    next => cases h
    next s₁ hcs₁ b hr =>
      obtain ⟨h₁, h₂⟩ := hornPass_safe hF hs hr
      split at h
      · cases h
        exact ⟨h₁, h₂⟩
      · obtain ⟨h₃, h₄⟩ := hornLoop_safe hF fuel h₁ h
        exact ⟨h₃, h₂.trans h₄⟩

/-- With more passes than constraints left, the loop ends with every constraint of `all`
satisfied, as long as each of them is still in the list or settled. -/
theorem hornLoop_live (hFs : ∀ hc, StepSafe X (fix hc)) (hFl : FixLive X fix)
    (all : List HornConstraint) (hwf : ∀ hc ∈ all, ∀ p ∈ hc.premises, p.loc < X.length)
    (hX : ∀ hc ∈ all, HornSat (conj X) hc) :
    ∀ (fuel : Nat) {s : Split} {hcs : List HornConstraint}, hcs.length < fuel → s.Inv X →
      hcs ⊆ all → (∀ hc ∈ all, hc ∈ hcs ∨ Settled s hc) →
      ∃ s', hornLoop fix fuel s hcs = some (.ok s') ∧ ∀ hc ∈ all, HornSat (conj s'.R) hc
  | 0, _, _, hlen, _, _, _ => absurd hlen (Nat.not_lt_zero _)
  | fuel + 1, s, hcs, hlen, hs, hsub, hinv => by
    obtain ⟨⟨s₁, hcs₁, b⟩, hr, hk⟩ :=
      hornPass_live hFs hFl hs (fun hc m => hwf hc (hsub m)) (fun hc m => hX hc (hsub m))
    obtain ⟨hsub₁, hlen₁⟩ := hornPass_sublist hr
    obtain ⟨hs₁, hg₁⟩ := hornPass_safe hFs hs hr
    cases b
    · obtain ⟨s', h', hall⟩ := hornLoop_live hFs hFl all hwf hX fuel
        (by show hcs₁.length < fuel; have : hcs₁.length < hcs.length := hlen₁ rfl; omega) hs₁ (hsub₁.subset.trans hsub)
        fun hc m => (hinv hc m).elim (hk hc) fun h => .inr (hg₁.settled h)
      refine ⟨s', ?_, hall⟩
      simp only [hornLoop, hr, Bool.false_eq_true, if_false]
      exact h'
    · obtain ⟨rfl, hkept⟩ := hornPass_added hr rfl
      refine ⟨s₁, by simp only [hornLoop, hr, if_true], fun hc m => ?_⟩
      rcases hinv hc m with h | h
      · rcases hk hc h with h | h
        · obtain ⟨c, h₁, h₂⟩ := conclusionSatisfied_iff.1 (hkept hc h)
          exact fun _ => ⟨c, h₁, h₂⟩
        · exact h.hornSat
      · exact h.hornSat

/-! ### The reducers -/

theorem assertConsistent_eq_ok {datapoints : List Datapoint} {hornConstraints : List HornConstraint}
    {r : Except String Split} {R' : Conjunctions} (h : assertConsistent datapoints hornConstraints r = .ok R') :
    ∃ s, r = .ok s ∧ R' = s.R := by
  unfold assertConsistent at h
  split at h
  · cases h
  · unfold checkConsistent at h
    split_ifs at h
    cases h
    exact ⟨_, rfl, rfl⟩

theorem reduceWith_bounds (hN : ∀ dp, StepSafe X (negative · dp))
    (hF : ∀ hc, StepSafe X (fix hc)) {datapoints : List Datapoint}
    {hornConstraints : List HornConstraint} {R R' : Conjunctions}
    (h : reduceWith negative fix datapoints hornConstraints X R = some (.ok R')) :
    R'.length = X.length ∧ ∀ k, conj R k ∩ conj X k ⊆ conj R' k ∧ conj R' k ⊆ conj X k := by
  unfold reduceWith at h
  split_ifs at h
  · cases h
  · cases h
  split at h
  next => cases h
  next s hs =>
    obtain ⟨r, hr, hR'⟩ := Option.map_eq_some'.1 h
    obtain ⟨s', rfl, rfl⟩ := assertConsistent_eq_ok hR'
    obtain ⟨h₁, h₂⟩ := foldlM_safe hN datapoints (Split.Inv.prepare X R) hs
    obtain ⟨h₃, h₄⟩ := hornLoop_safe hF _ h₁ hr
    refine ⟨h₃.lenR, fun k => ⟨?_, h₃.le k⟩⟩
    rw [← conj_prepareSets_fst]
    exact (h₂ k).trans (h₄ k)

/-- What a reducer must return: a consistent `R`; or, on an empty `X`, the argument
error, which leaves the caller's `R` as it was, and consistent. -/
def ConsistentResult (datapoints : List Datapoint) (hornConstraints : List HornConstraint)
    (X R : Conjunctions) (r : Except String Conjunctions) : Prop :=
  (X = [] ∧ r = .error "X must not be empty" ∧ isConsistent R datapoints hornConstraints = true) ∨
    ∃ R', r = .ok R' ∧ isConsistent R' datapoints hornConstraints = true

/-- A safe and live reducer, from an `X` consistent with the examples, returns a consistent
`R`: the data-point pass makes every negative point fail `R`, the Horn loop satisfies every
constraint, and `R ⊆ X` keeps the positives. -/
theorem reduceWith_consistent (hNs : ∀ dp, StepSafe X (negative · dp))
    (hNl : NegativeLive X negative) (hFs : ∀ hc, StepSafe X (fix hc)) (hFl : FixLive X fix)
    {datapoints : List Datapoint} {hornConstraints : List HornConstraint} {R : Conjunctions}
    (hwf : WellFormed X.length datapoints hornConstraints) (hlen : X.length = R.length)
    (hX : isConsistent X datapoints hornConstraints = true) :
    ∃ r, reduceWith negative fix datapoints hornConstraints X R = some r ∧
      ConsistentResult datapoints hornConstraints X R r := by
  by_cases hX0 : X = []
  · subst hX0
    obtain rfl : R = [] := List.eq_nil_of_length_eq_zero hlen.symm
    exact ⟨_, by simp [reduceWith], .inl ⟨rfl, rfl, hX⟩⟩
  have hXc := (isConsistent_iff _ _ _).1 hX
  have hstart := Split.Inv.prepare X R
  obtain ⟨s, hs, hneg⟩ := foldlM_live hNs hNl datapoints hstart hwf.datapoints hXc.negatives
  obtain ⟨hsi, -⟩ := foldlM_safe hNs datapoints hstart hs
  obtain ⟨s', hs', hhorn⟩ := hornLoop_live hFs hFl hornConstraints hwf.premises hXc.horns
    (hornConstraints.length + 1) (Nat.lt_succ_self _) hsi (List.Subset.refl _) fun _ h => .inl h
  obtain ⟨hsi', hg⟩ := hornLoop_safe hFs _ hsi hs'
  have hcons : isConsistent s'.R datapoints hornConstraints = true :=
    (isConsistent_iff _ _ _).2
      ⟨fun dp m hp => Sat.of_subset (hsi'.le _) (hXc.positives dp m hp),
        fun dp m hn => hg.not_sat (hneg dp m hn), hhorn⟩
  refine ⟨.ok s'.R, ?_, .inr ⟨s'.R, rfl, hcons⟩⟩
  rw [reduceWith, if_neg (by simpa using hX0), if_neg (by omega), hs]
  simp only [hs', Option.map_some', assertConsistent, checkConsistent, hcons, if_true]

end Generic

/-! ## Relevant predicates -/

theorem hornSat_iff_satisfied {R : Conjunctions} {hc : HornConstraint} :
    HornSat (conj R) hc ↔ ((∀ p ∈ hc.premises, Sat (conj R) p) → conclusionSatisfied R hc = true) :=
  by rw [conclusionSatisfied_iff]; rfl

theorem lt_length_of_mem_relevant {s : Split} {dp : Datapoint} {p : Nat}
    (h : p ∈ relevant s dp) : dp.loc < s.XmR.length := by
  by_contra hl
  simp [relevant, conj_of_length_le (Nat.le_of_not_lt hl)] at h

theorem not_sat_of_mem_relevant {s : Split} {R : Conjunctions} {dp : Datapoint} {p : Nat}
    (hp : p ∈ relevant s dp) (hR : p ∈ conj R dp.loc) : ¬ Sat (conj R) dp := fun h => by
  have := satisfies_iff.1 h p hR
  simp [(Finset.mem_filter.1 hp).2] at this

theorem exists_relevant_of_violated {X : Conjunctions} {s : Split} (hs : s.Inv X)
    {hc : HornConstraint} (hX : HornSat (conj X) hc) (hv : ¬ HornSat (conj s.R) hc) :
    ∃ dp ∈ hc.premises, (relevant s dp).Nonempty := by
  rw [hornSat_iff_satisfied, Classical.not_imp] at hv
  by_contra hne
  push_neg at hne
  have hall : ∀ p ∈ hc.premises, Sat (conj X) p := fun p hp => by
    by_contra hp'
    exact hne p hp (hs.relevant_nonempty (hv.1 p hp) hp')
  obtain ⟨c, h₁, h₂⟩ := hX hall
  exact hv.2 (conclusionSatisfied_iff.2 ⟨c, h₁, Sat.of_subset (hs.le _) h₂⟩)

/-! ## The steps of the two reducers -/

section Steps

variable {X : Conjunctions} {s : Split}

theorem Split.Inv.addAll_inv (hs : s.Inv X) (dp : Datapoint) :
    (addAll s dp).Inv X ∧ s.Grows (addAll s dp) :=
  hs.move ((Finset.filter_subset _ _).trans (hs.xmr_subset _))

theorem Split.Inv.not_sat_addAll (hs : s.Inv X) {dp : Datapoint} (hX : ¬ Sat (conj X) dp) :
    ¬ Sat (conj (addAll s dp).R) dp := by
  by_cases hR : Sat (conj s.R) dp
  · exact (hs.move_relevant subset_rfl (hs.relevant_nonempty hR hX)).1
  · exact (hs.addAll_inv dp).2.not_sat hR

theorem Split.Inv.foldl_addAll : ∀ (ps : List Datapoint) {s : Split}, s.Inv X →
    (ps.foldl addAll s).Inv X ∧ s.Grows (ps.foldl addAll s)
  | [], s, hs => ⟨hs, .refl s⟩
  | p :: ps, _, hs =>
    let ⟨h₁, h₂⟩ := hs.addAll_inv p
    let ⟨h₃, h₄⟩ := h₁.foldl_addAll ps
    ⟨h₃, h₂.trans h₄⟩

theorem Split.Inv.not_sat_foldl_addAll : ∀ {ps : List Datapoint} {s : Split}, s.Inv X →
    ∀ p ∈ ps, ¬ Sat (conj X) p → ¬ Sat (conj (ps.foldl addAll s).R) p
  | [], _, _, _, hp, _ => absurd hp (List.not_mem_nil _)
  | q :: ps, _, hs, p, hp, hX => by
    rcases List.mem_cons.1 hp with rfl | hp
    · exact ((hs.addAll_inv p).1.foldl_addAll ps).2.not_sat (hs.not_sat_addAll hX)
    · exact (hs.addAll_inv q).1.not_sat_foldl_addAll p hp hX

theorem Split.Inv.addFirst_inv (hs : s.Inv X) {dp : Datapoint} {s' : Split}
    (h : addFirst s dp = some s') :
    s'.Inv X ∧ s.Grows s' ∧ ¬ Sat (conj s'.R) dp ∧
      (conj s.R dp.loc).card < (conj s'.R dp.loc).card := by
  unfold addFirst at h
  split at h
  next hne =>
    cases h
    have hP : {(relevant s dp).min' hne} ⊆ relevant s dp :=
      Finset.singleton_subset_iff.2 (Finset.min'_mem _ _)
    have hPX := (hP.trans (Finset.filter_subset _ _)).trans (hs.xmr_subset _)
    exact ⟨(hs.move hPX).1, (hs.move hPX).2,
      hs.move_relevant hP (Finset.singleton_nonempty _)⟩
  next => cases h

theorem addFirst_of_nonempty {dp : Datapoint} (h : (relevant s dp).Nonempty) :
    ∃ s', addFirst s dp = some s' :=
  ⟨_, dif_pos h⟩

theorem negativeAll_safe (dp : Datapoint) : StepSafe X (negativeAll X · dp) := by
  intro s s' hs h
  simp only [negativeAll] at h
  split_ifs at h <;> cases h
  · exact hs.addAll_inv dp
  · exact ⟨hs, .refl s⟩

theorem negativeAll_live : NegativeLive X (negativeAll X) := by
  intro s dp hs hX
  by_cases hc : (dp.isNegative && satisfies dp (conj s.R dp.loc)) = true
  · obtain ⟨hn, hR⟩ := Bool.and_eq_true_iff.1 hc
    have hXf : ¬ satisfies dp (conj X dp.loc) = true := hX hn
    obtain ⟨h₁, h₂⟩ : ¬ Sat (conj (addAll s dp).R) dp ∧
        (conj s.R dp.loc).card < (conj (addAll s dp).R dp.loc).card :=
      hs.move_relevant subset_rfl (hs.relevant_nonempty hR hXf)
    exact ⟨addAll s dp, by rw [negativeAll, if_pos hc, if_neg hXf, if_pos h₂], fun _ => h₁⟩
  · exact ⟨s, by rw [negativeAll, if_neg hc], fun hn hR => hc (by simpa [hn] using hR)⟩

theorem negativeFirst_safe (dp : Datapoint) : StepSafe X (negativeFirst · dp) := by
  intro s s' hs h
  simp only [negativeFirst] at h
  split_ifs at h with _ hlt <;> cases h
  · rcases ha : addFirst s dp with _ | t
    · simp [ha] at hlt
    · obtain ⟨h₁, h₂, -⟩ := hs.addFirst_inv ha
      exact ⟨h₁, h₂⟩
  · exact ⟨hs, .refl s⟩

theorem negativeFirst_live : NegativeLive X negativeFirst := by
  intro s dp hs hX
  by_cases hc : (dp.isNegative && satisfies dp (conj s.R dp.loc)) = true
  · obtain ⟨hn, hR⟩ := Bool.and_eq_true_iff.1 hc
    obtain ⟨t, ht⟩ := addFirst_of_nonempty (hs.relevant_nonempty hR (hX hn))
    obtain ⟨-, -, h₁, h₂⟩ := hs.addFirst_inv ht
    exact ⟨t, by rw [negativeFirst, if_pos hc, ht, Option.getD_some, if_pos h₂], fun _ => h₁⟩
  · exact ⟨s, by rw [negativeFirst, if_neg hc], fun hn hR => hc (by simpa [hn] using hR)⟩

theorem fixAll_safe (hc : HornConstraint) : StepSafe X (fixAll hc) := by
  intro s s' hs h
  cases h
  exact hs.foldl_addAll hc.premises

theorem fixAll_live : FixLive X fixAll := fun _ _ hs _ ⟨p, hp, hX⟩ =>
  ⟨_, rfl, p, hp, hs.not_sat_foldl_addAll p hp hX⟩

theorem fixFirst_safe (hc : HornConstraint) : StepSafe X (fixFirst hc) := by
  intro s s' hs h
  simp only [fixFirst] at h
  split at h
  next t ht =>
    cases h
    obtain ⟨p, -, hp⟩ := List.exists_of_findSome?_eq_some ht
    obtain ⟨h₁, h₂, -⟩ := hs.addFirst_inv hp
    exact ⟨h₁, h₂⟩
  next => cases h

theorem fixFirst_live : FixLive X fixFirst := by
  intro s hc hs hR ⟨p, hp, hX⟩
  obtain ⟨t, ht⟩ := addFirst_of_nonempty (hs.relevant_nonempty (hR p hp) hX)
  cases hf : hc.premises.findSome? (addFirst s) with
  | none => simp [List.findSome?_eq_none_iff.1 hf p hp] at ht
  | some t' =>
    obtain ⟨q, hq, hqt⟩ := List.exists_of_findSome?_eq_some hf
    exact ⟨t', by rw [fixFirst, hf], q, hq, (hs.addFirst_inv hqt).2.2.1⟩

end Steps

/-- `reduce_predicates_all` and `reduce_predicates_first`, on well-formed examples and an `X`
consistent with them, end without a failed assertion and return a consistent `R`. -/
theorem reducePredicates_consistent (datapoints : List Datapoint)
    (hornConstraints : List HornConstraint) (X R : Conjunctions)
    (hwf : WellFormed X.length datapoints hornConstraints) (hlen : X.length = R.length)
    (hX : isConsistent X datapoints hornConstraints = true) :
    (∃ r, reducePredicatesAll datapoints hornConstraints X R = some r ∧
      ConsistentResult datapoints hornConstraints X R r) ∧
    (∃ r, reducePredicatesFirst datapoints hornConstraints X R = some r ∧
      ConsistentResult datapoints hornConstraints X R r) :=
  ⟨reduceWith_consistent negativeAll_safe negativeAll_live fixAll_safe fixAll_live hwf hlen hX,
    reduceWith_consistent negativeFirst_safe negativeFirst_live fixFirst_safe fixFirst_live hwf
      hlen hX⟩

def negativeZero : Datapoint := ⟨[false], 0, true, false⟩

theorem reducePredicates_consistent_negativeZero :
    WellFormed [({0} : Finset Nat)].length [negativeZero] [] ∧
      [({0} : Finset Nat)].length = [(∅ : Finset Nat)].length ∧
      isConsistent [{0}] [negativeZero] [] = true ∧
      (∃ r, reducePredicatesAll [negativeZero] [] [{0}] [∅] = some r ∧
        ConsistentResult [negativeZero] [] [{0}] [∅] r) ∧
      (∃ r, reducePredicatesFirst [negativeZero] [] [{0}] [∅] = some r ∧
        ConsistentResult [negativeZero] [] [{0}] [∅] r) :=
  have hwf : WellFormed [({0} : Finset Nat)].length [negativeZero] [] :=
    ⟨by decide, by simp, by simp⟩
  ⟨hwf, rfl, by decide,
    reducePredicates_consistent [negativeZero] [] [{0}] [∅] hwf rfl (by decide)⟩

/-! ## An `R` that is already consistent -/

section Idle

variable {X : Conjunctions} {negative : Split → Datapoint → Except String Split}
  {fix : HornConstraint → Split → Except String Split}
  {datapoints : List Datapoint} {hornConstraints : List HornConstraint}

/-- A negative step that leaves the split alone on every point that is not a negative point
satisfying `R`. -/
def NegativeIdle (negative : Split → Datapoint → Except String Split) : Prop :=
  ∀ s dp, ¬ (dp.isNegative = true ∧ Sat (conj s.R) dp) → negative s dp = .ok s

theorem negativeAll_idle : NegativeIdle (negativeAll X) := fun s dp h => by
  rw [negativeAll, if_neg (by rwa [Bool.and_eq_true])]

theorem negativeFirst_idle : NegativeIdle negativeFirst := fun s dp h => by
  rw [negativeFirst, if_neg (by rwa [Bool.and_eq_true])]

theorem foldlM_idle (hN : NegativeIdle negative) :
    ∀ (dps : List Datapoint) (s : Split), (∀ dp ∈ dps, dp.loc < s.R.length) →
      (∀ dp ∈ dps, dp.isNegative = true → ¬ Sat (conj s.R) dp) →
      dps.foldlM (checkLocation negative) s = .ok s
  | [], _, _, _ => rfl
  | dp :: dps, s, hl, hn => by
    rw [List.forall_mem_cons] at hl hn
    rw [List.foldlM_cons, checkLocation, if_pos hl.1, hN s dp fun h => hn.1 h.1 h.2, ok_bind]
    exact foldlM_idle hN dps s hl.2 hn.2

theorem hornPass_idle :
    ∀ (hcs : List HornConstraint) (s : Split),
      (∀ hc ∈ hcs, ∀ p ∈ hc.premises, p.loc < s.R.length) →
      (∀ hc ∈ hcs, HornSat (conj s.R) hc) → ∃ kept, hornPass fix s hcs = .ok (s, kept, true)
  | [], _, _, _ => ⟨[], rfl⟩
  | hc :: rest, s, hl, hh => by
    rw [List.forall_mem_cons] at hl hh
    obtain ⟨kept, hk⟩ := hornPass_idle rest s hl.2 hh.2
    have hlhs : lhsSatisfied s.R hc.premises =
        .ok (decide (∀ p ∈ hc.premises, Sat (conj s.R) p)) := lhsCheck_of_valid hl.1
    by_cases hall : ∀ p ∈ hc.premises, Sat (conj s.R) p
    · refine ⟨hc :: kept, ?_⟩
      simp only [hornPass, hlhs, decide_eq_true hall, if_pos (hornSat_iff_satisfied.1 hh.1 hall), hk]
      rfl
    · exact ⟨kept, by simp only [hornPass, hlhs, decide_eq_false hall]; exact hk⟩

theorem reduceWith_idle (hN : NegativeIdle negative) {R : Conjunctions}
    (hwf : WellFormed X.length datapoints hornConstraints) (hX0 : X ≠ []) (hlen : X.length = R.length)
    (hc : isConsistent (prepareSets X R).1 datapoints hornConstraints = true) :
    reduceWith negative fix datapoints hornConstraints X R = some (.ok (prepareSets X R).1) := by
  have hcons := (isConsistent_iff _ _ _).1 hc
  have hs := Split.Inv.prepare X R
  obtain ⟨kept, hk⟩ := @hornPass_idle fix hornConstraints (.prepare X R)
    (fun hc m p hp => hs.lenR ▸ hwf.premises hc m p hp) hcons.horns
  rw [reduceWith, if_neg (by simpa using hX0), if_neg (by omega),
    foldlM_idle hN datapoints (.prepare X R) (fun dp m => hs.lenR ▸ hwf.datapoints dp m)
      hcons.negatives]
  simp only [hornLoop, hk, if_true, Option.map_some', assertConsistent, checkConsistent,
    Split.prepare_R, hc]

theorem isConsistent_of_assertConsistent {r : Except String Split} {R' : Conjunctions}
    (h : assertConsistent datapoints hornConstraints r = .ok R') :
    isConsistent R' datapoints hornConstraints = true := by
  obtain ⟨s, rfl, rfl⟩ := assertConsistent_eq_ok h
  by_contra hc
  simp [assertConsistent, checkConsistent, hc] at h

theorem reduceWith_ok_consistent {R R' : Conjunctions}
    (h : reduceWith negative fix datapoints hornConstraints X R = some (.ok R')) :
    isConsistent R' datapoints hornConstraints = true := by
  unfold reduceWith at h
  split_ifs at h
  · cases h
  · cases h
  split at h
  next => cases h
  next => exact isConsistent_of_assertConsistent (Option.map_eq_some'.1 h).choose_spec.2

end Idle

end Sorcar
end HornVerification
