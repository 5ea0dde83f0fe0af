import WinnowIce.ReduceCorrect
import WinnowIce.Greedy
import Mathlib.Algebra.Order.BigOperators.Group.Finset

/-!
# WinnowIce.GreedyLoops

The inner loops of `reduce_predicates_greedy`, each described by what it does to the sets of
`predicates`. An element sits on side `σ` of entry `(i, p)` only if `p` *fixes* it: `p` is a
predicate of `X_minus_R[i]` that one of the points it stands for, at location `i`, has false.
The invariant `Tidy` adds that an element entered under one predicate that fixes it is entered
under all of them.

* `mem_collectNegatives`, `mem_collectHorns`: the two collecting loops enter exactly the negative
  points that satisfy `R` and the Horn constraints that `R` violates.
* `erasePicked_of_found`: in a tidy map every pick is undefined behaviour. The first element the
  range-`for` visits is fixed by the picked predicate, so its body erases it from the traversed
  set.
* `scan_found`, `scan_not_found`: the scan finds an entry that fixes something whenever there is
  one.
-/

namespace HornVerification
namespace Sorcar

section Fixes

variable (datapoints : List Datapoint) (hornConstraints : List HornConstraint) (s : Split)

/-- Predicate `p` at location `i` fixes element `x` of side `σ`: one of the points `x` stands
for is at `i` and has `p` among its relevant predicates. -/
def Fixes (σ : Side) (x i p : Nat) : Prop :=
  ∃ dp ∈ targets datapoints hornConstraints σ x, dp.loc = i ∧ p ∈ relevant s dp

/-- Within a round: every element sits only under predicates that fix it, and under all of
them; `predicates` has one map per location. -/
structure Tidy (P : Predicates) : Prop where
  size : P.size = s.XmR.length
  sound : ∀ σ x i p, x ∈ (P.get i p).side σ → Fixes datapoints hornConstraints s σ x i p
  full : ∀ σ x i p i' p', x ∈ (P.get i p).side σ →
    Fixes datapoints hornConstraints s σ x i' p' → x ∈ (P.get i' p').side σ

end Fixes

theorem mem_targets_first {datapoints : List Datapoint} {hornConstraints : List HornConstraint}
    {d : Nat} {dp : Datapoint} :
    dp ∈ targets datapoints hornConstraints .first d ↔ datapoints[d]? = some dp := by
  simp [targets]

theorem mem_targets_second {datapoints : List Datapoint} {hornConstraints : List HornConstraint}
    {h : Nat} {dp : Datapoint} :
    dp ∈ targets datapoints hornConstraints .second h ↔
      ∃ hc, hornConstraints[h]? = some hc ∧ dp ∈ hc.premises := by
  unfold targets
  cases hget : hornConstraints[h]? <;> simp [hget]

theorem Fixes.lt_length {datapoints : List Datapoint} {hornConstraints : List HornConstraint}
    {s : Split} {σ : Side} {x i p : Nat} (h : Fixes datapoints hornConstraints s σ x i p) :
    i < s.XmR.length := by
  obtain ⟨dp, -, rfl, hp⟩ := h
  exact lt_length_of_mem_relevant hp

theorem Fixes.mem_XmR {datapoints : List Datapoint} {hornConstraints : List HornConstraint}
    {s : Split} {σ : Side} {x i p : Nat} (h : Fixes datapoints hornConstraints s σ x i p) :
    p ∈ conj s.XmR i := by
  obtain ⟨dp, -, rfl, hp⟩ := h
  exact (Finset.mem_filter.1 hp).1

theorem Predicates.mem_keys_of_mem_get {P : Predicates} {i p x : Nat} {σ : Side}
    (h : x ∈ (P.get i p).side σ) : p ∈ P.keys i := by
  by_contra hp
  simp [Predicates.get, hp] at h

/-! ## Entering elements -/

section Enter

variable {s : Split} {σ : Side} {x : Nat}

theorem size_foldl_modify (loc : Nat) (f : Entry → Entry) :
    ∀ (ps : List Nat) (P : Predicates), (ps.foldl (fun P p => P.modify loc p f) P).size = P.size
  | [], _ => rfl
  | _ :: ps, P => size_foldl_modify loc f ps (P.modify _ _ f)

theorem mem_foldl_modify (loc : Nat) :
    ∀ (ps : List Nat) (P : Predicates) (τ : Side) (y i p : Nat),
      y ∈ ((ps.foldl (fun P p => P.modify loc p fun e => e.update σ (insert x)) P).get i p).side τ ↔
        y ∈ (P.get i p).side τ ∨ (τ = σ ∧ y = x ∧ loc = i ∧ p ∈ ps)
  | [], P, τ, y, i, p => by simp
  | q :: ps, P, τ, y, i, p => by
    rw [List.foldl_cons, mem_foldl_modify loc ps, Predicates.get_modify]
    by_cases hq : i = loc ∧ p = q
    · obtain ⟨rfl, rfl⟩ := hq
      by_cases hτ : σ = τ
      · simp only [hτ, and_self, if_true, Entry.side_update, Finset.mem_insert, true_and,
          List.mem_cons, true_or, and_true]
        rw [or_iff_left_of_imp fun h => .inl h.1, or_comm]
      · simp [hτ, Ne.symm hτ]
    · have : loc = i ∧ (p = q ∨ p ∈ ps) ↔ loc = i ∧ p ∈ ps :=
        ⟨fun ⟨h₁, h₂⟩ => ⟨h₁, h₂.resolve_left fun h₃ => hq ⟨h₁.symm, h₃⟩⟩, fun ⟨h₁, h₂⟩ => ⟨h₁, .inr h₂⟩⟩
      rw [if_neg hq, List.mem_cons, this]

@[simp] theorem size_enter (P : Predicates) (dp : Datapoint) :
    (enter s σ x P dp).size = P.size :=
  size_foldl_modify _ _ _ _

theorem mem_enter (P : Predicates) (dp : Datapoint) (τ : Side) (y i p : Nat) :
    y ∈ ((enter s σ x P dp).get i p).side τ ↔
      y ∈ (P.get i p).side τ ∨ (τ = σ ∧ y = x ∧ dp.loc = i ∧ p ∈ relevant s dp) := by
  rw [enter, mem_foldl_modify, Finset.mem_sort]

@[simp] theorem size_foldl_enter :
    ∀ (dps : List Datapoint) (P : Predicates), (dps.foldl (enter s σ x) P).size = P.size
  | [], _ => rfl
  | dp :: dps, P => (size_foldl_enter dps _).trans (size_enter P dp)

theorem mem_foldl_enter :
    ∀ (dps : List Datapoint) (P : Predicates) (τ : Side) (y i p : Nat),
      y ∈ ((dps.foldl (enter s σ x) P).get i p).side τ ↔
        y ∈ (P.get i p).side τ ∨ (τ = σ ∧ y = x ∧ ∃ dp ∈ dps, dp.loc = i ∧ p ∈ relevant s dp)
  | [], P, τ, y, i, p => by simp
  | dp :: dps, P, τ, y, i, p => by
    rw [List.foldl_cons, mem_foldl_enter dps, mem_enter]
    simp only [List.mem_cons, exists_eq_or_imp, or_assoc, ← and_or_left]

end Enter

/-! ## The two collecting loops -/

section Collect

variable {datapoints : List Datapoint} {hornConstraints : List HornConstraint} {s : Split}

theorem foldlM_enterNegative :
    ∀ (l : List (Nat × Datapoint)) (P P' : Predicates), l.foldlM (enterNegative s) P = .ok P' →
      P'.size = P.size ∧ ∀ τ y i p, y ∈ (P'.get i p).side τ ↔ y ∈ (P.get i p).side τ ∨
        (τ = .first ∧ ∃ d ∈ l, y = d.1 ∧
          (d.2.isNegative && satisfies d.2 (conj s.R d.2.loc)) = true ∧
          d.2.loc = i ∧ p ∈ relevant s d.2)
  | [], P, P', h => by cases h; simp
  | d :: l, P, P', h => by
    rw [List.foldlM_cons, bind_eq_ok] at h
    obtain ⟨P₁, h₁, h₂⟩ := h
    obtain ⟨hs, hm⟩ := foldlM_enterNegative l P₁ P' h₂
    simp only [enterNegative] at h₁
    split_ifs at h₁ with hl hc <;> cases h₁
    · refine ⟨hs.trans (size_enter _ _), fun τ y i p => ?_⟩
      rw [hm, mem_enter]
      simp only [List.mem_cons, exists_eq_or_imp, hc, true_and, and_or_left, or_assoc]
    · refine ⟨hs, fun τ y i p => ?_⟩
      rw [hm]
      simp only [List.mem_cons, exists_eq_or_imp, hc, Bool.false_eq_true, false_and, and_false,
        false_or]

theorem foldlM_enterNegative_ok :
    ∀ (l : List (Nat × Datapoint)) (P : Predicates), (∀ d ∈ l, d.2.loc < s.R.length) →
      ∃ P', l.foldlM (enterNegative s) P = .ok P'
  | [], P, _ => ⟨P, rfl⟩
  | d :: l, P, hl => by
    rw [List.forall_mem_cons] at hl
    obtain ⟨P', h⟩ := foldlM_enterNegative_ok l _ hl.2
    exact ⟨P', by rw [List.foldlM_cons, enterNegative, if_pos hl.1]; exact h⟩

theorem mem_collectNegatives {P P' : Predicates}
    (h : collectNegatives datapoints s P = .ok P') :
    P'.size = P.size ∧ ∀ τ y i p, y ∈ (P'.get i p).side τ ↔ y ∈ (P.get i p).side τ ∨
      (τ = .first ∧ (∃ dp, datapoints[y]? = some dp ∧ dp.isNegative = true ∧ Sat (conj s.R) dp) ∧
        Fixes datapoints hornConstraints s .first y i p) := by
  obtain ⟨hs, hm⟩ := foldlM_enterNegative _ P P' h
  refine ⟨hs, fun τ y i p => ?_⟩
  rw [hm]
  simp only [Fixes, mem_targets_first, List.mem_enum_iff_getElem?, Bool.and_eq_true]
  constructor
  · rintro (h | ⟨hτ, ⟨y', dp⟩, hd, rfl, ⟨hn, hR⟩, hl, hp⟩)
    · exact .inl h
    · exact .inr ⟨hτ, ⟨dp, hd, hn, hR⟩, dp, hd, hl, hp⟩
  · rintro (h | ⟨hτ, ⟨dp, hd, hn, hR⟩, dp', hd', hl, hp⟩)
    · exact .inl h
    · obtain rfl : dp = dp' := Option.some.inj (hd.symm.trans hd')
      exact .inr ⟨hτ, ⟨y, dp⟩, hd, rfl, ⟨hn, hR⟩, hl, hp⟩

theorem collectNegatives_ok (P : Predicates) (hl : ∀ dp ∈ datapoints, dp.loc < s.R.length) :
    ∃ P', collectNegatives datapoints s P = .ok P' :=
  foldlM_enterNegative_ok _ P fun d hd =>
    hl d.2 (List.mem_iff_getElem?.2 ⟨d.1, List.mem_enum_iff_getElem?.1 hd⟩)

theorem foldlM_enterHorn :
    ∀ (l : List (Nat × HornConstraint)) (r r' : Predicates × Bool),
      l.foldlM (enterHorn s) r = .ok r' →
      r'.1.size = r.1.size ∧ (r'.2 = true ↔ r.2 = true ∧ ∀ h ∈ l, HornSat (conj s.R) h.2) ∧
      ∀ τ y i p, y ∈ (r'.1.get i p).side τ ↔ y ∈ (r.1.get i p).side τ ∨
        (τ = .second ∧ ∃ h ∈ l, y = h.1 ∧ ¬ HornSat (conj s.R) h.2 ∧
          ∃ dp ∈ h.2.premises, dp.loc = i ∧ p ∈ relevant s dp)
  | [], r, r', h => by cases h; simp
  | h :: l, r, r', hr => by
    rw [List.foldlM_cons, bind_eq_ok] at hr
    obtain ⟨r₁, h₁, h₂⟩ := hr
    obtain ⟨lhs, hl, rfl⟩ := map_eq_ok.1 h₁
    have hsat : HornSat (conj s.R) h.2 ↔ (lhs && !conclusionSatisfied s.R h.2) = false := by
      rw [hornSat_iff_satisfied, lhsCheck_sound hl]
      cases conclusionSatisfied s.R h.2 <;> simp
    rw [List.forall_mem_cons, hsat]
    by_cases hc : (lhs && !conclusionSatisfied s.R h.2) = true
    · rw [if_pos hc] at h₂
      obtain ⟨hs, hd, hm⟩ := foldlM_enterHorn l _ r' h₂
      refine ⟨hs.trans (size_foldl_enter _ _), by simpa [hc] using hd, fun τ y i p => ?_⟩
      rw [hm, mem_foldl_enter]
      simp only [List.mem_cons, exists_eq_or_imp, hsat, hc, Bool.true_eq_false, not_false_eq_true,
        true_and, and_or_left, or_assoc]
    · rw [if_neg hc] at h₂
      rw [Bool.not_eq_true] at hc
      obtain ⟨hs, hd, hm⟩ := foldlM_enterHorn l _ r' h₂
      refine ⟨hs, by simpa [hc] using hd, fun τ y i p => ?_⟩
      rw [hm]
      simp [hsat, hc]

theorem foldlM_enterHorn_ok :
    ∀ (l : List (Nat × HornConstraint)) (r : Predicates × Bool),
      (∀ h ∈ l, ∀ dp ∈ h.2.premises, dp.loc < s.R.length) →
      ∃ r', l.foldlM (enterHorn s) r = .ok r'
  | [], r, _ => ⟨r, rfl⟩
  | h :: l, r, hl => by
    rw [List.forall_mem_cons] at hl
    obtain ⟨r', hr'⟩ := foldlM_enterHorn_ok l _ hl.2
    refine ⟨r', ?_⟩
    rw [List.foldlM_cons, enterHorn, lhsSatisfied, lhsCheck_of_valid hl.1]
    exact hr'

theorem mem_collectHorns {P P' : Predicates} {done : Bool}
    (h : collectHorns hornConstraints s P = .ok (P', done)) :
    P'.size = P.size ∧ (done = true ↔ ∀ hc ∈ hornConstraints, HornSat (conj s.R) hc) ∧
      ∀ τ y i p, y ∈ (P'.get i p).side τ ↔ y ∈ (P.get i p).side τ ∨
        (τ = .second ∧
          (∃ hc, hornConstraints[y]? = some hc ∧ ¬ HornSat (conj s.R) hc) ∧
          Fixes datapoints hornConstraints s .second y i p) := by
  obtain ⟨hs, hd, hm⟩ := foldlM_enterHorn _ (P, true) (P', done) h
  refine ⟨hs, ?_, fun τ y i p => ?_⟩
  · rw [hd]
    simp only [true_and, Prod.forall]
    exact ⟨fun h' hc m => let ⟨n, hn⟩ := List.mem_iff_getElem?.1 m
      h' n hc (List.mem_enum_iff_getElem?.2 hn), fun h' n hc m =>
      h' hc (List.mem_iff_getElem?.2 ⟨n, List.mem_enum_iff_getElem?.1 m⟩)⟩
  · rw [hm]
    simp only [Fixes, mem_targets_second, List.mem_enum_iff_getElem?]
    constructor
    · rintro (h | ⟨hτ, ⟨y', hc⟩, hd, rfl, hv, dp, hp, hl, hr⟩)
      · exact .inl h
      · exact .inr ⟨hτ, ⟨hc, hd, hv⟩, dp, ⟨hc, hd, hp⟩, hl, hr⟩
    · rintro (h | ⟨hτ, ⟨hc, hd, hv⟩, dp, ⟨hc', hd', hp⟩, hl, hr⟩)
      · exact .inl h
      · obtain rfl : hc = hc' := Option.some.inj (hd.symm.trans hd')
        exact .inr ⟨hτ, ⟨y, hc⟩, hd, rfl, hv, dp, hp, hl, hr⟩

theorem collectHorns_ok (P : Predicates)
    (hl : ∀ hc ∈ hornConstraints, ∀ dp ∈ hc.premises, dp.loc < s.R.length) :
    ∃ r, collectHorns hornConstraints s P = .ok r :=
  foldlM_enterHorn_ok _ _ fun h hh =>
    hl h.2 (List.mem_iff_getElem?.2 ⟨h.1, List.mem_enum_iff_getElem?.1 hh⟩)

end Collect

/-! ## The invariant `Tidy` -/

section TidySection

variable {datapoints : List Datapoint} {hornConstraints : List HornConstraint} {s : Split}

theorem Tidy.empty : Tidy datapoints hornConstraints s (.empty s.XmR.length) where
  size := rfl
  sound _ _ _ _ h := by simp [Predicates.get, Predicates.empty] at h
  full _ _ _ _ _ _ h := by simp [Predicates.get, Predicates.empty] at h

theorem Tidy.add {P P' : Predicates} {σ : Side} {A : Nat → Prop}
    (hT : Tidy datapoints hornConstraints s P) (hs : P'.size = P.size)
    (hm : ∀ τ y i p, y ∈ (P'.get i p).side τ ↔ y ∈ (P.get i p).side τ ∨
      (τ = σ ∧ A y ∧ Fixes datapoints hornConstraints s σ y i p)) :
    Tidy datapoints hornConstraints s P' where
  size := hs.trans hT.size
  sound τ x i p h := by
    rcases (hm τ x i p).1 h with h | ⟨rfl, -, hf⟩
    · exact hT.sound τ x i p h
    · exact hf
  full τ x i p i' p' h hf := by
    rw [hm] at h ⊢
    rcases h with h | ⟨rfl, hA, -⟩
    · exact .inl (hT.full τ x i p i' p' h hf)
    · exact .inr ⟨rfl, hA, hf⟩

end TidySection

/-! ## Picks -/

section Pick

variable {datapoints : List Datapoint} {hornConstraints : List HornConstraint} {s : Split}

theorem mem_erasures {σ : Side} {xs : Finset Nat} {x i p : Nat} :
    (x, i, p) ∈ erasures datapoints hornConstraints s σ xs ↔
      x ∈ xs ∧ Fixes datapoints hornConstraints s σ x i p := by
  simp only [erasures, List.mem_flatMap, List.mem_map, Finset.mem_sort, Prod.mk.injEq, Fixes]
  constructor
  · rintro ⟨x', hx', dp, hdp, p', hp', rfl, rfl, rfl⟩
    exact ⟨hx', dp, hdp, rfl, hp'⟩
  · rintro ⟨hx, dp, hdp, rfl, hp⟩
    exact ⟨x, hx, dp, hdp, p, hp, rfl, rfl, rfl⟩

theorem runErasures_ok (σ : Side) :
    ∀ (es : List (Nat × Nat × Nat)) (P : Predicates),
      (∀ e ∈ es, e.2.1 < P.size ∧ e.2.2 ∈ P.keys e.2.1) → ∃ P', runErasures σ P es = .ok P'
  | [], P, _ => ⟨P, rfl⟩
  | (x, i, p) :: es, P, h => by
    rw [List.forall_mem_cons] at h
    obtain ⟨P', h'⟩ := runErasures_ok σ es
      (P.update i p fun en => en.update σ fun xs => xs.erase x) h.2
    refine ⟨P', ?_⟩
    rw [runErasures, List.foldlM_cons, Predicates.modifyAt_of_mem h.1.1 h.1.2]
    exact h'

/-- The range-`for` over a non-empty side of an entry of a tidy map is undefined at its first
element: the element's erase calls find their keys, and one of them is on the traversed entry. -/
theorem traverse_of_tidy {P : Predicates} (hT : Tidy datapoints hornConstraints s P) (σ : Side)
    {i p : Nat} {xs : Finset Nat} (hne : xs ≠ ∅) (hxs : xs = (P.get i p).side σ) :
    traverse datapoints hornConstraints s σ i p (xs.sort (· ≤ ·)) P =
      .error erasedUnderIterator := by
  obtain ⟨y, hy⟩ := Finset.nonempty_iff_ne_empty.2 hne
  obtain ⟨x, rest, hsort⟩ := List.exists_cons_of_ne_nil
    (List.ne_nil_of_mem ((Finset.mem_sort (· ≤ ·)).2 hy))
  have hx : x ∈ (P.get i p).side σ := hxs ▸ (Finset.mem_sort _).1 (hsort ▸ List.mem_cons_self _ _)
  have hf := hT.sound σ x i p hx
  obtain ⟨P', hP'⟩ := runErasures_ok σ (erasures datapoints hornConstraints s σ {x}) P
    fun ⟨y, j, q⟩ he => by
      obtain ⟨hy, hfy⟩ := mem_erasures.1 he
      obtain rfl := Finset.mem_singleton.1 hy
      exact ⟨hT.size ▸ hfy.lt_length, Predicates.mem_keys_of_mem_get (hT.full σ y i p j q hx hfy)⟩
  rw [hsort, traverse, hP', ok_bind, if_pos (mem_erasures.2 ⟨Finset.mem_singleton_self x, hf⟩)]

end Pick

/-! ## The scan -/

section Scan

variable {P : Predicates}

/-- What the scan holds: a present entry that fixes `value` elements, or, while nothing is
found, `value = 0`. -/
def Pick.Valid (P : Predicates) (b : Pick) : Prop :=
  (b.found = true → b.id < P.size ∧ b.p ∈ P.keys b.id ∧ b.value = (P.get b.id b.p).count ∧
    0 < b.value) ∧ (b.found = false → b.value = 0)

theorem Pick.Valid.step {b : Pick} (hb : b.Valid P) {i p : Nat} (hi : i < P.size)
    (hp : p ∈ P.keys i) : (b.step i p (P.get i p)).Valid P := by
  unfold Pick.step
  split_ifs with h
  · exact ⟨fun _ => ⟨hi, hp, rfl, Nat.zero_lt_of_lt h⟩, fun h => Bool.noConfusion h⟩
  · exact hb

theorem Pick.le_step (b : Pick) (i p : Nat) (e : Entry) :
    b.value ≤ (b.step i p e).value ∧ e.count ≤ (b.step i p e).value := by
  unfold Pick.step
  split_ifs with h
  · exact ⟨h.le, le_rfl⟩
  · exact ⟨le_rfl, Nat.le_of_not_lt h⟩

theorem scanMap_spec (i : Nat) : ∀ (ps : List Nat) (b : Pick),
    b.value ≤ (ps.foldl (fun b p => b.step i p (P.get i p)) b).value ∧
    (∀ p ∈ ps, (P.get i p).count ≤ (ps.foldl (fun b p => b.step i p (P.get i p)) b).value) ∧
    (i < P.size → (∀ p ∈ ps, p ∈ P.keys i) → b.Valid P →
      (ps.foldl (fun b p => b.step i p (P.get i p)) b).Valid P)
  | [], b => ⟨le_rfl, by simp, fun _ _ hb => hb⟩
  | p :: ps, b => by
    obtain ⟨h₁, h₂, h₃⟩ := scanMap_spec i ps (b.step i p (P.get i p))
    obtain ⟨h₄, h₅⟩ := b.le_step i p (P.get i p)
    refine ⟨h₄.trans h₁, List.forall_mem_cons.2 ⟨h₅.trans h₁, h₂⟩, fun hi hk hb => ?_⟩
    rw [List.forall_mem_cons] at hk
    exact h₃ hi hk.2 (hb.step hi hk.1)

theorem foldl_scanMap_spec : ∀ (is : List Nat) (b : Pick),
    b.value ≤ (is.foldl (scanMap P) b).value ∧
    (∀ i ∈ is, ∀ p ∈ P.keys i, (P.get i p).count ≤ (is.foldl (scanMap P) b).value) ∧
    ((∀ i ∈ is, i < P.size) → b.Valid P → (is.foldl (scanMap P) b).Valid P)
  | [], b => ⟨le_rfl, by simp, fun _ hb => hb⟩
  | i :: is, b => by
    obtain ⟨h₁, h₂, h₃⟩ := foldl_scanMap_spec is (scanMap P b i)
    obtain ⟨h₄, h₅, h₆⟩ := scanMap_spec i ((P.keys i).sort (· ≤ ·)) b
    refine ⟨h₄.trans h₁, List.forall_mem_cons.2 ⟨fun p hp => ?_, h₂⟩, fun hi hb => ?_⟩
    · exact (h₅ p ((P.keys i).mem_sort _ |>.2 hp)).trans h₁
    · rw [List.forall_mem_cons] at hi
      exact h₃ hi.2 (h₆ hi.1 (fun p hp => ((P.keys i).mem_sort _).1 hp) hb)

theorem scan_valid : (scan P).Valid P :=
  ((foldl_scanMap_spec _ _).2.2 (fun _ hi => List.mem_range.1 hi)
    ⟨fun h => Bool.noConfusion h, fun _ => rfl⟩)

theorem scan_found (h : (scan P).found = true) :
    (scan P).id < P.size ∧ (scan P).p ∈ P.keys (scan P).id ∧
      0 < (P.get (scan P).id (scan P).p).count := by
  obtain ⟨h₁, h₂, h₃, h₄⟩ := scan_valid.1 h
  exact ⟨h₁, h₂, h₃ ▸ h₄⟩

theorem scan_not_found (h : (scan P).found = false) : ∀ i < P.size, ∀ p, (P.get i p).count = 0 := by
  intro i hi p
  by_cases hp : p ∈ P.keys i
  · have : (P.get i p).count ≤ (scan P).value :=
      (foldl_scanMap_spec (List.range P.size) ⟨0, 0, 0, false⟩).2.1 i (List.mem_range.2 hi) p hp
    rw [scan_valid.2 h] at this
    omega
  · simp [Predicates.get, hp, Entry.count, Entry.empty]

end Scan

/-! ## The picks -/

section Picks

variable {datapoints : List Datapoint} {hornConstraints : List HornConstraint} {s : Split}

theorem exists_mem_of_count_pos {e : Entry} (h : 0 < e.count) : ∃ σ x, x ∈ e.side σ := by
  by_contra hne
  push_neg at hne
  exact absurd (Entry.count_eq_zero.2 fun σ => Finset.eq_empty_of_forall_not_mem (hne σ)) (by omega)

theorem erasePicked_of_found {P : Predicates} (hT : Tidy datapoints hornConstraints s P)
    (hfound : (scan P).found = true) :
    erasePicked datapoints hornConstraints s P (scan P).id (scan P).p =
      .error erasedUnderIterator := by
  obtain ⟨hi, hp, hc⟩ := scan_found hfound
  simp only [erasePicked, Predicates.atEntry_of_mem hi hp, ok_bind]
  by_cases h1 : (P.get (scan P).id (scan P).p).first = ∅
  · have h2 : (P.get (scan P).id (scan P).p).second ≠ ∅ := fun h2 => by
      simp [Entry.count, h1, h2] at hc
    rw [h1, Finset.sort_empty, traverse, ok_bind, Predicates.atEntry_of_mem hi hp, ok_bind,
      traverse_of_tidy hT .second h2 rfl]
    rfl
  · rw [traverse_of_tidy hT .first h1 rfl]
    rfl

theorem Tidy.not_mem_of_not_found {P : Predicates} (hT : Tidy datapoints hornConstraints s P)
    (h : (scan P).found = false) : ∀ σ y i p, y ∉ (P.get i p).side σ := fun σ y i p hy => by
  have hi : i < P.size := hT.size ▸ (hT.sound σ y i p hy).lt_length
  rw [Entry.count_eq_zero.1 (scan_not_found h i hi p) σ] at hy
  exact Finset.not_mem_empty _ hy

/-- From a tidy map the picks never complete one: the first ends in `erasedUnderIterator`. -/
theorem pickLoop_of_found {P : Predicates} (hT : Tidy datapoints hornConstraints s P)
    (hfound : (scan P).found = true) (fuel : Nat) (picked : List (Nat × Nat)) :
    pickLoop datapoints hornConstraints s (fuel + 1) P picked =
      some (.error erasedUnderIterator) := by
  rw [pickLoop, if_pos hfound, erasePicked_of_found hT hfound]

theorem allEmpty_of_empty {P : Predicates} (h : ∀ σ y i p, y ∉ (P.get i p).side σ) :
    allEmpty P = true := by
  simp only [allEmpty, decide_eq_true_eq]
  exact fun i _ p _ => ⟨Finset.eq_empty_of_forall_not_mem (h .first · i p),
    Finset.eq_empty_of_forall_not_mem (h .second · i p)⟩

end Picks

end Sorcar
end HornVerification
