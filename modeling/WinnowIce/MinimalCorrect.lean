import WinnowIce.ReduceCorrect
import WinnowIce.Minimal
import Mathlib.Algebra.BigOperators.Group.Finset
import Mathlib.Algebra.Order.Ring.Nat

/-!
# WinnowIce.MinimalCorrect

What the encoding of `reduce_predicates_minimal` says about an assignment, and what the reducer
returns. `neg_expr` holds iff every negative point that satisfies `R` gets a relevant predicate
(`NegCut`); `horn_expr` holds iff every constraint whose premises satisfy `R` gets the clauses
of `HornCut`. Adding the true variables of such an assignment to `R` gives a consistent `R`, and
the assignment that makes every variable true is one when `X` is consistent, so the loop over
`k` meets a model before `k` reaches `var_count`.

* `trueFirst_correct`: the enumerating solver meets the solver contract.
* `consistent_addModel`: a model of the encoding gives a consistent `R`.
* `reducePredicatesMinimal_consistent`: with any solver that meets the contract, the reducer
  returns a consistent `R` on well-formed examples and a consistent `X`.
-/

namespace HornVerification
namespace Sorcar

namespace Formula

theorem eval_congr {a b : Assignment} (f : Formula) (h : ∀ v ∈ f.vars, a v.1 v.2 = b v.1 v.2) :
    f.eval a = f.eval b := by
  induction f with
  | const => rfl
  | var i p => exact h (i, p) (List.mem_singleton_self _)
  | and f g ihf ihg | or f g ihf ihg =>
    simp only [vars, List.mem_append] at h
    simp only [eval, ihf fun v hv => h v (.inl hv), ihg fun v hv => h v (.inr hv)]
  | not f ih => simp only [eval, ih h]

end Formula

/-! ## The solver -/

theorem filter_mem_subsetsOf (q : Nat × Nat → Bool) :
    ∀ vs : List (Nat × Nat), vs.filter q ∈ subsetsOf vs
  | [] => List.mem_singleton_self _
  | v :: vs => by
    rw [List.filter_cons, subsetsOf, List.mem_append]
    split
    · exact .inl (List.mem_map_of_mem _ (filter_mem_subsetsOf q vs))
    · exact .inr (filter_mem_subsetsOf q vs)

/-- Enumerating every set of variables of the assertions meets the contract: the variables
outside the assertions and the bound do not change the value of the assertions. -/
theorem trueFirst_correct : Solver.Correct trueFirst := by
  intro f vars k
  refine ⟨fun a h => by simpa using List.find?_some h, fun h a ha => ?_⟩
  by_contra hk
  let t := (vars ++ f.vars).filter fun v => a v.1 v.2
  have hagree : ∀ v ∈ vars ++ f.vars, Assignment.ofList t v.1 v.2 = a v.1 v.2 := fun v hv => by
    simp only [Assignment.ofList, Prod.mk.eta, t, List.mem_filter, hv, true_and,
      Bool.decide_eq_true]
  have heval : f.eval (Assignment.ofList t) = true :=
    (Formula.eval_congr f fun v hv => hagree v (List.mem_append_right _ hv)).trans ha
  have hcount : trueCount vars (Assignment.ofList t) = trueCount vars a := by
    unfold trueCount
    rw [List.filter_congr fun v hv => hagree v (List.mem_append_left _ hv)]
  rw [trueFirst, List.find?_eq_none] at h
  refine h (Assignment.ofList t)
    (List.mem_map_of_mem Assignment.ofList (filter_mem_subsetsOf (fun v => a v.1 v.2) _)) ?_
  show (f.eval (Assignment.ofList t) && decide (trueCount vars (Assignment.ofList t) ≤ k)) = true
  rw [heval, hcount]
  simpa using hk

theorem kLoop_of_some {check : Nat → Option Assignment} {varCount k : Nat} {a : Assignment}
    (h : check k = some a) : kLoop check varCount k = .ok a := by
  rw [kLoop, h]

theorem kLoop_of_none {check : Nat → Option Assignment} {varCount k : Nat} (h : check k = none) :
    kLoop check varCount k =
      if varCount ≤ k then .error "k >= var_count" else kLoop check varCount (k + 1) := by
  rw [kLoop, h]
  rfl

theorem kLoop_ok {check : Nat → Option Assignment} {varCount c : Nat}
    (hc : ∀ k, check k = none → k < c) (hle : c ≤ varCount) :
    ∀ d k, varCount - k ≤ d → ∃ a k', kLoop check varCount k = .ok a ∧ check k' = some a := by
  intro d
  induction d with
  | zero =>
    intro k hd
    cases h : check k with
    | some a => exact ⟨a, k, kLoop_of_some h, h⟩
    | none => exact absurd (hc k h) (by omega)
  | succ d ih =>
    intro k hd
    cases h : check k with
    | some a => exact ⟨a, k, kLoop_of_some h, h⟩
    | none =>
      rw [kLoop_of_none h, if_neg (by have := hc k h; omega)]
      exact ih (k + 1) (by omega)

theorem kLoop_eq_ok {check : Nat → Option Assignment} {varCount : Nat} :
    ∀ d k {a : Assignment}, varCount - k ≤ d → kLoop check varCount k = .ok a →
      ∃ k', k ≤ k' ∧ check k' = some a ∧ ∀ j, k ≤ j → j < k' → check j = none := by
  intro d
  induction d with
  | zero =>
    intro k a hd h
    cases hc : check k with
    | some a' =>
      rw [kLoop_of_some hc] at h
      cases h
      exact ⟨k, le_rfl, hc, fun j h₁ h₂ => absurd h₂ (by omega)⟩
    | none =>
      rw [kLoop_of_none hc, if_pos (by omega)] at h
      cases h
  | succ d ih =>
    intro k a hd h
    cases hc : check k with
    | some a' =>
      rw [kLoop_of_some hc] at h
      cases h
      exact ⟨k, le_rfl, hc, fun j h₁ h₂ => absurd h₂ (by omega)⟩
    | none =>
      rw [kLoop_of_none hc] at h
      split at h
      · cases h
      · obtain ⟨k', hk, hk', hj⟩ := ih (k + 1) (by omega) h
        refine ⟨k', by omega, hk', fun j h₁ h₂ => ?_⟩
        rcases Nat.eq_or_lt_of_le h₁ with rfl | h₁
        · exact hc
        · exact hj j h₁ h₂

/-! ## The meaning of the encoding -/

section Encoding

variable {s : Split} {a : Assignment}

theorem eval_foldl_and {α : Type} (step : Formula → α → Formula) (P : α → Prop)
    (hstep : ∀ e x, (step e x).eval a = true ↔ e.eval a = true ∧ P x) :
    ∀ (xs : List α) (e : Formula), (xs.foldl step e).eval a = true ↔ e.eval a = true ∧ ∀ x ∈ xs, P x
  | [], e => by simp
  | x :: xs, e => by
    rw [List.foldl_cons, eval_foldl_and step P hstep xs, hstep, List.forall_mem_cons, and_assoc]

theorem eval_foldl_or {α : Type} (step : Formula → α → Formula) (P : α → Prop)
    (hstep : ∀ e x, (step e x).eval a = true ↔ e.eval a = true ∨ P x) :
    ∀ (xs : List α) (e : Formula), (xs.foldl step e).eval a = true ↔ e.eval a = true ∨ ∃ x ∈ xs, P x
  | [], e => by simp
  | x :: xs, e => by
    rw [List.foldl_cons, eval_foldl_or step P hstep xs, hstep]
    simp only [List.mem_cons, exists_eq_or_imp, or_assoc]

theorem eval_falsifiers (c : Formula) (dp : Datapoint) :
    (falsifiers s c dp).eval a = true ↔ c.eval a = true ∨ ∃ p ∈ relevant s dp, a dp.loc p = true := by
  rw [falsifiers, eval_foldl_or _ (fun p => a dp.loc p = true) fun _ _ => by
    simp only [Formula.eval, Bool.or_eq_true]]
  simp only [Finset.mem_sort]

def FalsifiesPremise (s : Split) (a : Assignment) (hc : HornConstraint) : Prop :=
  ∃ dp ∈ hc.premises, ∃ p ∈ relevant s dp, a dp.loc p = true

def Keeps (s : Split) (a : Assignment) (c : Datapoint) : Prop :=
  ∀ p ∈ relevant s c, a c.loc p = false

theorem eval_premiseClause (hc : HornConstraint) :
    (premiseClause s hc).eval a = true ↔ FalsifiesPremise s a hc := by
  rw [premiseClause, eval_foldl_or (falsifiers s) _ fun _ _ => eval_falsifiers _ _]
  simp [Formula.eval, FalsifiesPremise]

theorem eval_keepExpr (c : Datapoint) : (keepExpr s c).eval a = true ↔ Keeps s a c := by
  rw [keepExpr, eval_foldl_and _ (fun p => a c.loc p = false) fun _ _ => by
    simp [Formula.eval]]
  simp [Formula.eval, Keeps]

/-- The clause `neg_expr` has for `dp`. -/
def NegCut (s : Split) (a : Assignment) (dp : Datapoint) : Prop :=
  dp.isNegative = true → Sat (conj s.R) dp → ∃ p ∈ relevant s dp, a dp.loc p = true

theorem eval_negStep (e : Formula) (dp : Datapoint) :
    (negStep s e dp).eval a = true ↔ e.eval a = true ∧ NegCut s a dp := by
  unfold negStep NegCut Sat
  cases dp.isNegative <;> cases satisfies dp (conj s.R dp.loc) <;>
    simp [Formula.eval, eval_falsifiers]

theorem eval_negExpr (datapoints : List Datapoint) :
    (negExpr s datapoints).eval a = true ↔ ∀ dp ∈ datapoints, NegCut s a dp := by
  rw [negExpr, eval_foldl_and (negStep s) _ fun _ _ => eval_negStep _ _]
  simp [Formula.eval]

/-- The clauses `horn_expr` has for `hc` once its premises satisfy `R`: a violated constraint
gets a falsified premise, and a conclusion that satisfies `R` is kept or a premise falsified. -/
def HornCut (s : Split) (a : Assignment) (hc : HornConstraint) : Prop :=
  (∀ p ∈ hc.premises, Sat (conj s.R) p) →
    (conclusionSatisfied s.R hc = false → FalsifiesPremise s a hc) ∧
      ∀ c, hc.conclusion = some c → Sat (conj s.R) c → FalsifiesPremise s a hc ∨ Keeps s a c

theorem hornStep_eq_ok {e e' : Formula} {hc : HornConstraint} (h : hornStep s e hc = .ok e') :
    e'.eval a = true ↔ e.eval a = true ∧ HornCut s a hc := by
  obtain ⟨lhs, hl, rfl⟩ := map_eq_ok.1 h
  obtain rfl := lhsCheck_sound hl
  rcases hc with ⟨ps, cl⟩
  unfold HornCut
  by_cases hp : ∀ p ∈ ps, Sat (conj s.R) p
  · rw [decide_eq_true hp]
    rcases cl with _ | c
    · simp [conclusionSatisfied, Formula.eval, eval_premiseClause, eq_true hp]
    · by_cases hc : Sat (conj s.R) c
      · have hc' : satisfies c (conj s.R c.loc) = true := hc
        simp [conclusionSatisfied, Formula.eval, eval_premiseClause, eval_keepExpr, eq_true hp,
          hc, hc']
      · have hc' : satisfies c (conj s.R c.loc) = false := by simpa [Sat] using hc
        simp [conclusionSatisfied, Formula.eval, eval_premiseClause, eq_true hp, hc, hc']
  · rw [decide_eq_false hp]
    rcases cl with _ | c <;> simp [hp]

theorem foldlM_hornStep_eq_ok : ∀ {hcs : List HornConstraint} {e₀ e : Formula},
    hcs.foldlM (hornStep s) e₀ = .ok e →
      (e.eval a = true ↔ e₀.eval a = true ∧ ∀ hc ∈ hcs, HornCut s a hc)
  | [], e₀, e, h => by cases h; simp
  | hc :: hcs, e₀, e, h => by
    obtain ⟨e₁, h₁, h₂⟩ := bind_eq_ok.1 h
    rw [foldlM_hornStep_eq_ok h₂, hornStep_eq_ok h₁, List.forall_mem_cons, and_assoc]

theorem eval_hornExpr {hcs : List HornConstraint} {e : Formula} (h : hornExpr s hcs = .ok e) :
    e.eval a = true ↔ ∀ hc ∈ hcs, HornCut s a hc := by
  rw [foldlM_hornStep_eq_ok h]
  simp [Formula.eval]

theorem hornExpr_ok {hcs : List HornConstraint}
    (h : ∀ hc ∈ hcs, ∀ p ∈ hc.premises, p.loc < s.R.length) : ∃ e, hornExpr s hcs = .ok e := by
  suffices ∀ e₀, ∃ e, hcs.foldlM (hornStep s) e₀ = .ok e from this _
  induction hcs with
  | nil => exact fun e₀ => ⟨e₀, rfl⟩
  | cons hc hcs ih =>
    intro e₀
    have ⟨e₁, h₁⟩ : ∃ e₁, hornStep s e₀ hc = .ok e₁ :=
      ⟨_, by rw [hornStep, lhsCheck_of_valid (h hc (List.mem_cons_self _ _))]; rfl⟩
    obtain ⟨e, he⟩ := ih (fun hc' m => h hc' (List.mem_cons_of_mem _ m)) e₁
    exact ⟨e, by rw [List.foldlM_cons, h₁, ok_bind, he]⟩

end Encoding

/-! ## Adding a model to `R` -/

theorem mem_attr2expr {s : Split} {n i p : Nat} :
    (i, p) ∈ attr2expr s n ↔ i < n ∧ p ∈ conj s.XmR i := by
  simp [attr2expr]

theorem length_addModel (a : Assignment) :
    ∀ (vars : List (Nat × Nat)) (R : Conjunctions), (addModel R vars a).length = R.length
  | [], _ => rfl
  | v :: vs, R => by
    rw [addModel, List.foldl_cons, ← addModel, length_addModel a vs]
    split <;> simp

theorem mem_conj_addModel (a : Assignment) :
    ∀ (vars : List (Nat × Nat)) (R : Conjunctions), (∀ v ∈ vars, v.1 < R.length) →
      ∀ i p, p ∈ conj (addModel R vars a) i ↔ p ∈ conj R i ∨ ((i, p) ∈ vars ∧ a i p = true)
  | [], R, _, i, p => by simp [addModel]
  | (j, q) :: vs, R, h, i, p => by
    have hj := h (j, q) (List.mem_cons_self _ _)
    have hlen : (if a j q then R.modify (insert q) j else R).length = R.length := by
      split <;> simp
    rw [addModel, List.foldl_cons, ← addModel,
      mem_conj_addModel a vs _ (fun v hv => hlen ▸ h v (List.mem_cons_of_mem _ hv))]
    by_cases hij : i = j ∧ p = q
    · obtain ⟨rfl, rfl⟩ := hij
      cases ha : a i p <;> simp [conj_modify, hj, ha]
    · have hne : (i, p) ≠ (j, q) := fun e => hij (Prod.mk.inj e)
      have hstep : p ∈ conj (if a j q then R.modify (insert q) j else R) i ↔ p ∈ conj R i := by
        split
        · rw [conj_modify]
          split_ifs with h
          · rw [Finset.mem_insert, or_iff_right fun e => hij ⟨h.1.symm, e⟩]
          · rfl
        · rfl
      rw [hstep, List.mem_cons, or_iff_right hne]

variable {X : Conjunctions} {s : Split}

theorem Split.Inv.mem_addModel (hs : s.Inv X) (a : Assignment) (i p : Nat) :
    p ∈ conj (addModel s.R (attr2expr s X.length) a) i ↔
      p ∈ conj s.R i ∨ (p ∈ conj s.XmR i ∧ a i p = true) := by
  rw [mem_conj_addModel a _ _ fun v hv => ?_]
  · simp only [mem_attr2expr]
    constructor
    · rintro (h | ⟨⟨-, h⟩, ha⟩)
      exacts [.inl h, .inr ⟨h, ha⟩]
    · rintro (h | ⟨h, ha⟩)
      · exact .inl h
      · refine .inr ⟨⟨?_, h⟩, ha⟩
        by_contra hi
        rw [conj_of_length_le (by rw [hs.lenXmR]; omega)] at h
        simp at h
  · rw [hs.lenR]
    exact (mem_attr2expr.1 hv).1

theorem consistent_addModel (hs : s.Inv X) {datapoints : List Datapoint}
    {hornConstraints : List HornConstraint}
    (hpos : ∀ dp ∈ datapoints, dp.isPositive = true → Sat (conj X) dp) {a : Assignment}
    (hneg : ∀ dp ∈ datapoints, NegCut s a dp) (hhorn : ∀ hc ∈ hornConstraints, HornCut s a hc) :
    Consistent (conj (addModel s.R (attr2expr s X.length) a)) datapoints hornConstraints := by
  set R' := addModel s.R (attr2expr s X.length) a
  have hgrow : ∀ i, conj s.R i ⊆ conj R' i := fun i p hp => (hs.mem_addModel a i p).2 (.inl hp)
  have hle : ∀ i, conj R' i ⊆ conj X i := fun i p hp => by
    rcases (hs.mem_addModel a i p).1 hp with h | ⟨h, -⟩
    exacts [hs.le i h, hs.xmr_subset i h]
  have hadd : ∀ {dp : Datapoint} {p : Nat}, p ∈ relevant s dp → a dp.loc p = true →
      ¬ Sat (conj R') dp := fun hp ha =>
    not_sat_of_mem_relevant hp
      ((hs.mem_addModel a _ _).2 (.inr ⟨(Finset.mem_filter.1 hp).1, ha⟩))
  have hfails : ∀ {dp : Datapoint}, ¬ Sat (conj s.R) dp → ¬ Sat (conj R') dp :=
    fun h h' => h (Sat.of_subset (hgrow _) h')
  refine ⟨fun dp m hp => Sat.of_subset (hle _) (hpos dp m hp), fun dp m hn => ?_,
    fun hc m hall => ?_⟩
  · by_cases hR : Sat (conj s.R) dp
    · obtain ⟨p, hp, ha⟩ := hneg dp m hn hR
      exact hadd hp ha
    · exact hfails hR
  · have hR : ∀ p ∈ hc.premises, Sat (conj s.R) p := fun p hp => by
      by_contra h
      exact hfails h (hall p hp)
    have hnf : ¬ FalsifiesPremise s a hc := fun ⟨dp, hdp, p, hp, ha⟩ => hadd hp ha (hall dp hdp)
    obtain ⟨h₁, h₂⟩ := hhorn hc m hR
    cases hcs : conclusionSatisfied s.R hc
    · exact absurd (h₁ hcs) hnf
    obtain ⟨c, hc₁, hc₂⟩ := conclusionSatisfied_iff.1 hcs
    have hkeep := (h₂ c hc₁ hc₂).resolve_left hnf
    refine ⟨c, hc₁, satisfies_iff.2 fun q hq => ?_⟩
    rcases (hs.mem_addModel a _ q).1 hq with h | ⟨h, ha⟩
    · exact satisfies_iff.1 hc₂ q h
    · by_contra hb
      have := hkeep q (Finset.mem_filter.2 ⟨h, by simpa using hb⟩)
      simp [ha] at this

theorem allTrue_cuts (hs : s.Inv X) {datapoints : List Datapoint}
    {hornConstraints : List HornConstraint} (hX : Consistent (conj X) datapoints hornConstraints) :
    (∀ dp ∈ datapoints, NegCut s (fun _ _ => true) dp) ∧
      ∀ hc ∈ hornConstraints, HornCut s (fun _ _ => true) hc := by
  refine ⟨fun dp m hn hR => ?_, fun hc m hR => ⟨fun hcs => ?_, fun c hc₁ hc₂ => ?_⟩⟩
  · obtain ⟨p, hp⟩ := hs.relevant_nonempty hR (hX.negatives dp m hn)
    exact ⟨p, hp, rfl⟩
  · have hv : ¬ HornSat (conj s.R) hc := by
      rw [hornSat_iff_satisfied, hcs]
      simpa using hR
    obtain ⟨dp, hdp, p, hp⟩ := exists_relevant_of_violated hs (hX.horns hc m) hv
    exact ⟨dp, hdp, p, hp, rfl⟩
  · by_cases hall : ∀ p ∈ hc.premises, Sat (conj X) p
    · obtain ⟨c', hc', hsat⟩ := hX.horns hc m hall
      obtain rfl : c' = c := Option.some.inj (hc'.symm.trans hc₁)
      refine .inr fun p hp => ?_
      obtain ⟨hpX, hb⟩ := Finset.mem_filter.1 hp
      have := satisfies_iff.1 hsat p (hs.xmr_subset _ hpX)
      simp [hb] at this
    · push_neg at hall
      obtain ⟨dp, hdp, hX'⟩ := hall
      obtain ⟨p, hp⟩ := hs.relevant_nonempty (hR dp hdp) hX'
      exact .inl ⟨dp, hdp, p, hp, rfl⟩

theorem le_max_of_unsat {solve : Solver} (hsolve : solve.Correct) {f : Formula}
    {vars : List (Nat × Nat)} {k' : Nat} (hnone : ∀ j, 1 ≤ j → j < k' → solve f vars j = none)
    {a : Assignment} (ha : f.eval a = true) : k' ≤ max 1 (trueCount vars a) := by
  by_contra hlt
  exact absurd ((hsolve f vars _).2 (hnone _ (le_max_left _ _) (by omega)) _ ha)
    (not_lt.2 (le_max_right _ _))

/-! ## Completeness of the encoding, and sizes -/

def Assignment.ofConj (C : Conjunctions) : Assignment := fun i p => decide (p ∈ conj C i)

theorem cuts_of_consistent (hs : s.Inv X) {R' : Conjunctions} (hR : ∀ k, conj s.R k ⊆ conj R' k)
    (hX : ∀ k, conj R' k ⊆ conj X k) {datapoints : List Datapoint}
    {hornConstraints : List HornConstraint} (hcons : Consistent (conj R') datapoints hornConstraints) :
    (∀ dp ∈ datapoints, NegCut s (Assignment.ofConj R') dp) ∧
      ∀ hc ∈ hornConstraints, HornCut s (Assignment.ofConj R') hc := by
  have hcut : ∀ dp, Sat (conj s.R) dp → ¬ Sat (conj R') dp →
      ∃ p ∈ relevant s dp, Assignment.ofConj R' dp.loc p = true := fun dp hR' hn => by
    simp only [Sat, satisfies_iff, not_forall, Bool.not_eq_true, exists_prop] at hR' hn
    obtain ⟨p, hp, hb⟩ := hn
    refine ⟨p, Finset.mem_filter.2 ⟨?_, hb⟩, by simp [Assignment.ofConj, hp]⟩
    rw [hs.diff, Finset.mem_sdiff]
    exact ⟨hX _ hp, fun h => by simp [hR' p h] at hb⟩
  refine ⟨fun dp m hn hR' => hcut dp hR' (hcons.negatives dp m hn),
    fun hc m hall => ⟨fun hcs => ?_, fun c hc₁ hc₂ => ?_⟩⟩
  · by_contra hnf
    have hall' : ∀ p ∈ hc.premises, Sat (conj R') p := fun p hp => by
      by_contra hp'
      exact hnf ⟨p, hp, hcut p (hall p hp) hp'⟩
    obtain ⟨c, hc₁, hc₂⟩ := hcons.horns hc m hall'
    rw [conclusionSatisfied_iff.2 ⟨c, hc₁, Sat.of_subset (hR _) hc₂⟩] at hcs
    cases hcs
  · by_cases hall' : ∀ p ∈ hc.premises, Sat (conj R') p
    · obtain ⟨c', hc', hsat⟩ := hcons.horns hc m hall'
      obtain rfl : c' = c := Option.some.inj (hc'.symm.trans hc₁)
      refine .inr fun p hp => ?_
      have hb := (Finset.mem_filter.1 hp).2
      simp only [Assignment.ofConj, decide_eq_false_iff_not]
      exact fun hpR => by simp [satisfies_iff.1 hsat p hpR] at hb
    · push_neg at hall'
      obtain ⟨dp, hdp, hn⟩ := hall'
      exact .inl ⟨dp, hdp, hcut dp (hall dp hdp) hn⟩

theorem trueCount_flatMap (a : Assignment) (g : Nat → List (Nat × Nat)) :
    ∀ l : List Nat, trueCount (l.flatMap g) a = (l.map fun k => trueCount (g k) a).sum
  | [] => rfl
  | k :: l => by
    rw [List.flatMap_cons, List.map_cons, List.sum_cons, ← trueCount_flatMap a g l]
    simp only [trueCount, List.filter_append, List.length_append]

theorem trueCount_attr2expr (s : Split) (n : Nat) (a : Assignment) :
    trueCount (attr2expr s n) a =
      ∑ k ∈ Finset.range n, ((conj s.XmR k).filter fun p => a k p = true).card := by
  rw [attr2expr, trueCount_flatMap]
  refine (congrArg List.sum (List.map_congr_left fun k _ => ?_)).trans rfl
  rw [trueCount, List.filter_map, List.length_map,
    ← List.toFinset_card_of_nodup ((Finset.sort_nodup _ _).filter _), List.toFinset_filter,
    Finset.sort_toFinset]
  rfl

theorem Split.Inv.card_addModel (hs : s.Inv X) (a : Assignment) (k : Nat) :
    (conj (addModel s.R (attr2expr s X.length) a) k).card =
      (conj s.R k).card + ((conj s.XmR k).filter fun p => a k p = true).card := by
  rw [← Finset.card_union_of_disjoint]
  · congr 1
    ext p
    rw [hs.mem_addModel, Finset.mem_union, Finset.mem_filter]
  · rw [hs.diff]
    exact Finset.disjoint_left.2 fun p h₁ h₂ => (Finset.mem_sdiff.1 (Finset.mem_filter.1 h₂).1).2 h₁

theorem Split.Inv.card_between (hs : s.Inv X) {R' : Conjunctions}
    (hR : ∀ k, conj s.R k ⊆ conj R' k) (hX : ∀ k, conj R' k ⊆ conj X k) (k : Nat) :
    (conj R' k).card =
      (conj s.R k).card + ((conj s.XmR k).filter fun p => Assignment.ofConj R' k p = true).card := by
  have : (conj s.XmR k).filter (fun p => Assignment.ofConj R' k p = true) = conj R' k \ conj s.R k := by
    ext p
    simp only [Finset.mem_filter, Assignment.ofConj, decide_eq_true_eq, hs.diff, Finset.mem_sdiff]
    exact ⟨fun ⟨⟨_, h₁⟩, h₂⟩ => ⟨h₂, h₁⟩, fun ⟨h₂, h₁⟩ => ⟨⟨hX k h₂, h₁⟩, h₂⟩⟩
  rw [this, add_comm, Finset.card_sdiff_add_card_eq_card (hR k)]

theorem reducePredicatesMinimal_bounds {solve : Solver} {datapoints : List Datapoint}
    {hornConstraints : List HornConstraint} {R R' : Conjunctions}
    (h : reducePredicatesMinimal solve datapoints hornConstraints X R = .ok R') :
    R'.length = X.length ∧ ∀ k, conj R k ∩ conj X k ⊆ conj R' k ∧ conj R' k ⊆ conj X k := by
  unfold reducePredicatesMinimal at h
  split_ifs at h
  obtain ⟨e, -, h⟩ := bind_eq_ok.1 h
  obtain ⟨a, -, h⟩ := bind_eq_ok.1 h
  unfold checkConsistent at h
  split_ifs at h
  cases h
  have hs := Split.Inv.prepare X R
  refine ⟨(length_addModel _ _ _).trans hs.lenR, fun k => ⟨fun p hp => ?_, fun p hp => ?_⟩⟩
  · rw [← conj_prepareSets_fst] at hp
    exact (hs.mem_addModel a k p).2 (.inl hp)
  · rcases (hs.mem_addModel a k p).1 hp with h | ⟨h, -⟩
    exacts [hs.le k h, hs.xmr_subset k h]

theorem reducePredicatesMinimal_ok_consistent {solve : Solver} {datapoints : List Datapoint}
    {hornConstraints : List HornConstraint} {R R' : Conjunctions}
    (h : reducePredicatesMinimal solve datapoints hornConstraints X R = .ok R') :
    isConsistent R' datapoints hornConstraints = true := by
  unfold reducePredicatesMinimal at h
  split_ifs at h
  obtain ⟨e, -, h⟩ := bind_eq_ok.1 h
  obtain ⟨a, -, h⟩ := bind_eq_ok.1 h
  unfold checkConsistent at h
  split_ifs at h with hc
  cases h
  exact hc

theorem isConsistent_addModel {datapoints : List Datapoint}
    {hornConstraints : List HornConstraint} {R : Conjunctions}
    (hX : isConsistent X datapoints hornConstraints = true) {e : Formula} {a : Assignment}
    (he : hornExpr (.prepare X R) hornConstraints = .ok e)
    (ha : ((negExpr (.prepare X R) datapoints).and e).eval a = true) :
    isConsistent (addModel (Split.prepare X R).R (attr2expr (.prepare X R) X.length) a)
      datapoints hornConstraints = true := by
  simp only [Formula.eval, Bool.and_eq_true, eval_negExpr, eval_hornExpr he] at ha
  exact (isConsistent_iff _ _ _).2
    (consistent_addModel (Split.Inv.prepare X R) ((isConsistent_iff _ _ _).1 hX).positives ha.1 ha.2)

/-- A run of `reduce_predicates_minimal` with a solver that meets its contract, on well-formed
examples and a consistent nonempty `X`: `horn_expr` passes its assertion, the solver answers
`unsat` at every bound from `1` up to some `k'` and a model `a` at `k'`, and the reducer returns
`R` with the true variables of `a` added. -/
theorem reducePredicatesMinimal_run {solve : Solver} (hsolve : solve.Correct)
    {datapoints : List Datapoint} {hornConstraints : List HornConstraint} {R : Conjunctions}
    (hwf : WellFormed X.length datapoints hornConstraints) (hlen : X.length = R.length)
    (hX : isConsistent X datapoints hornConstraints = true) (hX0 : X ≠ []) :
    ∃ e a k', hornExpr (.prepare X R) hornConstraints = .ok e ∧
      solve ((negExpr (.prepare X R) datapoints).and e) (attr2expr (.prepare X R) X.length) k' =
        some a ∧
      (∀ j, 1 ≤ j → j < k' →
        solve ((negExpr (.prepare X R) datapoints).and e) (attr2expr (.prepare X R) X.length) j =
          none) ∧
      reducePredicatesMinimal solve datapoints hornConstraints X R =
        .ok (addModel (Split.prepare X R).R (attr2expr (.prepare X R) X.length) a) := by
  have hs := Split.Inv.prepare X R
  obtain ⟨e, he⟩ := hornExpr_ok fun hc m p hp => hs.lenR ▸ hwf.premises hc m p hp
  set vars := attr2expr (.prepare X R) X.length
  set f := (negExpr (.prepare X R) datapoints).and e
  have hall : f.eval (fun _ _ => true) = true := by
    simp only [f, Formula.eval, Bool.and_eq_true, eval_negExpr, eval_hornExpr he]
    exact allTrue_cuts hs ((isConsistent_iff _ _ _).1 hX)
  obtain ⟨a, -, hk, -⟩ := @kLoop_ok (solve f vars) vars.length _
    (fun k h => (hsolve f vars k).2 h _ hall) (by simp [trueCount]) vars.length 1 (by omega)
  obtain ⟨k', -, hk', hj⟩ := kLoop_eq_ok vars.length 1 (by omega) hk
  have hcons := isConsistent_addModel hX he ((hsolve f vars k').1 a hk').1
  refine ⟨e, a, k', he, hk', hj, ?_⟩
  rw [reducePredicatesMinimal, if_neg (by simpa using hX0), if_neg (by omega)]
  simp only [he, ok_bind, hk, checkConsistent, hcons, if_true]

/-- With a solver that meets its contract, `reduce_predicates_minimal` on well-formed examples
and an `X` consistent with them does not throw `k >= var_count` and returns a consistent `R`;
and every model of `neg_expr ∧ horn_expr`, added to `R`, gives a consistent `R`. -/
theorem reducePredicatesMinimal_consistent (solve : Solver) (hsolve : solve.Correct)
    (datapoints : List Datapoint) (hornConstraints : List HornConstraint) (X R : Conjunctions)
    (hwf : WellFormed X.length datapoints hornConstraints) (hlen : X.length = R.length)
    (hX : isConsistent X datapoints hornConstraints = true) :
    ConsistentResult datapoints hornConstraints X R
        (reducePredicatesMinimal solve datapoints hornConstraints X R) ∧
      ∀ e a, hornExpr (.prepare X R) hornConstraints = .ok e →
        ((negExpr (.prepare X R) datapoints).and e).eval a = true →
        isConsistent (addModel (Split.prepare X R).R (attr2expr (.prepare X R) X.length) a)
          datapoints hornConstraints = true := by
  refine ⟨?_, fun _ _ he ha => isConsistent_addModel hX he ha⟩
  by_cases hX0 : X = []
  · subst hX0
    obtain rfl : R = [] := List.eq_nil_of_length_eq_zero hlen.symm
    exact .inl ⟨rfl, rfl, hX⟩
  · obtain ⟨e, a, _, he, hsome, -, hrun⟩ := reducePredicatesMinimal_run hsolve hwf hlen hX hX0
    exact .inr ⟨_, hrun, isConsistent_addModel hX he ((hsolve _ _ _).1 a hsome).1⟩

theorem reducePredicatesMinimal_consistent_negativeZero :
    Solver.Correct trueFirst ∧ WellFormed [({0} : Finset Nat)].length [negativeZero] [] ∧
      [({0} : Finset Nat)].length = [(∅ : Finset Nat)].length ∧
      isConsistent [{0}] [negativeZero] [] = true ∧
      ConsistentResult [negativeZero] [] [{0}] [∅]
          (reducePredicatesMinimal trueFirst [negativeZero] [] [{0}] [∅]) ∧
        ∀ e a, hornExpr (.prepare [{0}] [∅]) [] = .ok e →
          ((negExpr (.prepare [{0}] [∅]) [negativeZero]).and e).eval a = true →
          isConsistent (addModel (Split.prepare [{0}] [∅]).R
            (attr2expr (.prepare [{0}] [∅]) [({0} : Finset Nat)].length) a) [negativeZero] [] =
            true :=
  have hwf : WellFormed [({0} : Finset Nat)].length [negativeZero] [] :=
    ⟨by decide, by simp, by simp⟩
  ⟨trueFirst_correct, hwf, rfl, by decide,
    reducePredicatesMinimal_consistent trueFirst trueFirst_correct [negativeZero] [] [{0}] [∅] hwf
      rfl (by decide)⟩

end Sorcar
end HornVerification
