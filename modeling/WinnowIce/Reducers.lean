import WinnowIce.GreedyCorrect
import WinnowIce.MinimalCorrect

/-!
# WinnowIce.Reducers

The four Sorcar reducers side by side: `reduce_predicates_all`, `_first`, `_greedy` and
`_minimal`.

* `reducers_stay_within`: what each of the four returns normally lies between `R ∩ X` and `X`,
  so a hypothesis carried over from an earlier round keeps its part inside the current `X`, and
  `R` only gains predicates of `X`.
* `reducers_keep_consistent`: `all`, `first` and `greedy` return `R ∩ X` when it is consistent
  already, and a second run on the same data returns what the first did; on an empty `X` they
  throw instead (`reducers_reject_empty`).
* `reducePredicatesMinimal_size_le`: `reduce_predicates_minimal` returns no more predicates
  than any consistent `R'` between `R ∩ X` and `X`, or one more than `R ∩ X`.
* `reducePredicatesMinimal_adds_unneeded`: the loop over `k` starts at `1`, so
  `reduce_predicates_minimal` can add a predicate where none is needed, and return more than
  `reduce_predicates_all` does.
-/

namespace HornVerification
namespace Sorcar

/-- `R'` is as long as `X` and lies between `R ∩ X` and `X` at every location. -/
def Within (X R R' : Conjunctions) : Prop :=
  R'.length = X.length ∧ ∀ k, conj R k ∩ conj X k ⊆ conj R' k ∧ conj R' k ⊆ conj X k

/-- Every reducer only moves predicates of `X_minus_R` into `R`, after `prepare_sets` has cut
`R` down to `R ∩ X`. -/
theorem reducers_stay_within (datapoints : List Datapoint)
    (hornConstraints : List HornConstraint) (X R : Conjunctions) :
    (∀ R', reducePredicatesAll datapoints hornConstraints X R = some (.ok R') → Within X R R') ∧
    (∀ R', reducePredicatesFirst datapoints hornConstraints X R = some (.ok R') →
      Within X R R') ∧
    (∀ fuel R', reducePredicatesGreedy fuel datapoints hornConstraints X R = some (.ok R') →
      Within X R R') ∧
    ∀ solve R', reducePredicatesMinimal solve datapoints hornConstraints X R = .ok R' →
      Within X R R' :=
  ⟨fun _ h => reduceWith_bounds negativeAll_safe fixAll_safe h,
    fun _ h => reduceWith_bounds negativeFirst_safe fixFirst_safe h,
    fun _ _ h => reducePredicatesGreedy_bounds h,
    fun _ _ h => reducePredicatesMinimal_bounds h⟩

/-! ## A consistent `R ∩ X` stays as it is -/

/-- `run`, a reducer as a function of the starting `R`, returns `R ∩ X` from `R`, and gives back
unchanged whatever it returns: a second run on the same data changes nothing. -/
def Stable (X R : Conjunctions) (run : Conjunctions → Option (Except String Conjunctions)) :
    Prop :=
  run R = some (.ok (List.zipWith (· ∩ ·) R X)) ∧
    ∀ R', run R = some (.ok R') → run R' = some (.ok R')

theorem zipWith_inter_of_subset {C D : Conjunctions} (hlen : C.length = D.length)
    (h : ∀ k, conj C k ⊆ conj D k) : List.zipWith (· ∩ ·) C D = C := by
  rw [← range_map_conj_eq_zipWith _ hlen rfl]
  refine conj_ext (by simp [hlen]) fun k => ?_
  rw [conj_range_map]
  split_ifs with hk
  · exact Finset.inter_eq_left.2 (h k)
  · exact (conj_of_length_le (by omega)).symm

section Stable

variable {datapoints : List Datapoint} {hornConstraints : List HornConstraint} {X : Conjunctions}

theorem stable_of_idle {run : Conjunctions → Option (Except String Conjunctions)}
    (hidle : ∀ R, X.length = R.length →
      isConsistent (prepareSets X R).1 datapoints hornConstraints = true →
        run R = some (.ok (prepareSets X R).1))
    (hout : ∀ R R', run R = some (.ok R') → R'.length = X.length ∧
      (∀ k, conj R' k ⊆ conj X k) ∧ isConsistent R' datapoints hornConstraints = true)
    {R : Conjunctions} (hlen : X.length = R.length)
    (hc : isConsistent (List.zipWith (· ∩ ·) R X) datapoints hornConstraints = true) :
    Stable X R run := by
  rw [← prepareSets_fst_eq_zipWith X R hlen] at hc
  refine ⟨prepareSets_fst_eq_zipWith X R hlen ▸ hidle R hlen hc, fun R' h => ?_⟩
  obtain ⟨hl, hsub, hc'⟩ := hout R R' h
  have hR' : (prepareSets X R').1 = R' := by
    rw [prepareSets_fst_eq_zipWith X R' hl.symm, zipWith_inter_of_subset hl hsub]
  have h' := hidle R' hl.symm (hR'.symm ▸ hc')
  rwa [hR'] at h'

end Stable

/-- On well-formed examples and a non-empty `X`, each of `reduce_predicates_all`, `_first` and
`_greedy` returns `R ∩ X` when that is consistent already, and so running it a second time on
the same data returns what the first run did. -/
theorem reducers_keep_consistent (datapoints : List Datapoint)
    (hornConstraints : List HornConstraint) (X R : Conjunctions)
    (hwf : WellFormed X.length datapoints hornConstraints) (hX0 : X ≠ [])
    (hlen : X.length = R.length)
    (hc : isConsistent (List.zipWith (· ∩ ·) R X) datapoints hornConstraints = true) :
    Stable X R (reducePredicatesAll datapoints hornConstraints X) ∧
      Stable X R (reducePredicatesFirst datapoints hornConstraints X) ∧
      ∀ fuel, Stable X R (reducePredicatesGreedy (fuel + 1) datapoints hornConstraints X) :=
  ⟨stable_of_idle (fun _ hl hc => reduceWith_idle negativeAll_idle hwf hX0 hl hc)
      (fun _ _ h => let ⟨h₁, h₂⟩ := reduceWith_bounds negativeAll_safe fixAll_safe h
        ⟨h₁, fun k => (h₂ k).2, reduceWith_ok_consistent h⟩) hlen hc,
    stable_of_idle (fun _ hl hc => reduceWith_idle negativeFirst_idle hwf hX0 hl hc)
      (fun _ _ h => let ⟨h₁, h₂⟩ := reduceWith_bounds negativeFirst_safe fixFirst_safe h
        ⟨h₁, fun k => (h₂ k).2, reduceWith_ok_consistent h⟩) hlen hc,
    fun fuel => stable_of_idle (fun _ hl hc => reducePredicatesGreedy_idle hwf hX0 hl hc fuel)
      (fun _ _ h => let ⟨h₁, h₂⟩ := reducePredicatesGreedy_bounds h
        ⟨h₁, fun k => (h₂ k).2, reducePredicatesGreedy_ok_consistent h⟩) hlen hc⟩

theorem reducers_keep_consistent_negativeZero :
    WellFormed [({0} : Finset Nat)].length [negativeZero] [] ∧ [({0} : Finset Nat)] ≠ [] ∧
      [({0} : Finset Nat)].length = [({0} : Finset Nat)].length ∧
      isConsistent (List.zipWith (· ∩ ·) [{0}] [{0}]) [negativeZero] [] = true ∧
      (Stable [{0}] [{0}] (reducePredicatesAll [negativeZero] [] [{0}]) ∧
        Stable [{0}] [{0}] (reducePredicatesFirst [negativeZero] [] [{0}]) ∧
        ∀ fuel, Stable [{0}] [{0}] (reducePredicatesGreedy (fuel + 1) [negativeZero] [] [{0}])) :=
  have hwf : WellFormed [({0} : Finset Nat)].length [negativeZero] [] :=
    ⟨by decide, by simp, by simp⟩
  ⟨hwf, by simp, rfl, by decide,
    reducers_keep_consistent [negativeZero] [] [{0}] [{0}] hwf (by simp) rfl (by decide)⟩

theorem reducers_reject_empty :
    ([] : Conjunctions).length = ([] : Conjunctions).length ∧
      isConsistent (List.zipWith (· ∩ ·) [] []) [] [] = true ∧
      reducePredicatesAll [] [] [] [] = some (.error "X must not be empty") ∧
      reducePredicatesFirst [] [] [] [] = some (.error "X must not be empty") ∧
      ∀ fuel, reducePredicatesGreedy fuel [] [] [] [] = some (.error "X must not be empty") :=
  ⟨rfl, rfl, rfl, rfl, fun _ => rfl⟩

def totalSize (C : Conjunctions) : Nat := (C.map Finset.card).sum

theorem totalSize_eq_sum (C : Conjunctions) :
    totalSize C = ∑ k ∈ Finset.range C.length, (conj C k).card := by
  induction C with
  | nil => rfl
  | cons c C ih =>
    rw [totalSize, List.map_cons, List.sum_cons, ← totalSize, ih, List.length_cons,
      Finset.sum_range_succ', add_comm]
    rfl

section Sizes

variable {X : Conjunctions} {s : Split}

theorem Split.Inv.totalSize_addModel (hs : s.Inv X) (a : Assignment) :
    totalSize (addModel s.R (attr2expr s X.length) a) =
      ∑ k ∈ Finset.range X.length, (conj s.R k).card + trueCount (attr2expr s X.length) a := by
  rw [totalSize_eq_sum, length_addModel, hs.lenR, trueCount_attr2expr, ← Finset.sum_add_distrib]
  exact Finset.sum_congr rfl fun k _ => hs.card_addModel a k

theorem Split.Inv.totalSize_between (hs : s.Inv X) {R' : Conjunctions}
    (hlen : R'.length = X.length) (hR : ∀ k, conj s.R k ⊆ conj R' k)
    (hX : ∀ k, conj R' k ⊆ conj X k) :
    totalSize R' = ∑ k ∈ Finset.range X.length, (conj s.R k).card +
      trueCount (attr2expr s X.length) (Assignment.ofConj R') := by
  rw [totalSize_eq_sum, hlen, trueCount_attr2expr, ← Finset.sum_add_distrib]
  exact Finset.sum_congr rfl fun k _ => hs.card_between hR hX k

end Sizes

/-- `reduce_predicates_minimal` is minimal up to the start of its loop at `k = 1`: what it
returns is no larger than any consistent `R'` between `R ∩ X` and `X`, or adds one predicate to
`R ∩ X`. -/
theorem reducePredicatesMinimal_size_le (solve : Solver) (hsolve : solve.Correct)
    (datapoints : List Datapoint) (hornConstraints : List HornConstraint) (X R : Conjunctions)
    (hwf : WellFormed X.length datapoints hornConstraints) (hlen : X.length = R.length)
    (hX : isConsistent X datapoints hornConstraints = true) (hX0 : X ≠ []) (R' : Conjunctions)
    (hR' : Within X R R') (hc' : isConsistent R' datapoints hornConstraints = true) :
    ∃ Rout, reducePredicatesMinimal solve datapoints hornConstraints X R = .ok Rout ∧
      totalSize Rout ≤
        max ((∑ k ∈ Finset.range X.length, (conj R k ∩ conj X k).card) + 1) (totalSize R') := by
  obtain ⟨e, a, k', he, hsome, hnone, hrun⟩ := reducePredicatesMinimal_run hsolve hwf hlen hX hX0
  have hs := Split.Inv.prepare X R
  have hRs : ∀ k, conj (Split.prepare X R).R k ⊆ conj R' k := fun k => by
    rw [Split.prepare_R, conj_prepareSets_fst]
    exact (hR'.2 k).1
  have hf' : ((negExpr (.prepare X R) datapoints).and e).eval (Assignment.ofConj R') = true := by
    simp only [Formula.eval, Bool.and_eq_true, eval_negExpr, eval_hornExpr he]
    exact cuts_of_consistent hs hRs (fun k => (hR'.2 k).2) ((isConsistent_iff _ _ _).1 hc')
  have hk' := le_max_of_unsat hsolve hnone hf'
  have hcount := ((hsolve _ _ k').1 a hsome).2
  refine ⟨_, hrun, ?_⟩
  rw [hs.totalSize_addModel, hs.totalSize_between hR'.1 hRs fun k => (hR'.2 k).2]
  simp only [Split.prepare_R, conj_prepareSets_fst] at hk' hcount ⊢
  omega

theorem reducePredicatesMinimal_size_le_negativeZero :
    Solver.Correct trueFirst ∧ WellFormed [({0} : Finset Nat)].length [negativeZero] [] ∧
      [({0} : Finset Nat)].length = [(∅ : Finset Nat)].length ∧
      isConsistent [{0}] [negativeZero] [] = true ∧ [({0} : Finset Nat)] ≠ [] ∧
      Within [{0}] [∅] [{0}] ∧ isConsistent [{0}] [negativeZero] [] = true ∧
      ∃ Rout, reducePredicatesMinimal trueFirst [negativeZero] [] [{0}] [∅] = .ok Rout ∧
        totalSize Rout ≤ max ((∑ k ∈ Finset.range [({0} : Finset Nat)].length,
          (conj [∅] k ∩ conj [{0}] k).card) + 1) (totalSize [{0}]) :=
  have hwf : WellFormed [({0} : Finset Nat)].length [negativeZero] [] :=
    ⟨by decide, by simp, by simp⟩
  have hW : Within [{0}] [∅] [{0}] := ⟨rfl, fun _ => ⟨Finset.inter_subset_right, subset_rfl⟩⟩
  ⟨trueFirst_correct, hwf, rfl, by decide, List.cons_ne_nil _ _, hW, by decide,
    reducePredicatesMinimal_size_le trueFirst trueFirst_correct [negativeZero] [] [{0}] [∅] hwf
      rfl (by decide) (List.cons_ne_nil _ _) [{0}] hW (by decide)⟩

/-- With no examples, `X = [{0}]` and `R = [∅]`, the loop over `k` starts at `1`, and the solver
may answer with the model that makes the one variable true: `reduce_predicates_minimal` returns
`[{0}]`, although `[∅]` lies within the bounds, is consistent, and is what
`reduce_predicates_all` returns. -/
theorem reducePredicatesMinimal_adds_unneeded :
    Solver.Correct trueFirst ∧ isConsistent [{0}] [] [] = true ∧
      reducePredicatesMinimal trueFirst [] [] [{0}] [∅] = .ok [{0}] ∧
      reducePredicatesAll [] [] [{0}] [∅] = some (.ok [∅]) ∧
      isConsistent [∅] [] [] = true ∧
      (∀ k, conj [∅] k ∩ conj [{0}] k ⊆ conj [∅] k ∧ conj [∅] k ⊆ conj [{0}] k) ∧
      totalSize [∅] < totalSize [{0}] := by
  have hprep : Split.prepare [{0}] [∅] = ⟨[∅], [{0}]⟩ := by
    rw [Split.prepare, prepareSets_eq]
    exact congrArg₂ Split.mk (by decide) (by decide)
  have hvars : attr2expr ⟨[∅], [{0}]⟩ [({0} : Finset Nat)].length = [(0, 0)] := by
    rw [attr2expr, show List.range [({0} : Finset Nat)].length = [0] from rfl, List.flatMap_cons,
      List.flatMap_nil, show conj [{0}] 0 = {0} from rfl, Finset.sort_singleton]
    rfl
  have hloop : kLoop (trueFirst ((negExpr ⟨[∅], [{0}]⟩ []).and (.const true)) [(0, 0)])
      [(0, 0)].length 1 = .ok (Assignment.ofList [(0, 0)]) := by
    rw [kLoop]
    rfl
  have hempty : ∀ k, conj [(∅ : Finset Nat)] k = ∅ := fun k => by cases k <;> rfl
  refine ⟨trueFirst_correct, rfl, ?_, ?_, rfl, fun k => ?_, by decide⟩
  · rw [reducePredicatesMinimal, if_neg (by decide), if_neg (by decide), hprep]
    simp only [hvars]
    rw [show hornExpr ⟨[∅], [{0}]⟩ [] = .ok (.const true) from rfl, ok_bind, hloop, ok_bind]
    rfl
  · rw [reducePredicatesAll, reduceWith, if_neg (by decide), if_neg (by decide), hprep]
    rfl
  · rw [hempty]
    exact ⟨Finset.inter_subset_left, Finset.empty_subset _⟩

end Sorcar
end HornVerification
