import WinnowIce.Basic
import Mathlib.Data.Finset.Sort

/-!
# WinnowIce.PrepareSets

`sorcar::prepare_sets`, which every Sorcar variant runs first: `R[i] := R[i] ∩ X[i]` and
`X_minus_R[i] := X[i] \ R[i]`, both computed by one merge over the two sorted sets.

* `mem_prepareMerge`: on strictly increasing lists the merge keeps in
  `R` what is in both lists and sends to `X_minus_R` what only `X` has.
* `conj_prepareSets_fst`, `conj_prepareSets_snd`: the same for the whole vectors, location by
  location.
* `prepareSets_eq_zipWith`: on vectors of one length, the new `R` is `R ∩ X` and `X_minus_R` is
  `X \ R`, location by location, as vectors.
-/

namespace HornVerification
namespace Sorcar

/-- The merge loop of `prepare_sets` over the sorted `R[i]` and `X[i]`: an element only in `R`
is erased from `R`, one only in `X` goes to `X_minus_R`, one in both is kept. What is left of
`R` once `X` ends is erased; what is left of `X` once `R` ends goes to `X_minus_R`. -/
def prepareMerge : List Nat → List Nat → List Nat × List Nat
  | [], xs => ([], xs)
  | _ :: _, [] => ([], [])
  | r :: rs, x :: xs =>
    if r < x then prepareMerge rs (x :: xs)
    else if x < r then ((prepareMerge (r :: rs) xs).1, x :: (prepareMerge (r :: rs) xs).2)
    else (r :: (prepareMerge rs xs).1, (prepareMerge rs xs).2)
termination_by rs xs => rs.length + xs.length

/-- `sorcar::prepare_sets(X, R, X_minus_R)`, with `X_minus_R` holding `X.size()` empty sets as
at every call site: the new `R` and `X_minus_R`. -/
def prepareSets (X R : Conjunctions) : Conjunctions × Conjunctions :=
  ((List.range X.length).map fun i =>
      (prepareMerge ((conj R i).sort (· ≤ ·)) ((conj X i).sort (· ≤ ·))).1.toFinset,
    (List.range X.length).map fun i =>
      (prepareMerge ((conj R i).sort (· ≤ ·)) ((conj X i).sort (· ≤ ·))).2.toFinset)

theorem lt_of_mem_of_sorted {x a : Nat} {xs : List Nat} (h : (x :: xs).Sorted (· < ·))
    (ha : a ∈ xs) : x < a :=
  (List.sorted_cons.1 h).1 a ha

theorem mem_prepareMerge (rs xs : List Nat) (hr : rs.Sorted (· < ·)) (hx : xs.Sorted (· < ·))
    (a : Nat) :
    (a ∈ (prepareMerge rs xs).1 ↔ a ∈ rs ∧ a ∈ xs) ∧
      (a ∈ (prepareMerge rs xs).2 ↔ a ∈ xs ∧ a ∉ rs) := by
  induction rs, xs using prepareMerge.induct with
  | case1 xs => simp [prepareMerge]
  | case2 r rs => simp [prepareMerge]
  | case3 r rs x xs hlt ih =>
    have hne : a = r → a ∉ x :: xs := by
      rintro rfl h
      rcases List.mem_cons.1 h with h | h
      · omega
      · exact absurd (lt_of_mem_of_sorted hx h) (by omega)
    obtain ⟨ih1, ih2⟩ := ih (List.sorted_cons.1 hr).2 hx
    have hm : a ∈ r :: rs ↔ a = r ∨ a ∈ rs := List.mem_cons
    rw [prepareMerge, if_pos hlt, ih1, ih2, hm]
    by_cases har : a = r
    · subst har
      simp [hne rfl]
    · simp [har]
  | case4 r rs x xs hnlt hlt ih =>
    have hne : a = x → a ∉ r :: rs := by
      rintro rfl h
      rcases List.mem_cons.1 h with h | h
      · omega
      · exact absurd (lt_of_mem_of_sorted hr h) (by omega)
    obtain ⟨ih1, ih2⟩ := ih hr (List.sorted_cons.1 hx).2
    have hm : a ∈ x :: (prepareMerge (r :: rs) xs).2 ↔
        a = x ∨ a ∈ (prepareMerge (r :: rs) xs).2 := List.mem_cons
    have hm' : a ∈ x :: xs ↔ a = x ∨ a ∈ xs := List.mem_cons
    rw [prepareMerge, if_neg hnlt, if_pos hlt, hm, ih1, ih2, hm']
    by_cases hax : a = x
    · subst hax
      simp [hne rfl]
    · simp [hax]
  | case5 r rs x xs hnlt hnlt' ih =>
    obtain rfl : r = x := by omega
    have hrs : a ∈ rs → a ≠ r := fun h e => by have := lt_of_mem_of_sorted hr h; omega
    have hxs : a ∈ xs → a ≠ r := fun h e => by have := lt_of_mem_of_sorted hx h; omega
    obtain ⟨ih1, ih2⟩ := ih (List.sorted_cons.1 hr).2 (List.sorted_cons.1 hx).2
    have hm : a ∈ r :: (prepareMerge rs xs).1 ↔ a = r ∨ a ∈ (prepareMerge rs xs).1 := List.mem_cons
    have hr' : a ∈ r :: rs ↔ a = r ∨ a ∈ rs := List.mem_cons
    have hx' : a ∈ r :: xs ↔ a = r ∨ a ∈ xs := List.mem_cons
    rw [prepareMerge, if_neg hnlt, if_neg hnlt', hm, ih1, ih2, hr', hx']
    by_cases har : a = r
    · subst har
      have h₁ : a ∉ rs := fun h => hrs h rfl
      have h₂ : a ∉ xs := fun h => hxs h rfl
      simp [h₁, h₂]
    · simp [har]

theorem conj_range_map (n : Nat) (f : Nat → Finset Nat) (k : Nat) :
    conj ((List.range n).map f) k = if k < n then f k else ∅ := by
  by_cases hk : k < n
  · simp [conj, hk, List.getElem?_range]
  · rw [if_neg hk, conj, List.getD_eq_getElem?_getD, List.getElem?_eq_none (by simpa using hk)]
    rfl

theorem conj_prepareSets_fst (X R : Conjunctions) (k : Nat) :
    conj (prepareSets X R).1 k = conj R k ∩ conj X k := by
  rw [prepareSets, conj_range_map]
  split
  · ext a
    simp [(mem_prepareMerge _ _ (Finset.sort_sorted_lt _) (Finset.sort_sorted_lt _) a).1]
  · simp [conj_of_length_le (Nat.le_of_not_lt ‹_›)]

theorem conj_prepareSets_snd (X R : Conjunctions) (k : Nat) :
    conj (prepareSets X R).2 k = conj X k \ conj R k := by
  rw [prepareSets, conj_range_map]
  split
  · ext a
    simp [(mem_prepareMerge _ _ (Finset.sort_sorted_lt _) (Finset.sort_sorted_lt _) a).2]
  · simp [conj_of_length_le (Nat.le_of_not_lt ‹_›)]

@[simp] theorem length_prepareSets_fst (X R : Conjunctions) :
    (prepareSets X R).1.length = X.length := by simp [prepareSets]

@[simp] theorem length_prepareSets_snd (X R : Conjunctions) :
    (prepareSets X R).2.length = X.length := by simp [prepareSets]

/-- What the merge loop computes: `R[k] ∩ X[k]` and `X[k] \ R[k]` at every location of `X`. -/
theorem prepareSets_eq (X R : Conjunctions) :
    prepareSets X R = ((List.range X.length).map fun k => conj R k ∩ conj X k,
      (List.range X.length).map fun k => conj X k \ conj R k) := by
  refine Prod.ext (conj_ext (by simp) fun k => ?_) (conj_ext (by simp) fun k => ?_) <;>
    dsimp only <;> rw [conj_range_map] <;> split_ifs with hk
  · exact conj_prepareSets_fst X R k
  · rw [conj_prepareSets_fst, conj_of_length_le (Nat.le_of_not_lt hk), Finset.inter_empty]
  · exact conj_prepareSets_snd X R k
  · rw [conj_prepareSets_snd, conj_of_length_le (Nat.le_of_not_lt hk), Finset.empty_sdiff]

theorem range_map_conj_eq_zipWith (f : Finset Nat → Finset Nat → Finset Nat) {C D : Conjunctions}
    {n : Nat} (hC : C.length = n) (hD : D.length = n) :
    (List.range n).map (fun k => f (conj C k) (conj D k)) = List.zipWith f C D := by
  refine List.ext_getElem (by simp [hC, hD]) fun k h₁ h₂ => ?_
  have hk : k < n := by simpa using h₁
  simp [conj, List.getElem_zipWith, List.getD_eq_getElem?_getD, hk, hC, hD]

theorem prepareSets_fst_eq_zipWith (X R : Conjunctions) (h : X.length = R.length) :
    (prepareSets X R).1 = List.zipWith (· ∩ ·) R X := by
  rw [prepareSets_eq]
  exact range_map_conj_eq_zipWith _ h.symm rfl

/-- `prepare_sets` on vectors of one length: `R[i] ∩ X[i]` and `X[i] \ R[i]` at every location,
and nothing more. -/
theorem prepareSets_eq_zipWith (X R : Conjunctions) (h : X.length = R.length) :
    prepareSets X R = (List.zipWith (· ∩ ·) R X, List.zipWith (· \ ·) X R) := by
  rw [prepareSets_eq, range_map_conj_eq_zipWith _ h.symm rfl,
    range_map_conj_eq_zipWith _ rfl h.symm]

theorem prepareSets_eq_zipWith_interleaved :
    ([{0, 2}, ∅] : Conjunctions).length = ([{1, 2}, {3}] : Conjunctions).length ∧
      prepareSets [{0, 2}, ∅] [{1, 2}, {3}] = ([{2}, ∅], [{0}, ∅]) :=
  ⟨rfl, (prepareSets_eq_zipWith [{0, 2}, ∅] [{1, 2}, {3}] rfl).trans (by decide)⟩

end Sorcar
end HornVerification
