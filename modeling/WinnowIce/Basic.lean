import Mathlib.Data.Finset.Card

/-!
# WinnowIce.Basic

The learner's data model, as `sorcar.h` reads it: data points with a bit vector, a location and
a label; Horn constraints whose conclusion may be ⊥; and a vector of conjunctions of predicate
indices, `std::vector<std::set<unsigned>>`, one per location, read as a hypothesis through
`conj`, which is empty past the end.

* `satisfies`, `isConsistent`: the code's two checks.
* `Sat`, `HornSat`, `Consistent`: the same of any hypothesis `H : Nat → Finset Nat`, connected
  to the code's check by `isConsistent_iff`.
-/

namespace HornVerification

/-- `datapoint<bool>` as the learner reads it: the bits `_int_data`, the location
`_categorical_data[0]`, and the label `_is_classified`, `_classification`. -/
structure Datapoint where
  intData : List Bool
  loc : Nat
  isClassified : Bool
  classification : Bool
deriving DecidableEq, Repr

namespace Datapoint

/-- `_int_data[i]`; past the end of the vector it reads `false`. -/
def bit (dp : Datapoint) (i : Nat) : Bool := dp.intData.getD i false

def isPositive (dp : Datapoint) : Bool := dp.isClassified && dp.classification

def isNegative (dp : Datapoint) : Bool := dp.isClassified && !dp.classification

end Datapoint

/-- `horn_constraint<bool>`: the premises, and the conclusion, `none` for the `nullptr` that
stands for ⊥. -/
structure HornConstraint where
  premises : List Datapoint
  conclusion : Option Datapoint
deriving DecidableEq, Repr

/-- The data-model invariant over `L` locations: every data point the learner is given, as an
example, a premise or a conclusion, has one of the locations. -/
structure WellFormed (L : Nat) (datapoints : List Datapoint)
    (hornConstraints : List HornConstraint) : Prop where
  datapoints : ∀ dp ∈ datapoints, dp.loc < L
  premises : ∀ hc ∈ hornConstraints, ∀ p ∈ hc.premises, p.loc < L
  conclusions : ∀ hc ∈ hornConstraints, ∀ c, hc.conclusion = some c → c.loc < L

abbrev Conjunctions := List (Finset Nat)

/-- `C[k]` read as a hypothesis; past the end of the vector it is the empty conjunction. -/
def conj (C : Conjunctions) (k : Nat) : Finset Nat := C.getD k ∅

theorem conj_of_length_le {C : Conjunctions} {k : Nat} (h : C.length ≤ k) : conj C k = ∅ := by
  simp [conj, List.getElem?_eq_none h]

theorem conj_modify (C : Conjunctions) (f : Finset Nat → Finset Nat) (k j : Nat) :
    conj (C.modify f k) j = if k = j ∧ j < C.length then f (conj C j) else conj C j := by
  simp only [conj, List.getD_eq_getElem?_getD, List.getElem?_modify]
  by_cases hj : j < C.length
  · simp [List.getElem?_eq_getElem hj, hj]
  · simp [List.getElem?_eq_none (Nat.le_of_not_lt hj), hj]

theorem conj_modify_of_empty (C : Conjunctions) {f : Finset Nat → Finset Nat} (hf : f ∅ = ∅)
    (k j : Nat) : conj (C.modify f k) j = if k = j then f (conj C j) else conj C j := by
  rw [conj_modify]
  by_cases hj : j < C.length
  · simp [hj]
  · simp [hj, conj_of_length_le (Nat.le_of_not_lt hj), hf]

theorem conj_ext {C D : Conjunctions} (hlen : C.length = D.length)
    (h : ∀ k, conj C k = conj D k) : C = D :=
  List.ext_getElem hlen fun k h₁ h₂ => by
    simpa [conj, List.getElem?_eq_getElem h₁, List.getElem?_eq_getElem h₂] using h k

namespace Sorcar

/-- `sorcar::satisfies`: every predicate of the conjunction is true on `dp`. -/
def satisfies (dp : Datapoint) (conjunction : Finset Nat) : Bool :=
  decide (∀ c ∈ conjunction, dp.bit c = true)

theorem satisfies_iff {dp : Datapoint} {c : Finset Nat} :
    satisfies dp c = true ↔ ∀ i ∈ c, dp.bit i = true := by
  simp [satisfies]

theorem satisfies_eq_false_iff {dp : Datapoint} {c : Finset Nat} :
    satisfies dp c = false ↔ ∃ i ∈ c, dp.bit i = false := by
  simp [satisfies]

theorem satisfies_of_subset {dp : Datapoint} {c d : Finset Nat} (h : c ⊆ d)
    (hd : satisfies dp d = true) : satisfies dp c = true :=
  satisfies_iff.2 fun i hi => satisfies_iff.1 hd i (h hi)

/-- `sorcar::is_consistent`: every labelled data point is classified as labelled, and every Horn
constraint whose premises all satisfy `predicates` has a conclusion that does. -/
def isConsistent (predicates : Conjunctions) (datapoints : List Datapoint)
    (hornConstraints : List HornConstraint) : Bool :=
  datapoints.all (fun dp => !dp.isClassified ||
      satisfies dp (conj predicates dp.loc) == dp.classification) &&
    hornConstraints.all fun hc =>
      !(hc.premises.all (fun p => satisfies p (conj predicates p.loc)) &&
        match hc.conclusion with
        | none => true
        | some c => !satisfies c (conj predicates c.loc))

end Sorcar

open Sorcar

def Sat (H : Nat → Finset Nat) (dp : Datapoint) : Prop := satisfies dp (H dp.loc) = true

instance (H : Nat → Finset Nat) (dp : Datapoint) : Decidable (Sat H dp) :=
  inferInstanceAs (Decidable (_ = true))

theorem Sat.of_subset {H G : Nat → Finset Nat} {dp : Datapoint} (h : H dp.loc ⊆ G dp.loc)
    (hG : Sat G dp) : Sat H dp :=
  satisfies_of_subset h hG

/-- `H` respects `hc`: when every premise satisfies `H`, the conclusion is not ⊥ and satisfies
`H`. -/
def HornSat (H : Nat → Finset Nat) (hc : HornConstraint) : Prop :=
  (∀ p ∈ hc.premises, Sat H p) → ∃ c, hc.conclusion = some c ∧ Sat H c

/-- Consistency of a hypothesis with the examples (§3 of the spec). -/
structure Consistent (H : Nat → Finset Nat) (datapoints : List Datapoint)
    (hornConstraints : List HornConstraint) : Prop where
  positives : ∀ dp ∈ datapoints, dp.isPositive = true → Sat H dp
  negatives : ∀ dp ∈ datapoints, dp.isNegative = true → ¬ Sat H dp
  horns : ∀ hc ∈ hornConstraints, HornSat H hc

theorem hornSat_iff_check (H : Nat → Finset Nat) (hc : HornConstraint) :
    HornSat H hc ↔ (!(hc.premises.all (fun p => satisfies p (H p.loc)) &&
      match hc.conclusion with
      | none => true
      | some c => !satisfies c (H c.loc))) = true := by
  rcases hc with ⟨ps, _ | c⟩ <;> simp [HornSat, Sat, imp_iff_not_or]

theorem labelled_iff_check (H : Nat → Finset Nat) (dp : Datapoint) :
    ((dp.isPositive = true → Sat H dp) ∧ (dp.isNegative = true → ¬ Sat H dp)) ↔
      (!dp.isClassified || satisfies dp (H dp.loc) == dp.classification) = true := by
  rcases dp with ⟨bs, k, _ | _, _ | _⟩ <;>
    simp [Datapoint.isPositive, Datapoint.isNegative, Sat]

theorem isConsistent_iff (P : Conjunctions) (datapoints : List Datapoint)
    (hornConstraints : List HornConstraint) :
    isConsistent P datapoints hornConstraints = true ↔ Consistent (conj P) datapoints hornConstraints := by
  simp only [isConsistent, Bool.and_eq_true, List.all_eq_true]
  constructor
  · rintro ⟨hd, hh⟩
    exact ⟨fun dp m => ((labelled_iff_check _ dp).2 (hd dp m)).1,
      fun dp m => ((labelled_iff_check _ dp).2 (hd dp m)).2,
      fun hc m => (hornSat_iff_check _ hc).2 (hh hc m)⟩
  · intro h
    exact ⟨fun dp m => (labelled_iff_check _ dp).1 ⟨h.positives dp m, h.negatives dp m⟩,
      fun hc m => (hornSat_iff_check _ hc).1 (h.horns hc m)⟩

/-! ## `Except` -/

theorem bind_eq_ok {ε α β : Type} {x : Except ε α} {f : α → Except ε β} {b : β} :
    x >>= f = .ok b ↔ ∃ a, x = .ok a ∧ f a = .ok b := by
  cases x <;> simp [bind, Except.bind]

theorem ok_bind {ε α β : Type} (a : α) (f : α → Except ε β) : (Except.ok a >>= f) = f a := rfl

theorem map_eq_ok {ε α β : Type} {x : Except ε α} {f : α → β} {b : β} :
    x.map f = .ok b ↔ ∃ a, x = .ok a ∧ f a = b := by
  cases x <;> simp [Except.map]

theorem map_eq_error {ε α β : Type} {x : Except ε α} {f : α → β} {e : ε} :
    x.map f = .error e ↔ x = .error e := by
  cases x <;> simp [Except.map]

theorem bind_eq_error {ε α β : Type} {x : Except ε α} {f : α → Except ε β} {e : ε}
    (h : x >>= f = .error e) : x = .error e ∨ ∃ a, x = .ok a ∧ f a = .error e := by
  cases x with
  | error e' => exact .inl (congrArg Except.error (Except.error.inj h))
  | ok a => exact .inr ⟨a, rfl, h⟩

end HornVerification
