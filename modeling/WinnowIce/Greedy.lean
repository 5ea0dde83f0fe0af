import WinnowIce.Reduce
import Mathlib.Algebra.BigOperators.Group.Finset

/-!
# WinnowIce.Greedy

`sorcar::reduce_predicates_greedy`, the reducer that drops no constraint. It enters every
negative point that satisfies `R` under each predicate of `X_minus_R` that would fix it; each
round of its `do … while (!done)` then enters the Horn constraints that `R` violates, picks
predicates greedily, the one that fixes most first, and adds them to `R`, until a round meets no
violated constraint and picks nothing. `predicates[i][p]` holds points and constraints by
address; here by their index in `datapoints` and `horn_constraints`, whose order the addresses
follow.

* `collectNegatives`, `collectHorns`: the loops that enter points and constraints.
* `scan`: the search for the entry that fixes most, the first one on a tie.
* `traverse`, `erasePicked`: the two range-`for` loops over the picked entry. Their body erases
  each element from every entry whose predicate fixes it, the picked entry among them, so the
  `++it` after it is undefined behaviour; the model ends the run there with the error
  `erasedUnderIterator`.
-/

namespace HornVerification
namespace Sorcar

inductive Side
  | first
  | second
deriving DecidableEq, Repr

/-- `predicates[i][p]`: the negative points and the Horn constraints, by index, that adding
predicate `p` to `R[i]` would fix. -/
structure Entry where
  first : Finset Nat
  second : Finset Nat

namespace Entry

def empty : Entry := ⟨∅, ∅⟩

def side (e : Entry) : Side → Finset Nat
  | .first => e.first
  | .second => e.second

def update (e : Entry) : Side → (Finset Nat → Finset Nat) → Entry
  | .first, f => ⟨f e.first, e.second⟩
  | .second, f => ⟨e.first, f e.second⟩

/-- `first.size() + second.size()`: how many points and constraints the predicate would fix. -/
def count (e : Entry) : Nat := e.first.card + e.second.card

@[simp] theorem side_empty (σ : Side) : empty.side σ = ∅ := by cases σ <;> rfl

@[simp] theorem side_update (e : Entry) (σ τ : Side) (f : Finset Nat → Finset Nat) :
    (e.update σ f).side τ = if σ = τ then f (e.side τ) else e.side τ := by
  cases σ <;> cases τ <;> rfl

theorem count_eq_zero {e : Entry} : e.count = 0 ↔ ∀ σ, e.side σ = ∅ := by
  simp only [count, Nat.add_eq_zero, Finset.card_eq_zero]
  exact ⟨fun h σ => by cases σ <;> simp [side, h], fun h => ⟨h .first, h .second⟩⟩

end Entry

/-- `predicates`, a vector of maps from predicate to entry: its size, the keys of each map, and
what is stored under each key. A map is iterated in increasing key order. -/
structure Predicates where
  size : Nat
  keys : Nat → Finset Nat
  entry : Nat → Nat → Entry

namespace Predicates

def empty (n : Nat) : Predicates := ⟨n, fun _ => ∅, fun _ _ => .empty⟩

/-- `predicates[i][p]` as `operator[]` reads it: what is stored under the key, and the empty
entry for a missing key. -/
def get (P : Predicates) (i p : Nat) : Entry := if p ∈ P.keys i then P.entry i p else .empty

/-- `predicates[i][p]` updated by `f`; `operator[]` first inserts a missing key. -/
def modify (P : Predicates) (i p : Nat) (f : Entry → Entry) : Predicates :=
  ⟨P.size, fun j => if j = i then insert p (P.keys j) else P.keys j,
    fun j q => if j = i ∧ q = p then f (P.get i p) else P.entry j q⟩

/-- `predicates.at(i).at(p)`: `at` throws on a missing index or key. -/
def atEntry (P : Predicates) (i p : Nat) : Except String Entry :=
  if i < P.size then if p ∈ P.keys i then .ok (P.entry i p) else .error "map::at"
  else .error "vector::_M_range_check"

def update (P : Predicates) (i p : Nat) (f : Entry → Entry) : Predicates :=
  ⟨P.size, P.keys, fun j q => if j = i ∧ q = p then f (P.entry i p) else P.entry j q⟩

def modifyAt (P : Predicates) (i p : Nat) (f : Entry → Entry) : Except String Predicates :=
  (P.atEntry i p).map fun _ => P.update i p f

def erase (P : Predicates) (i p : Nat) : Predicates :=
  ⟨P.size, fun j => if j = i then (P.keys j).erase p else P.keys j, P.entry⟩

def totalKeys (P : Predicates) : Nat := ∑ i ∈ Finset.range P.size, (P.keys i).card

@[simp] theorem size_modify (P : Predicates) (i p f) : (P.modify i p f).size = P.size := rfl
@[simp] theorem size_update (P : Predicates) (i p f) : (P.update i p f).size = P.size := rfl
@[simp] theorem size_erase (P : Predicates) (i p) : (P.erase i p).size = P.size := rfl
@[simp] theorem keys_update (P : Predicates) (i p f) : (P.update i p f).keys = P.keys := rfl

theorem keys_modify (P : Predicates) (i p f) (j : Nat) :
    (P.modify i p f).keys j = if j = i then insert p (P.keys j) else P.keys j := rfl

theorem keys_erase (P : Predicates) (i p j : Nat) :
    (P.erase i p).keys j = if j = i then (P.keys j).erase p else P.keys j := rfl

theorem get_modify (P : Predicates) (i p f) (j q : Nat) :
    (P.modify i p f).get j q = if j = i ∧ q = p then f (P.get i p) else P.get j q := by
  by_cases hj : j = i <;> by_cases hq : q = p <;> simp [get, modify, hj, hq]

theorem get_update (P : Predicates) {i p : Nat} (hp : p ∈ P.keys i) (f) (j q : Nat) :
    (P.update i p f).get j q = if j = i ∧ q = p then f (P.get i p) else P.get j q := by
  by_cases hj : j = i <;> by_cases hq : q = p <;> simp [get, update, hj, hq, hp]

theorem get_erase (P : Predicates) (i p j q : Nat) :
    (P.erase i p).get j q = if j = i ∧ q = p then .empty else P.get j q := by
  by_cases hj : j = i <;> by_cases hq : q = p <;> simp [get, erase, hj, hq]

theorem atEntry_of_mem {P : Predicates} {i p : Nat} (hi : i < P.size) (hp : p ∈ P.keys i) :
    P.atEntry i p = .ok (P.get i p) := by
  simp [atEntry, get, hi, hp]

theorem modifyAt_of_mem {P : Predicates} {i p : Nat} (hi : i < P.size) (hp : p ∈ P.keys i)
    (f : Entry → Entry) : P.modifyAt i p f = .ok (P.update i p f) := by
  simp [modifyAt, atEntry_of_mem hi hp, Except.map]

end Predicates

/-! ## The greedy reducer -/

/-- The loop over `X_minus_R[dp.loc]` that enters `x` on side `σ` under every predicate `dp`
has false. -/
def enter (s : Split) (σ : Side) (x : Nat) (P : Predicates) (dp : Datapoint) : Predicates :=
  ((relevant s dp).sort (· ≤ ·)).foldl (fun P p => P.modify dp.loc p fun e => e.update σ (insert x))
    P

/-- The body of the loop before the `do`: assert the location of the point, and enter a negative
point that satisfies `R` under each of its relevant predicates. -/
def enterNegative (s : Split) (P : Predicates) (d : Nat × Datapoint) : Except String Predicates :=
  if d.2.loc < s.R.length then
    .ok (if d.2.isNegative && satisfies d.2 (conj s.R d.2.loc) then enter s .first d.1 P d.2 else P)
  else .error "assert(id >= 0 && id < R.size())"

/-- The loop before the `do`, over the data points with their indices. -/
def collectNegatives (datapoints : List Datapoint) (s : Split) (P : Predicates) :
    Except String Predicates :=
  datapoints.enum.foldlM (enterNegative s) P

/-- The body of the loop over the Horn constraints at the start of a round: a constraint whose
premises all satisfy `R` and whose conclusion is ⊥ or does not satisfy `R` clears `done`, and is
entered under each relevant predicate of each premise. -/
def enterHorn (s : Split) (r : Predicates × Bool) (h : Nat × HornConstraint) :
    Except String (Predicates × Bool) :=
  (lhsSatisfied s.R h.2.premises).map fun lhs =>
    if lhs && !conclusionSatisfied s.R h.2 then (h.2.premises.foldl (enter s .second h.1) r.1, false)
    else r

/-- The loop over the Horn constraints with their indices; `done` starts true. -/
def collectHorns (hornConstraints : List HornConstraint) (s : Split) (P : Predicates) :
    Except String (Predicates × Bool) :=
  hornConstraints.enum.foldlM (enterHorn s) (P, true)

/-- The scan state: `best_value`, `best_id`, `best_p` and `found_unprocessed_predicate`. -/
structure Pick where
  value : Nat
  id : Nat
  p : Nat
  found : Bool

def Pick.step (b : Pick) (i p : Nat) (e : Entry) : Pick :=
  if e.count > b.value then ⟨e.count, i, p, true⟩ else b

def scanMap (P : Predicates) (b : Pick) (i : Nat) : Pick :=
  ((P.keys i).sort (· ≤ ·)).foldl (fun b p => b.step i p (P.get i p)) b

/-- The two loops over `predicates` that find the entry fixing most; on a tie the first in scan
order stays. -/
def scan (P : Predicates) : Pick := (List.range P.size).foldl (scanMap P) ⟨0, 0, 0, false⟩

/-- The points an element on side `σ` stands for: a negative point itself, or the premises of a
Horn constraint. -/
def targets (datapoints : List Datapoint) (hornConstraints : List HornConstraint) :
    Side → Nat → List Datapoint
  | .first, d => datapoints[d]?.toList
  | .second, h => (hornConstraints[h]?.map HornConstraint.premises).getD []

/-- The erase calls of the loop over side `σ` of the picked entry, whose set is `xs`, in order:
for each element `x`, each point it stands for, and each predicate `p` of `X_minus_R` the point
has false, the call `predicates.at(loc).at(p).σ.erase(x)`, as `(x, loc, p)`. -/
def erasures (datapoints : List Datapoint) (hornConstraints : List HornConstraint) (s : Split)
    (σ : Side) (xs : Finset Nat) : List (Nat × Nat × Nat) :=
  (xs.sort (· ≤ ·)).flatMap fun x => (targets datapoints hornConstraints σ x).flatMap fun dp =>
    ((relevant s dp).sort (· ≤ ·)).map fun p => (x, dp.loc, p)

def runErasures (σ : Side) (P : Predicates) (es : List (Nat × Nat × Nat)) :
    Except String Predicates :=
  es.foldlM (fun P e => P.modifyAt e.2.1 e.2.2 fun en => en.update σ fun xs => xs.erase e.1) P

/-- The undefined `++it` of a range-`for` whose body erased the element `it` points to. -/
def erasedUnderIterator : String := "++it on an iterator invalidated by erase"

/-- The range-`for` over side `σ` of the picked entry `(i, p)`, whose elements are `xs` in order:
the body makes the erase calls of element `x`, and when one of them erased `x` from the entry
`(i, p)` itself, the `++it` after it is undefined. -/
def traverse (datapoints : List Datapoint) (hornConstraints : List HornConstraint) (s : Split)
    (σ : Side) (i p : Nat) : List Nat → Predicates → Except String Predicates
  | [], P => .ok P
  | x :: xs, P =>
    runErasures σ P (erasures datapoints hornConstraints s σ {x}) >>= fun P =>
      if (x, i, p) ∈ erasures datapoints hornConstraints s σ {x} then .error erasedUnderIterator
      else traverse datapoints hornConstraints s σ i p xs P

/-- What a pick does with the entry `(i, p)`: traverse its negative points, then its Horn
constraints, erasing each from every entry it is in, then erase the key. -/
def erasePicked (datapoints : List Datapoint) (hornConstraints : List HornConstraint)
    (s : Split) (P : Predicates) (i p : Nat) : Except String Predicates := do
  let e ← P.atEntry i p
  let P ← traverse datapoints hornConstraints s .first i p (e.first.sort (· ≤ ·)) P
  let e ← P.atEntry i p
  let P ← traverse datapoints hornConstraints s .second i p (e.second.sort (· ≤ ·)) P
  return P.erase i p

/-- The inner `do … while (found_unprocessed_predicate)` with at most `fuel` picks: the map left
and `new_relevant_predicates`. `none` means the picks ran out. -/
def pickLoop (datapoints : List Datapoint) (hornConstraints : List HornConstraint) (s : Split) :
    Nat → Predicates → List (Nat × Nat) → Option (Except String (Predicates × List (Nat × Nat)))
  | 0, _, _ => none
  | fuel + 1, P, picked =>
    if (scan P).found then
      match erasePicked datapoints hornConstraints s P (scan P).id (scan P).p with
      | .error e => some (.error e)
      | .ok P' => pickLoop datapoints hornConstraints s fuel P' (picked ++ [((scan P).id, (scan P).p)])
    else some (.ok (P, picked))

/-- The debug loop after the picks: every entry left is empty. -/
def allEmpty (P : Predicates) : Bool :=
  decide (∀ i < P.size, ∀ p ∈ P.keys i, (P.get i p).first = ∅ ∧ (P.get i p).second = ∅)

/-- The loop that adds `new_relevant_predicates` to `R` and erases them from `X_minus_R`. -/
def commit (s : Split) (picked : List (Nat × Nat)) : Split :=
  picked.foldl (fun s k => s.move k.1 {k.2}) s

/-- One round of the outer loop: the new split, the map, and `done`. The picks get one more
turn than there are keys. -/
def greedyRound (datapoints : List Datapoint) (hornConstraints : List HornConstraint) (s : Split)
    (P : Predicates) : Option (Except String (Split × Predicates × Bool)) :=
  match collectHorns hornConstraints s P with
  | .error e => some (.error e)
  | .ok (P, done) =>
    match pickLoop datapoints hornConstraints s (P.totalKeys + 1) P [] with
    | none => none
    | some (.error e) => some (.error e)
    | some (.ok (P, picked)) =>
      if allEmpty P then some (.ok (commit s picked, P, done && picked.isEmpty))
      else some (.error "assert(pair.second.first.empty() && pair.second.second.empty())")

/-- The outer `do … while (!done)` with at most `fuel` rounds; `none` means the rounds ran
out. -/
def greedyLoop (datapoints : List Datapoint) (hornConstraints : List HornConstraint) :
    Nat → Split → Predicates → Option (Except String Split)
  | 0, _, _ => none
  | fuel + 1, s, P =>
    match greedyRound datapoints hornConstraints s P with
    | none => none
    | some (.error e) => some (.error e)
    | some (.ok (s', P', done)) =>
      if done then some (.ok s') else greedyLoop datapoints hornConstraints fuel s' P'

/-- `sorcar::reduce_predicates_greedy(datapoints, horn_constraints, X, R)` with at most `fuel`
rounds: the new `R`. -/
def reducePredicatesGreedy (fuel : Nat) (datapoints : List Datapoint)
    (hornConstraints : List HornConstraint) (X R : Conjunctions) :
    Option (Except String Conjunctions) :=
  if X.isEmpty then some (.error "X must not be empty")
  else if X.length ≠ R.length then some (.error "R and X must be of same size")
  else
    match collectNegatives datapoints (.prepare X R) (.empty X.length) with
    | .error e => some (.error e)
    | .ok P => (greedyLoop datapoints hornConstraints fuel (.prepare X R) P).map
        (assertConsistent datapoints hornConstraints)

end Sorcar
end HornVerification
