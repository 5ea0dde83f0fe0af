import WinnowIce.Reduce

/-!
# WinnowIce.Minimal

`sorcar::reduce_predicates_minimal`. It gives every predicate `p` of `X_minus_R[i]` a Boolean
variable `(i, p)`, asserts that every negative point that satisfies `R` and every Horn
constraint is fixed by the variables made true, asks the solver for a model with at most `k`
true variables, for `k = 1, 2, …`, and adds the true variables of the first model to `R`.

* `negExpr`: each negative point that satisfies `R` gets one of its relevant predicates.
* `hornExpr`: each Horn constraint that `R` violates gets a relevant predicate of a premise, and
  each one whose premises and conclusion satisfy `R` has a premise falsified or keeps its
  conclusion.
* `Solver.Correct`: the contract of the solver, a parameter; `trueFirst` is one solver that
  meets it.
-/

namespace HornVerification
namespace Sorcar

/-- The Boolean `z3::expr`s the encoding builds; `var i p` is the variable of predicate `p` at
location `i`. -/
inductive Formula
  | const (b : Bool)
  | var (i p : Nat)
  | and (f g : Formula)
  | or (f g : Formula)
  | not (f : Formula)
deriving Repr, DecidableEq

abbrev Assignment := Nat → Nat → Bool

namespace Formula

def eval (a : Assignment) : Formula → Bool
  | .const b => b
  | .var i p => a i p
  | .and f g => f.eval a && g.eval a
  | .or f g => f.eval a || g.eval a
  | .not f => !f.eval a

def vars : Formula → List (Nat × Nat)
  | .const _ => []
  | .var i p => [(i, p)]
  | .and f g => f.vars ++ g.vars
  | .or f g => f.vars ++ g.vars
  | .not f => f.vars

end Formula

/-- The number of variables of `vars` that `a` makes true: the sum the size constraint bounds. -/
def trueCount (vars : List (Nat × Nat)) (a : Assignment) : Nat :=
  (vars.filter fun v => a v.1 v.2).length

/-- What `solver.check()` and `solver.get_model()` give for the assertions `f` and the size
constraint `trueCount vars ≤ k`: a model, or `none` for `unsat`. -/
abbrev Solver := Formula → List (Nat × Nat) → Nat → Option Assignment

/-- The solver's contract: a model it returns satisfies the assertions, and `unsat` means that
there is no model. -/
def Solver.Correct (solve : Solver) : Prop :=
  ∀ f vars k, (∀ a, solve f vars k = some a → f.eval a = true ∧ trueCount vars a ≤ k) ∧
    (solve f vars k = none → ∀ a, f.eval a = true → k < trueCount vars a)

def subsetsOf : List (Nat × Nat) → List (List (Nat × Nat))
  | [] => [[]]
  | v :: vs => (subsetsOf vs).map (v :: ·) ++ subsetsOf vs

def Assignment.ofList (t : List (Nat × Nat)) : Assignment := fun i p => decide ((i, p) ∈ t)

/-- A solver that meets the contract: it tries the sets of variables of the assertions to make
true, starting with all of them, and returns the first model within the bound. -/
def trueFirst : Solver := fun f vars k =>
  ((subsetsOf (vars ++ f.vars)).map Assignment.ofList).find? fun a =>
    f.eval a && decide (trueCount vars a ≤ k)

/-! ## The encoding -/

/-- `attr2expr`: a variable for each predicate of `X_minus_R`, location by location, in
increasing order; `var_count` is its length. -/
def attr2expr (s : Split) (n : Nat) : List (Nat × Nat) :=
  (List.range n).flatMap fun i => ((conj s.XmR i).sort (· ≤ ·)).map fun p => (i, p)

/-- `clause || attr2expr[dp.loc].at(p)` for every predicate `p` of `X_minus_R[dp.loc]` that
`dp` has false. -/
def falsifiers (s : Split) (clause : Formula) (dp : Datapoint) : Formula :=
  ((relevant s dp).sort (· ≤ ·)).foldl (fun c p => c.or (.var dp.loc p)) clause

/-- The body of the loop over the data points: a negative point that satisfies `R` gets the
clause of its relevant predicates. -/
def negStep (s : Split) (e : Formula) (dp : Datapoint) : Formula :=
  if dp.isNegative && satisfies dp (conj s.R dp.loc) then e.and (falsifiers s (.const false) dp)
  else e

def negExpr (s : Split) (datapoints : List Datapoint) : Formula :=
  datapoints.foldl (negStep s) (.const true)

/-- The clause over all premises of a Horn constraint: some premise is made to fail `R`. -/
def premiseClause (s : Split) (hc : HornConstraint) : Formula :=
  hc.premises.foldl (falsifiers s) (.const false)

/-- `expr && !pair.second` for every predicate of `X_minus_R[c.loc]` that `c` has false: the
conclusion keeps satisfying `R`. -/
def keepExpr (s : Split) (c : Datapoint) : Formula :=
  ((relevant s c).sort (· ≤ ·)).foldl (fun e p => e.and (.not (.var c.loc p))) (.const true)

/-- The body of the loop over the Horn constraints: the `lhs_satisfied` loop with this
reducer's assertion, then the clause of a violated constraint, or the protecting clause of a
satisfied one. -/
def hornStep (s : Split) (e : Formula) (hc : HornConstraint) : Except String Formula :=
  (lhsCheck "assert(id >= 0 && id < R.size())" s.R hc.premises).map fun lhs =>
    let e := if lhs && !conclusionSatisfied s.R hc then e.and (premiseClause s hc) else e
    match hc.conclusion with
    | some c =>
      if lhs && satisfies c (conj s.R c.loc) then e.and ((premiseClause s hc).or (keepExpr s c))
      else e
    | none => e

def hornExpr (s : Split) (hornConstraints : List HornConstraint) : Except String Formula :=
  hornConstraints.foldlM (hornStep s) (.const true)

/-- The `do … while (!done)` over the bound `k`: the first model the solver returns; it throws
once `k` reaches `var_count` without one. -/
def kLoop (check : Nat → Option Assignment) (varCount : Nat) (k : Nat) :
    Except String Assignment :=
  match check k with
  | some a => .ok a
  | none => if h : varCount ≤ k then .error "k >= var_count" else kLoop check varCount (k + 1)
termination_by varCount - k

/-- The loops that add to `R[i]` every predicate whose variable the model makes true. -/
def addModel (R : Conjunctions) (vars : List (Nat × Nat)) (a : Assignment) : Conjunctions :=
  vars.foldl (fun R v => if a v.1 v.2 then R.modify (insert v.2) v.1 else R) R

/-- `sorcar::reduce_predicates_minimal(datapoints, horn_constraints, X, R)` with the solver
`solve`: the new `R`. -/
def reducePredicatesMinimal (solve : Solver) (datapoints : List Datapoint)
    (hornConstraints : List HornConstraint) (X R : Conjunctions) : Except String Conjunctions :=
  if X.isEmpty then .error "X must not be empty"
  else if X.length ≠ R.length then .error "R and X must be of same size"
  else do
    let horn ← hornExpr (.prepare X R) hornConstraints
    let vars := attr2expr (.prepare X R) X.length
    let model ← kLoop (solve ((negExpr (.prepare X R) datapoints).and horn) vars) vars.length 1
    checkConsistent datapoints hornConstraints (addModel (Split.prepare X R).R vars model)

end Sorcar
end HornVerification
