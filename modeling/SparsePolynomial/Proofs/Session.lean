import SparsePolynomial.Proofs.Polynomial.Asserting
import SparsePolynomial.Storage.Files

/-!
Contract: sequences of calls, each on any input and on any results of earlier calls.

Owns:
- `Call`, every way to obtain a polynomial, and `run`, which collects what calls in a row give;
- `assertingRun`, the same with the assertions of a debug build, which ends at the first that does
  not hold;
- that every polynomial so obtained is canonical, and that no assertion ends a run.

A call that reports a failure gives no polynomial and leaves the earlier results as they are.
-/

set_option autoImplicit false

namespace SparsePolynomial.Session

open Asserting (Assertion Stop)

/-- A call; operands are named by the position of an earlier result. -/
inductive Call where
  | ofTerms (terms : List Term)
  | ofArrays (coefficients : List Float) (exponents : List UInt32)
  | zero
  | one
  | x
  | constant (c : Float)
  | monomial (c : Float) (exponent : UInt64)
  | ofTerm (term : Term)
  | parse (text : String)
  | read {System : Type} [Storage.FileSystem System] (system : System) (name : String)
  | add (left right : Nat)
  | sub (left right : Nat)
  | neg (operand : Nat)
  | scale (operand : Nat) (factor : Float)
  | mulTerm (operand : Nat) (term : Term)
  | multiply (strategy : Strategy) (left right : Nat)
  | multiplyBy (strategy : Strategy) (left right : Nat)
  | distribute (left right : Nat)
  | accumulate (left right : Nat)

/-- The earlier result at a position; a position without a result stands for zero. -/
def operand (results : List Polynomial) (position : Nat) : Polynomial :=
  (results[position]?).getD .zero

/-! ## Runs -/

/-- The polynomial that a call gives, unless it reports a failure. -/
def Call.perform (results : List Polynomial) : Call → Option Polynomial
  | ofTerms terms => some (.ofTerms terms)
  | ofArrays coefficients exponents => (Polynomial.ofArrays coefficients exponents).toOption
  | zero => some .zero
  | one => some .one
  | x => some .x
  | constant c => some (.constant c)
  | monomial c exponent => some (.monomial c exponent)
  | ofTerm term => some (.ofTerm term)
  | parse text => (Text.parse text).toOption
  | read system name => (Storage.read system name).toOption
  | add left right => some ((operand results left).add (operand results right))
  | sub left right => some ((operand results left).sub (operand results right))
  | neg position => some (operand results position).neg
  | scale position factor => some ((operand results position).scale factor)
  | mulTerm position term => ((operand results position).mulTerm term).toOption
  | multiply strategy left right =>
    (Polynomial.multiply strategy (operand results left) (operand results right)).toOption
  | multiplyBy strategy left right =>
    (Polynomial.multiplyBy strategy (operand results left) (operand results right)).toOption
  | distribute left right =>
    (Polynomial.distribute (operand results left) (operand results right)).toOption
  | accumulate left right =>
    (Polynomial.accumulate (operand results left) (operand results right)).toOption

def step (results : List Polynomial) (call : Call) : List Polynomial :=
  results ++ (call.perform results).toList

/-- All polynomials that a sequence of calls gives, in order. -/
def run (calls : List Call) : List Polynomial := calls.foldl step []

/-! ## Runs with assertions -/

/-- A reported overflow gives no polynomial; an assertion that does not hold remains. -/
def outcome : Except Stop Polynomial → Except Assertion (Option Polynomial)
  | .ok p => .ok (some p)
  | .error (.overflow _) => .ok none
  | .error (.assertion assertion) => .error assertion

/-- What a call gives if every list that is wrapped without normalization is looked at. -/
def Call.assertingPerform (results : List Polynomial) : Call → Except Assertion (Option Polynomial)
  | one => outcome (Asserting.monomial 1.0 0)
  | x => outcome (Asserting.monomial 1.0 1)
  | constant c => outcome (Asserting.monomial c 0)
  | monomial c exponent => outcome (Asserting.monomial c exponent)
  | ofTerm term => outcome (Asserting.monomial term.coefficient term.exponent)
  | add left right => outcome (Asserting.add (operand results left) (operand results right))
  | sub left right => outcome (Asserting.sub (operand results left) (operand results right))
  | neg position => outcome (Asserting.neg (operand results position))
  | scale position factor => outcome (Asserting.scale (operand results position) factor)
  | mulTerm position term => outcome (Asserting.mulTerm (operand results position) term)
  | multiply strategy left right =>
    outcome (Asserting.multiply strategy (operand results left) (operand results right))
  | multiplyBy strategy left right =>
    outcome (Asserting.multiplyBy strategy (operand results left) (operand results right))
  | distribute left right =>
    outcome (Asserting.distribute (operand results left) (operand results right))
  | accumulate left right =>
    outcome (Asserting.accumulate (operand results left) (operand results right))
  -- Nothing else wraps a list that has not been normalized.
  | call => .ok (call.perform results)

def assertingStep (results : List Polynomial) (call : Call) :
    Except Assertion (List Polynomial) := do
  return results ++ (← call.assertingPerform results).toList

/-- The run of a debug build, which ends at the first assertion that does not hold. -/
def assertingRun (calls : List Call) : Except Assertion (List Polynomial) :=
  calls.foldlM assertingStep []

/-! ## One call -/

theorem outcome_mapError_overflow (result : Except ExponentOverflow Polynomial) :
    outcome (result.mapError .overflow) = .ok result.toOption := by
  cases result with
  | error overflow => rfl
  | ok p => rfl

theorem canonical_operand {results : List Polynomial}
    (canonical : ∀ p ∈ results, p.Canonical) (position : Nat) :
    (operand results position).Canonical := by
  rw [operand]
  cases found : results[position]? with
  | none => exact Polynomial.canonical_zero
  | some p => exact canonical p (List.mem_of_getElem? found)

theorem toOption_eq_some {Failure Result : Type} {computation : Except Failure Result}
    {result : Result} : computation.toOption = some result ↔ computation = .ok result := by
  cases computation with
  | error failure => exact iff_of_false nofun nofun
  | ok found => exact ⟨fun same => congrArg _ (Option.some.inj same),
      fun same => congrArg _ (Except.ok.inj same)⟩

theorem canonical_parse {text : String} {p : Polynomial} (computed : Text.parse text = .ok p) :
    p.Canonical := by
  rcases Traversal.map_eq_ok.mp computed with ⟨terms, _, rfl⟩
  exact Polynomial.canonical_ofTerms terms

theorem canonical_read {System : Type} [Storage.FileSystem System] {system : System}
    {name : String} {p : Polynomial} (computed : Storage.read system name = .ok p) :
    p.Canonical := by
  rw [Storage.read] at computed
  cases line : Storage.readLine system name with
  | error error =>
      rw [line] at computed
      cases computed
  | ok text =>
      rw [line] at computed
      change (Text.parse text).mapError Storage.ReadError.malformed = .ok p at computed
      cases parsed : Text.parse text with
      | error error =>
          rw [parsed] at computed
          cases computed
      | ok q =>
          rw [parsed] at computed
          cases computed
          exact canonical_parse parsed

/-- Whatever the inputs, a call on canonical results gives a canonical polynomial. -/
theorem canonical_perform {results : List Polynomial} (canonical : ∀ p ∈ results, p.Canonical)
    {call : Call} {p : Polynomial} (computed : call.perform results = some p) : p.Canonical := by
  have operands := canonical_operand canonical
  cases call with
  | ofTerms terms =>
      cases computed
      exact Polynomial.canonical_ofTerms terms
  | ofArrays coefficients exponents =>
      exact Polynomial.canonical_ofArrays (toOption_eq_some.mp computed)
  | zero =>
      cases computed
      exact Polynomial.canonical_zero
  | one =>
      cases computed
      exact Polynomial.canonical_ofTerm _
  | x =>
      cases computed
      exact Polynomial.canonical_ofTerm _
  | constant c =>
      cases computed
      exact Polynomial.canonical_ofTerm _
  | monomial c exponent =>
      cases computed
      exact Polynomial.canonical_ofTerm _
  | ofTerm term =>
      cases computed
      exact Polynomial.canonical_ofTerm term
  | parse text => exact canonical_parse (toOption_eq_some.mp computed)
  | read system name => exact canonical_read (toOption_eq_some.mp computed)
  | add left right =>
      cases computed
      exact Polynomial.canonical_add (operands left) (operands right)
  | sub left right =>
      cases computed
      exact Polynomial.canonical_sub (operands left) (operands right)
  | neg position =>
      cases computed
      exact Polynomial.canonical_neg (operands position)
  | scale position factor =>
      cases computed
      exact Polynomial.canonical_scale (operands position) factor
  | mulTerm position term =>
      exact Polynomial.canonical_mulTerm (operands position) (toOption_eq_some.mp computed)
  | multiply strategy left right =>
      exact Polynomial.canonical_multiply (operands left) (operands right).1
        (toOption_eq_some.mp computed)
  | multiplyBy strategy left right =>
      exact Polynomial.canonical_multiplyBy (operands left) (operands right).1
        (toOption_eq_some.mp computed)
  | distribute left right =>
      exact Polynomial.canonical_distribute (operands left) (operands right).1
        (toOption_eq_some.mp computed)
  | accumulate left right => exact Polynomial.canonical_accumulate (toOption_eq_some.mp computed)

/-- On canonical results every assertion of a call holds. -/
theorem assertingPerform_eq {results : List Polynomial}
    (canonical : ∀ p ∈ results, p.Canonical) (call : Call) :
    call.assertingPerform results = .ok (call.perform results) := by
  have operands := canonical_operand canonical
  cases call with
  | ofTerms terms => rfl
  | ofArrays coefficients exponents => rfl
  | zero => rfl
  | parse text => rfl
  | read system name => rfl
  | one => exact congrArg outcome (Asserting.monomial_eq 1.0 0)
  | x => exact congrArg outcome (Asserting.monomial_eq 1.0 1)
  | constant c => exact congrArg outcome (Asserting.monomial_eq c 0)
  | monomial c exponent => exact congrArg outcome (Asserting.monomial_eq c exponent)
  | ofTerm term =>
      exact congrArg outcome (Asserting.monomial_eq term.coefficient term.exponent)
  | add left right =>
      exact congrArg outcome (Asserting.add_eq (operands left) (operands right))
  | sub left right =>
      exact congrArg outcome (Asserting.sub_eq (operands left) (operands right))
  | neg position => exact congrArg outcome (Asserting.neg_eq (operands position))
  | scale position factor =>
      exact congrArg outcome (Asserting.scale_eq (operands position) factor)
  | mulTerm position term =>
      exact (congrArg outcome (Asserting.mulTerm_eq (operands position) term)).trans
        (outcome_mapError_overflow _)
  | multiply strategy left right =>
      exact (congrArg outcome (Asserting.multiply_eq strategy (operands right))).trans
        (outcome_mapError_overflow _)
  | multiplyBy strategy left right =>
      exact (congrArg outcome (Asserting.multiplyBy_eq strategy (operands right))).trans
        (outcome_mapError_overflow _)
  | distribute left right =>
      exact (congrArg outcome (Asserting.distribute_eq (operands right))).trans
        (outcome_mapError_overflow _)
  | accumulate left right => exact outcome_mapError_overflow _

/-! ## All calls -/

theorem canonical_step {results : List Polynomial} (canonical : ∀ p ∈ results, p.Canonical)
    (call : Call) : ∀ p ∈ step results call, p.Canonical := by
  intro p member
  rcases List.mem_append.mp member with earlier | latest
  · exact canonical p earlier
  · exact canonical_perform canonical (Option.mem_toList.mp latest)

/-- The invariant: what has been obtained so far is canonical. -/
theorem canonical_foldl_step (calls : List Call) {results : List Polynomial}
    (canonical : ∀ p ∈ results, p.Canonical) :
    (∀ p ∈ calls.foldl step results, p.Canonical) ∧
      calls.foldlM assertingStep results = .ok (calls.foldl step results) := by
  induction calls generalizing results with
  | nil => exact ⟨canonical, rfl⟩
  | cons call calls inductionHypothesis =>
      obtain ⟨canonicalLater, laterComputed⟩ :=
        inductionHypothesis (canonical_step canonical call)
      have stepComputed : assertingStep results call = .ok (step results call) := by
        rw [assertingStep, assertingPerform_eq canonical call]
        rfl
      refine ⟨canonicalLater, ?_⟩
      rw [List.foldlM_cons, stepComputed]
      exact laterComputed

/-- Every polynomial that any sequence of calls gives is canonical, and no assertion ever fails. -/
theorem canonical_run (calls : List Call) :
    (∀ p ∈ run calls, p.Canonical) ∧ assertingRun calls = .ok (run calls) :=
  canonical_foldl_step calls fun _ member => absurd member List.not_mem_nil

end SparsePolynomial.Session
