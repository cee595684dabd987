import Mathlib.Order.Bounds.Defs
import SparsePolynomial.Proofs.Polynomial.Product

/-!
Contract: which exponent overflow a multiplication reports.

Owns:
- `Exceeds`, two exponents whose sum is no exponent;
- `FirstOverflow`, the overflow of two operands: the least exponent of the left one that overflows
  with the degree of the right one, and the least of the right one that overflows with it;
- `ReportsOverflow`: every path of multiplication fails exactly if the degrees overflow, and then
  with that pair.

Exponents ascend, so the pair that a traversal meets first is also the least.
-/

set_option autoImplicit false

namespace SparsePolynomial

/-- The sum of the exponents leaves the range of exponents. -/
def Exceeds (m n : UInt64) : Prop := UInt64.size ≤ m.toNat + n.toNat

theorem Exceeds.symm {m n : UInt64} (exceeds : Exceeds m n) : Exceeds n m := by
  rwa [Exceeds, Nat.add_comm]

theorem exceeds_comm (m n : UInt64) : Exceeds m n ↔ Exceeds n m := ⟨Exceeds.symm, Exceeds.symm⟩

namespace Term

theorem not_fits_iff (a b : Term) : ¬ Fits a b ↔ Exceeds a.exponent b.exponent := Nat.not_lt

theorem mul_eq_error_iff (a b : Term) (overflow : ExponentOverflow) :
    a.mul b = .error overflow ↔
      Exceeds a.exponent b.exponent ∧ overflow = ⟨a.exponent, b.exponent⟩ := by
  rw [← not_fits_iff, mul]
  by_cases fits : Fits a b
  · rw [mul?_of_fits fits]
    exact iff_of_false nofun fun given => given.1 fits
  · rw [mul?_of_not_fits fits, and_iff_right fits, eq_comm]
    exact ⟨Except.error.inj, congrArg Except.error⟩

end Term

namespace Polynomial

open Term (Ascending)

/-! ## Exponents -/

/-- The exponents of the terms. -/
def exponents (p : Polynomial) : List UInt64 := p.terms.map Term.exponent

/-- The degree is the last exponent, and no exponent is higher. -/
theorem degree?_eq_some {p : Polynomial} (ascending : Ascending p.terms) {degree : UInt64}
    (found : p.degree? = some degree) :
    degree ∈ p.exponents ∧ ∀ n ∈ p.exponents, n ≤ degree := by
  obtain ⟨last, isLast, rfl⟩ := Option.map_eq_some_iff.mp found
  obtain ⟨lower, parts⟩ := List.getLast?_eq_some_iff.mp isLast
  obtain ⟨below, _⟩ := ascending.around parts
  rw [exponents, parts, List.map_append, List.map_singleton]
  refine ⟨List.mem_append_right _ List.mem_cons_self, ?_⟩
  intro n member
  rcases List.mem_append.mp member with inLower | same
  · obtain ⟨term, isLower, rfl⟩ := List.mem_map.mp inLower
    exact UInt64.le_of_lt (below term isLower)
  · exact (List.mem_singleton.mp same) ▸ UInt64.le_refl _

theorem degree?_eq_none {p : Polynomial} : p.degree? = none ↔ p.terms = [] := by
  rw [degree?, leadingTerm?, Option.map_eq_none_iff, List.getLast?_eq_none_iff]

/-- Some term overflows with an exponent exactly if the degree does. -/
theorem exists_exceeds_iff {p : Polynomial} (ascending : Ascending p.terms) (m : UInt64) :
    (∃ term ∈ p.terms, Exceeds m term.exponent) ↔ ∃ degree ∈ p.degree?, Exceeds m degree := by
  constructor
  · rintro ⟨term, member, exceeds⟩
    cases found : p.degree? with
    | none =>
        rw [degree?_eq_none.mp found] at member
        cases member
    | some degree =>
        have highest := (degree?_eq_some ascending found).2 _ (List.mem_map_of_mem member)
        exact ⟨degree, rfl, exceeds.trans (Nat.add_le_add_left highest _)⟩
  · rintro ⟨degree, found, exceeds⟩
    obtain ⟨term, member, rfl⟩ := List.mem_map.mp (degree?_eq_some ascending found).1
    exact ⟨term, member, exceeds⟩

/-- In an ascending list the first failure is that of the least exponent with a failure. -/
theorem firstFailure_iff {p : Polynomial} (ascending : Ascending p.terms)
    (fails : UInt64 → ExponentOverflow → Prop) (overflow : ExponentOverflow) :
    Traversal.FirstFailure (fun term : Term => fails term.exponent) p.terms overflow ↔
      ∃ n, IsLeast {n | n ∈ p.exponents ∧ ∃ other, fails n other} n ∧ fails n overflow := by
  constructor
  · rintro ⟨before, term, after, parts, succeed, failed⟩
    refine ⟨term.exponent, ⟨⟨?_, overflow, failed⟩, ?_⟩, failed⟩
    · exact List.mem_map_of_mem (parts ▸ List.mem_append_right _ List.mem_cons_self)
    · rintro n ⟨member, other, otherFailed⟩
      obtain ⟨own, inTerms, rfl⟩ := List.mem_map.mp member
      rw [parts] at inTerms
      -- Nothing in front of the term fails, and everything behind it is higher.
      rcases List.mem_append.mp inTerms with earlier | later
      · exact absurd otherFailed (succeed own earlier other)
      · rcases List.mem_cons.mp later with rfl | later
        · exact UInt64.le_refl _
        · exact UInt64.le_of_lt ((ascending.around parts).2 own later)
  · rintro ⟨n, ⟨⟨member, _⟩, least⟩, failed⟩
    obtain ⟨term, inTerms, rfl⟩ := List.mem_map.mp member
    obtain ⟨before, after, parts⟩ := List.append_of_mem inTerms
    refine ⟨before, term, after, parts, ?_, failed⟩
    intro earlier inBefore other otherFailed
    -- A failure in front of the least exponent would be that of a lower one.
    have below := (ascending.around parts).1 earlier inBefore
    have inExponents : earlier.exponent ∈ p.exponents :=
      List.mem_map_of_mem (parts ▸ List.mem_append_left _ inBefore)
    exact UInt64.not_le.mpr below (least ⟨inExponents, other, otherFailed⟩)

/-! ## Rows -/

/-- The overflow of an exponent with an operand: that exponent, and the least one of the operand
that overflows with it. -/
def RowOverflow (m : UInt64) (q : Polynomial) (overflow : ExponentOverflow) : Prop :=
  overflow.left = m ∧ IsLeast {n | n ∈ q.exponents ∧ Exceeds m n} overflow.right

theorem firstFailure_row {q : Polynomial} (right : Ascending q.terms) (m : UInt64)
    (overflow : ExponentOverflow) :
    Traversal.FirstFailure (fun b overflow => Exceeds m b.exponent ∧ overflow = ⟨m, b.exponent⟩)
      q.terms overflow ↔ RowOverflow m q overflow := by
  rw [firstFailure_iff right fun n overflow => Exceeds m n ∧ overflow = ⟨m, n⟩]
  obtain ⟨own, n⟩ := overflow
  simp only [exists_and_left, exists_eq, and_true, RowOverflow, ExponentOverflow.mk.injEq]
  constructor
  · rintro ⟨_, least, _, rfl, rfl⟩
    exact ⟨rfl, least⟩
  · rintro ⟨rfl, least⟩
    exact ⟨n, least, least.1.2, rfl, rfl⟩

theorem row_eq_error {q : Polynomial} (right : Ascending q.terms) (a : Term)
    (overflow : ExponentOverflow) :
    q.terms.mapM (fun b => a.mul b) = .error overflow ↔ RowOverflow a.exponent q overflow := by
  rw [Traversal.mapM_eq_error (Term.mul_eq_error_iff a), firstFailure_row right]

theorem exists_rowOverflow_iff {q : Polynomial} (right : Ascending q.terms) (m : UInt64) :
    (∃ overflow, RowOverflow m q overflow) ↔ ∃ n ∈ q.degree?, Exceeds m n := by
  simp only [← firstFailure_row right, Traversal.exists_firstFailure_iff, exists_and_left,
    exists_eq, and_true, exists_exceeds_iff right]

theorem mulTerm_eq_error {p : Polynomial} (ascending : Ascending p.terms) (term : Term)
    (overflow : ExponentOverflow) :
    p.mulTerm term = .error overflow ↔
      ¬ term.Negligible ∧ RowOverflow term.exponent p overflow := by
  rw [mulTerm]
  by_cases negligible : term.Negligible
  · rw [if_pos negligible]
    refine iff_of_false ?_ fun given => given.1 negligible
    intro impossible
    cases impossible
  · rw [if_neg negligible, and_iff_right negligible, Traversal.bind_pure_eq_error,
      row_eq_error ascending]

/-! ## Products -/

/-- The overflow of two operands: the least exponent of the left one that overflows with the degree
of the right one, and the least one of the right one that overflows with it. -/
def FirstOverflow (p q : Polynomial) (overflow : ExponentOverflow) : Prop :=
  IsLeast {m | m ∈ p.exponents ∧ ∃ n ∈ q.degree?, Exceeds m n} overflow.left ∧
    IsLeast {n | n ∈ q.exponents ∧ Exceeds overflow.left n} overflow.right

theorem firstFailure_rows {p q : Polynomial} (left : Ascending p.terms)
    (right : Ascending q.terms) (overflow : ExponentOverflow) :
    Traversal.FirstFailure (fun a : Term => RowOverflow a.exponent q) p.terms overflow ↔
      FirstOverflow p q overflow := by
  rw [firstFailure_iff left (RowOverflow · q)]
  simp only [exists_rowOverflow_iff right]
  constructor
  · rintro ⟨_, least, rfl, leastRight⟩
    exact ⟨least, leastRight⟩
  · rintro ⟨least, leastRight⟩
    exact ⟨_, least, rfl, leastRight⟩

theorem exists_firstOverflow_iff {p q : Polynomial} (left : Ascending p.terms)
    (right : Ascending q.terms) :
    (∃ overflow, FirstOverflow p q overflow) ↔ ∃ m ∈ p.degree?, ∃ n ∈ q.degree?, Exceeds m n := by
  simp only [← firstFailure_rows left right, Traversal.exists_firstFailure_iff,
    exists_rowOverflow_iff right]
  constructor
  · rintro ⟨a, member, n, isDegree, exceeds⟩
    obtain ⟨m, found, exceeds⟩ := (exists_exceeds_iff left n).mp ⟨a, member, exceeds.symm⟩
    exact ⟨m, found, n, isDegree, exceeds.symm⟩
  · rintro ⟨m, isDegree, n, found, exceeds⟩
    obtain ⟨a, member, exceeds⟩ := (exists_exceeds_iff left n).mpr ⟨m, isDegree, exceeds.symm⟩
    exact ⟨a, member, n, found, exceeds.symm⟩

theorem distribute_eq_error {p q : Polynomial} (left : p.Canonical) (right : Ascending q.terms)
    (overflow : ExponentOverflow) :
    distribute p q = .error overflow ↔ FirstOverflow p q overflow := by
  rw [← firstFailure_rows left.1 right]
  apply Traversal.foldlM_eq_error
  intro a member start failure
  rw [Traversal.bind_pure_eq_error, mulTerm_eq_error right, and_iff_right (left.2 a member)]

theorem accumulate_eq_error {p q : Polynomial} (left : Ascending p.terms)
    (right : Ascending q.terms) (overflow : ExponentOverflow) :
    accumulate p q = .error overflow ↔ FirstOverflow p q overflow := by
  rw [← firstFailure_rows left right, accumulate, collectedProducts, Traversal.map_eq_error,
    Traversal.map_eq_error, pairProducts, Traversal.bind_pure_eq_error,
    Traversal.mapM_eq_error fun a => row_eq_error right a]

theorem multiplyBy_eq_error {p q : Polynomial} (left : p.Canonical) (right : Ascending q.terms)
    (strategy : Strategy) (overflow : ExponentOverflow) :
    multiplyBy strategy p q = .error overflow ↔ FirstOverflow p q overflow := by
  cases strategy with
  | distribute => exact distribute_eq_error left right overflow
  | accumulate => exact accumulate_eq_error left.1 right overflow

/-- Zero operands have no exponents, so the short cut for them hides no overflow. -/
theorem multiply_eq_error {p q : Polynomial} (left : p.Canonical) (right : Ascending q.terms)
    (strategy : Strategy) (overflow : ExponentOverflow) :
    multiply strategy p q = .error overflow ↔ FirstOverflow p q overflow := by
  rw [multiply]
  split
  · rename_i isZero
    constructor
    · intro impossible
      cases impossible
    · rintro ⟨⟨⟨inLeft, _⟩, _⟩, ⟨inRight, _⟩, _⟩
      rcases isZero with noTerms | noTerms
      · rw [exponents, noTerms] at inLeft
        cases inLeft
      · rw [exponents, noTerms] at inRight
        cases inRight
  · exact multiplyBy_eq_error left right strategy overflow

theorem multiplyOrHalt_eq_error {p q : Polynomial} {strategy : Strategy} {halt : Halt} :
    multiplyOrHalt strategy p q = .error halt ↔
      ∃ overflow, multiply strategy p q = .error overflow ∧ halt = ⟨overflow.message⟩ := by
  rw [multiplyOrHalt, orHalt]
  cases multiply strategy p q with
  | error overflow => simp [Except.mapError, eq_comm]
  | ok product => simp [Except.mapError]

/-! ## All paths -/

/-- Every path of multiplication reports the same overflow of its operands, and no other. -/
structure ReportsOverflow (p q : Polynomial) : Prop where
  /-- A product fails exactly if there are degrees and they overflow. -/
  fails : ∀ strategy : Strategy,
    ∀ product ∈ [multiply strategy p q, multiplyBy strategy p q, distribute p q, accumulate p q],
      (∃ overflow, product = .error overflow) ↔ ∃ m ∈ p.degree?, ∃ n ∈ q.degree?, Exceeds m n
  reports : ∀ strategy : Strategy,
    ∀ product ∈ [multiply strategy p q, multiplyBy strategy p q, distribute p q, accumulate p q],
      ∀ overflow, product = .error overflow ↔ FirstOverflow p q overflow
  halts : ∀ (strategy : Strategy) (halt : Halt), multiplyOrHalt strategy p q = .error halt ↔
    ∃ overflow, FirstOverflow p q overflow ∧ halt = ⟨overflow.message⟩
  returns : ∀ (strategy : Strategy) (product : Polynomial),
    multiplyOrHalt strategy p q = .ok product ↔ multiply strategy p q = .ok product
  /-- A term that counts as zero never fails, whatever its exponent. -/
  termFails : ∀ term : Term, (∃ overflow, p.mulTerm term = .error overflow) ↔
    ¬ term.Negligible ∧ ∃ m ∈ p.degree?, Exceeds term.exponent m
  termReports : ∀ (term : Term) (overflow : ExponentOverflow),
    p.mulTerm term = .error overflow ↔ ¬ term.Negligible ∧ overflow.left = term.exponent ∧
      IsLeast {m | m ∈ p.exponents ∧ Exceeds term.exponent m} overflow.right

theorem reportsOverflow {p q : Polynomial} (left : p.Canonical) (right : q.Canonical) :
    ReportsOverflow p q := by
  have reports (strategy : Strategy) : ∀ product ∈
      [multiply strategy p q, multiplyBy strategy p q, distribute p q, accumulate p q],
      ∀ overflow, product = .error overflow ↔ FirstOverflow p q overflow := by
    simp only [List.forall_mem_cons]
    exact ⟨multiply_eq_error left right.1 strategy, multiplyBy_eq_error left right.1 strategy,
      distribute_eq_error left right.1, accumulate_eq_error left.1 right.1, nofun⟩
  exact {
    fails := by
      intro strategy product member
      rw [← exists_firstOverflow_iff left.1 right.1]
      exact exists_congr (reports strategy product member)
    reports := reports
    halts := by
      intro strategy halt
      rw [multiplyOrHalt_eq_error]
      exact exists_congr fun overflow =>
        and_congr_left' (multiply_eq_error left right.1 strategy overflow)
    returns := fun _ _ => multiplyOrHalt_eq_ok
    termFails := by
      intro term
      simp only [mulTerm_eq_error left.1, exists_and_left, exists_rowOverflow_iff left.1]
    termReports := mulTerm_eq_error left.1
  }

/-- A polynomial whose square is out of range. -/
def steep : Polynomial := ⟨[⟨1.0, 0⟩, ⟨1.0, 9223372036854775808⟩]⟩

theorem reportsOverflow_steep : steep.Canonical ∧ ReportsOverflow steep steep := by
  have canonical : steep.Canonical := by decide +kernel
  exact ⟨canonical, reportsOverflow canonical canonical⟩

end Polynomial

end SparsePolynomial
