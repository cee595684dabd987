import Mathlib.Data.Nat.Size
import SparsePolynomial.Proofs.Binary64.Integer
import SparsePolynomial.Proofs.Binary64.Rational

/-!
Contract: exponentiation by squaring, round by round.

Owns:
- `Loop`, what is held between two rounds, with the exponent as a word that is shifted, and `Runs`,
  the rounds up to the one that leaves no digit;
- `Reached`, the two numbers in front of each round, which a round carries on to the next;
- `ContributesExactly`, that no product rounds on which the result depends, and from it the exact
  power as a rational number;
- `power_by_squaring`: the number of rounds, the result, and that the last square is not part of it.

A run may square by any operation. This tells the squares that matter from the one that does not:
the last round may do with its square what it likes.
-/

set_option autoImplicit false

namespace SparsePolynomial.Coefficient

open Binary64 (IsFinite ExactProduct rational isInteger_one)

/-! ## The loop -/

/-- The product so far, the next square, and the digits of the exponent that are left. -/
structure Loop where
  result : Float
  square : Float
  rest : UInt64

namespace Loop

def start (base : Float) (exponent : UInt64) : Loop := ⟨1.0, base, exponent⟩

/-- One round, which squares by the given operation. -/
def next (squaring : Float → Float) (loop : Loop) : Loop where
  result := if loop.rest &&& 1 = 1 then loop.result * loop.square else loop.result
  square := squaring loop.square
  rest := loop.rest >>> 1

/-- The loop ends with a result after one round for each of the operations, by which these rounds
square. -/
inductive Runs : Loop → List (Float → Float) → Float → Prop where
  | done {loop : Loop} (ended : loop.rest = 0) : Runs loop [] loop.result
  | round {loop : Loop} {squaring : Float → Float} {later : List (Float → Float)} {result : Float}
      (more : loop.rest ≠ 0) (runs : Runs (loop.next squaring) later result) :
      Runs loop (squaring :: later) result

/-- The operation by which every round squares. -/
def multiply (square : Float) : Float := square * square

/-! ## The number of rounds -/

theorem toNat_rest_next (squaring : Float → Float) (loop : Loop) :
    (loop.next squaring).rest.toNat = loop.rest.toNat / 2 := by
  rw [next, UInt64.toNat_shiftRight]
  exact Nat.shiftRight_one _

theorem odd_iff (loop : Loop) : loop.rest &&& 1 = 1 ↔ loop.rest.toNat % 2 = 1 := by
  rw [← UInt64.toNat_inj, UInt64.toNat_and]
  exact Eq.congr_left (Nat.and_one_is_mod _)

theorem toNat_rest_eq_zero (loop : Loop) : loop.rest.toNat = 0 ↔ loop.rest = 0 :=
  UInt64.toNat_inj (b := 0)

theorem size_rest_eq_zero (loop : Loop) : loop.rest.toNat.size = 0 ↔ loop.rest = 0 := by
  rw [Nat.size_eq_zero, toNat_rest_eq_zero]

theorem size_rest_next {loop : Loop} (more : loop.rest ≠ 0) (squaring : Float → Float) :
    loop.rest.toNat.size = (loop.next squaring).rest.toNat.size + 1 := by
  have nonzero : loop.rest.toNat ≠ 0 := mt loop.toNat_rest_eq_zero.mp more
  have size := @Nat.size_bit loop.rest.toNat.bodd loop.rest.toNat.div2
  rw [Nat.bit_bodd_div2, Nat.div2_val] at size
  rw [toNat_rest_next, size nonzero]

/-- However its rounds square, the loop runs once for each binary digit that is left. -/
theorem Runs.length {loop : Loop} {squarings : List (Float → Float)} {result : Float}
    (runs : loop.Runs squarings result) : squarings.length = loop.rest.toNat.size := by
  induction runs with
  | done ended => exact ((size_rest_eq_zero _).mpr ended).symm
  | round more _ inductionHypothesis =>
      rw [List.length_cons, inductionHypothesis, size_rest_next more]

theorem exists_runs {loop : Loop} {squarings : List (Float → Float)}
    (length : squarings.length = loop.rest.toNat.size) : ∃ result, loop.Runs squarings result := by
  induction squarings generalizing loop with
  | nil => exact ⟨loop.result, .done (loop.size_rest_eq_zero.mp length.symm)⟩
  | cons squaring later inductionHypothesis =>
      have more : loop.rest ≠ 0 := by
        rw [ne_eq, ← size_rest_eq_zero, ← length]
        exact Nat.succ_ne_zero later.length
      have left : later.length = (loop.next squaring).rest.toNat.size :=
        Nat.succ.inj (length.trans (size_rest_next more squaring))
      obtain ⟨result, runs⟩ := inductionHypothesis left
      exact ⟨result, .round more runs⟩

/-! ## The result -/

theorem step_eq (loop : Loop) :
    Squaring.step ⟨loop.result, loop.square⟩ (loop.rest.toNat % 2 == 1) =
      ⟨(loop.next multiply).result, (loop.next multiply).square⟩ := by
  simp only [Squaring.step, next, odd_iff, beq_iff_eq]
  rfl

/-- Where every round squares by multiplication, the rounds are the steps for the binary digits. -/
theorem Runs.foldl_step {loop : Loop} {squarings : List (Float → Float)} {result : Float}
    (runs : loop.Runs squarings result) (multiplies : ∀ squaring ∈ squarings, squaring = multiply) :
    ((binaryDigits loop.rest.toNat).foldl Squaring.step ⟨loop.result, loop.square⟩).result =
      result := by
  induction runs with
  | @done loop ended =>
      rw [ended, UInt64.toNat_zero, binaryDigits_zero]
      rfl
  | @round loop squaring later result more _ inductionHypothesis =>
      obtain ⟨rfl, others⟩ := List.forall_mem_cons.mp multiplies
      have nonzero : loop.rest.toNat ≠ 0 := mt loop.toNat_rest_eq_zero.mp more
      rw [binaryDigits, if_neg nonzero, List.foldl_cons, step_eq, ← toNat_rest_next multiply]
      exact inductionHypothesis others

/-- With multiplication in every round, the loop runs once for each digit, up to the power. -/
theorem runs_multiply_iff (base : Float) (exponent : UInt64) (rounds : ℕ) (result : Float) :
    (start base exponent).Runs (.replicate rounds multiply) result ↔
      rounds = exponent.toNat.size ∧ result = power base exponent := by
  have computes {other : Float}
      (runs : (start base exponent).Runs (.replicate rounds multiply) other) :
      power base exponent = other :=
    runs.foldl_step fun _ member => List.eq_of_mem_replicate member
  have length : (List.replicate rounds multiply).length = rounds := List.length_replicate
  constructor
  · intro runs
    exact ⟨length.symm.trans runs.length, (computes runs).symm⟩
  · rintro ⟨size, rfl⟩
    obtain ⟨other, runs⟩ := @exists_runs (start base exponent) _ (length.trans size)
    rwa [computes runs]

end Loop

/-! ## The numbers in front of each round -/

/-- The base after so many squarings. -/
def squared (base : Float) : ℕ → Float
  | 0 => base
  | i + 1 => squared base i * squared base i

/-- The product of the squares for those of the lowest digits that are set, from the lowest up. -/
def partialPower (base : Float) (n : ℕ) : ℕ → Float
  | 0 => 1.0
  | i + 1 =>
    if n.testBit i then partialPower base n i * squared base i else partialPower base n i

/-- What holds after so many rounds that squared by multiplication. -/
structure Loop.Reached (loop : Loop) (base : Float) (n rounds : ℕ) : Prop where
  result : loop.result = partialPower base n rounds
  square : loop.square = squared base rounds
  rest : loop.rest.toNat = n / 2 ^ rounds

namespace Loop

theorem reached_start (base : Float) (exponent : UInt64) :
    (start base exponent).Reached base exponent.toNat 0 :=
  ⟨rfl, rfl, (Nat.div_one _).symm⟩

/-- The result of a round does not depend on how it squares. -/
theorem Reached.result_next {loop : Loop} {base : Float} {n rounds : ℕ}
    (reached : loop.Reached base n rounds) (squaring : Float → Float) :
    (loop.next squaring).result = partialPower base n (rounds + 1) := by
  simp only [next, odd_iff, partialPower, Nat.testBit_eq_decide_div_mod_eq, decide_eq_true_eq,
    reached.result, reached.square, reached.rest]

theorem Reached.next {loop : Loop} {base : Float} {n rounds : ℕ}
    (reached : loop.Reached base n rounds) :
    (loop.next multiply).Reached base n (rounds + 1) where
  result := reached.result_next multiply
  square := congrArg multiply reached.square
  rest := by rw [toNat_rest_next, reached.rest, Nat.div_div_eq_div_mul, pow_succ]

/-- A run that squares by multiplication until its last round ends with the product for all digits
that it has looked at. -/
theorem Reached.result_eq {loop : Loop} {base : Float} {n rounds later : ℕ}
    (reached : loop.Reached base n rounds) {last : Float → Float} {result : Float}
    (runs : loop.Runs (.replicate later multiply ++ [last]) result) :
    result = partialPower base n (rounds + later + 1) := by
  induction later generalizing loop rounds with
  | zero =>
      cases runs with
      | round _ runs =>
          cases runs with
          | done _ => exact reached.result_next last
  | succ later inductionHypothesis =>
      rw [List.replicate_succ, List.cons_append] at runs
      cases runs with
      | round _ runs =>
          have count : rounds + 1 + later + 1 = rounds + (later + 1) + 1 := by omega
          rw [inductionHypothesis reached.next runs, count]

end Loop

/-- The power is the product of the squares for all digits of the exponent that are set. -/
theorem power_eq (base : Float) (exponent : UInt64) :
    power base exponent = partialPower base exponent.toNat exponent.toNat.size := by
  have runs := (Loop.runs_multiply_iff base exponent _ _).mpr ⟨rfl, rfl⟩
  cases size : exponent.toNat.size with
  | zero =>
      rw [power, Nat.size_eq_zero.mp size, binaryDigits_zero]
      rfl
  | succ before =>
      rw [size, List.replicate_succ'] at runs
      have result := (Loop.reached_start base exponent).result_eq runs
      rwa [Nat.zero_add] at result

/-- With any operation in the last round, the loop still ends with the power. -/
theorem Loop.runs_last_iff (base : Float) (exponent : UInt64) {before : ℕ}
    (size : before + 1 = exponent.toNat.size) (last : Float → Float) (result : Float) :
    (start base exponent).Runs (.replicate before multiply ++ [last]) result ↔
      result = power base exponent := by
  have ends {other : Float}
      (runs : (start base exponent).Runs (.replicate before multiply ++ [last]) other) :
      other = power base exponent := by
    rw [(reached_start base exponent).result_eq runs, power_eq, ← size, Nat.zero_add]
  have length : (List.replicate before multiply ++ [last]).length = exponent.toNat.size := by
    rw [List.length_append, List.length_replicate, List.length_singleton, size]
  constructor
  · exact ends
  · rintro rfl
    obtain ⟨other, runs⟩ := @exists_runs (start base exponent) _ length
    rwa [← ends runs]

/-! ## Products that do not round -/

/-- No product rounds on which the result depends: no square up to that of the highest digit, and no
product with the square of a digit that is set. -/
structure ContributesExactly (base : Float) (n : ℕ) : Prop where
  squares : ∀ i, i + 1 < n.size → ExactProduct (squared base i) (squared base i)
  products : ∀ i, n.testBit i = true → ExactProduct (partialPower base n i) (squared base i)

theorem contributesExactly_iff (base : Float) (n : ℕ) :
    ContributesExactly base n ↔
      (∀ i < n.size, i + 1 < n.size → ExactProduct (squared base i) (squared base i)) ∧
        ∀ i < n.size, n.testBit i = true →
          ExactProduct (partialPower base n i) (squared base i) := by
  constructor
  · exact fun exact => ⟨fun i _ => exact.squares i, fun i _ => exact.products i⟩
  · rintro ⟨squares, products⟩
    refine ⟨fun i contributes => squares i (Nat.lt_of_succ_lt contributes) contributes, ?_⟩
    intro i set
    exact products i (Nat.lt_size.mpr (Nat.ge_two_pow_of_testBit set)) set

instance (base : Float) (n : ℕ) : Decidable (ContributesExactly base n) :=
  decidable_of_iff _ (contributesExactly_iff base n).symm

theorem rational_one : rational 1.0 = 1 := by
  rw [rational, isInteger_one.2, one_mul, Int.cast_natCast]
  exact div_self Binary64.unitsPerOne_cast_ne_zero

section Exact

variable {base : Float} {n : ℕ} (exact : ContributesExactly base n)

include exact

theorem rational_squared {i : ℕ} (contributes : i < n.size) :
    rational (squared base i) = rational base ^ 2 ^ i := by
  induction i with
  | zero => rw [squared, pow_zero, pow_one]
  | succ i inductionHypothesis =>
      have earlier := inductionHypothesis (Nat.lt_of_succ_lt contributes)
      rw [squared, (exact.squares i contributes).2, earlier, ← pow_add, pow_succ, mul_two]

theorem rational_partialPower {i : ℕ} (atMost : i ≤ n.size) :
    IsFinite (partialPower base n i) ∧
      rational (partialPower base n i) = rational base ^ (n % 2 ^ i) := by
  induction i with
  | zero =>
      rw [partialPower, rational_one, pow_zero, Nat.mod_one, pow_zero]
      exact ⟨isInteger_one.1, rfl⟩
  | succ i inductionHypothesis =>
      obtain ⟨finite, power⟩ := inductionHypothesis (Nat.le_of_succ_le atMost)
      have digits : n % 2 ^ (i + 1) = n % 2 ^ i + 2 ^ i * (n / 2 ^ i % 2) := by
        rw [pow_succ, Nat.mod_mul]
      have digit : n.testBit i = true ↔ n / 2 ^ i % 2 = 1 := by
        rw [Nat.testBit_eq_decide_div_mod_eq, decide_eq_true_iff]
      rw [partialPower, digits]
      by_cases set : n.testBit i = true
      · obtain ⟨finiteProduct, product⟩ := exact.products i set
        rw [if_pos set, product, power, rational_squared exact atMost, digit.mp set, mul_one,
          pow_add]
        exact ⟨finiteProduct, rfl⟩
      · rw [if_neg set, Nat.mod_two_ne_one.mp (mt digit.mpr set), Nat.mul_zero, Nat.add_zero]
        exact ⟨finite, power⟩

end Exact

theorem rational_power {base : Float} {exponent : UInt64}
    (exact : ContributesExactly base exponent.toNat) :
    IsFinite (power base exponent) ∧
      rational (power base exponent) = rational base ^ exponent.toNat := by
  have computed := rational_partialPower exact (Nat.le_refl exponent.toNat.size)
  rwa [← power_eq, Nat.mod_eq_of_lt (Nat.lt_size_self _)] at computed

/-- Exponentiation by squaring runs once for each binary digit of the exponent. Its result is exact
if no product rounds on which it depends, and the square that the last round computes is none of
them. -/
theorem power_by_squaring (base : Float) (exponent : UInt64) :
    power base 0 = 1.0 ∧
      (ContributesExactly base exponent.toNat →
        IsFinite (power base exponent) ∧
          rational (power base exponent) = rational base ^ exponent.toNat) ∧
      (∀ rounds result, (Loop.start base exponent).Runs (.replicate rounds Loop.multiply) result ↔
        rounds = exponent.toNat.size ∧ result = power base exponent) ∧
      ∀ before last result, before + 1 = exponent.toNat.size →
        ((Loop.start base exponent).Runs (.replicate before Loop.multiply ++ [last]) result ↔
          result = power base exponent) :=
  ⟨power_zero base, rational_power, Loop.runs_multiply_iff base exponent,
    fun _ last result size => Loop.runs_last_iff base exponent size last result⟩

/-- The highest power of two that is finite. The square of the last round is not, and a zero in its
place gives the same result. -/
theorem power_by_squaring_overflowing :
    ContributesExactly 2.0 (1023 : UInt64).toNat ∧ ¬ IsFinite (squared 2.0 10) ∧
      IsFinite (power 2.0 1023) ∧ rational (power 2.0 1023) = rational 2.0 ^ 1023 ∧
      (Loop.start 2.0 1023).Runs (.replicate 9 Loop.multiply ++ [fun _ => 0.0])
        (power 2.0 1023) := by
  have exact : ContributesExactly 2.0 (1023 : UInt64).toNat := by decide +kernel
  have size : 9 + 1 = (1023 : UInt64).toNat.size := by decide +kernel
  obtain ⟨_, computes, _, ends⟩ := power_by_squaring 2.0 1023
  obtain ⟨finite, power⟩ := computes exact
  exact ⟨exact, by decide +kernel, finite, power, (ends 9 _ _ size).mpr rfl⟩

end SparsePolynomial.Coefficient
