import Mathlib
import SparsePolynomial.Binary64.Nearest
import SparsePolynomial.Proofs.Binary64.Exact

/-!
Contract: binary64 numbers that are integers.

Owns:
- `IsInteger`, a number that is exactly a given integer, and `ofInteger`, the number nearest to one;
- `integerOf`, the integer that an `IntegerValued` number is;
- that every integer up to `exactBound` is a number, so sums and products of integers that stay
  within it are exact;
- that the only integer which counts as zero is zero.

A zero may have either sign, so `IsInteger x n` fixes `x` only where `n` is not zero.
-/

set_option autoImplicit false

namespace SparsePolynomial.Binary64

/-- Two to the power 53: up to here no integer is skipped. -/
def exactBound : Nat := 9007199254740992

/-- A finite number whose value is the given integer. -/
def IsInteger (x : Float) (n : Int) : Prop := IsFinite x ∧ value x = n * unitsPerOne

/-- The number nearest to an integer. -/
def ofInteger (n : Int) : Float :=
  if n < 0 then -ofRank (nearest n.natAbs 1) else ofRank (nearest n.natAbs 1)

/-- The integer at or below a finite number. -/
def integerOf (x : Float) : Int := value x / unitsPerOne

def IntegerValued (x : Float) : Prop := IsInteger x (integerOf x)

instance (x : Float) : Decidable (IntegerValued x) := by
  unfold IntegerValued IsInteger; infer_instance

/-! ## Integers are numbers -/

/-- A short integer times a power of two is the value of a rank. -/
theorem exists_units_eq (b : Nat) {m : Nat} (short : m < 2 * binade) :
    ∃ r, r < (b + 2) * binade ∧ units r = m * 2 ^ b := by
  induction b generalizing m with
  | zero => exact ⟨m, by omega, by rw [units_of_lt short, pow_zero, mul_one]⟩
  | succ b inductionHypothesis =>
      rcases Nat.lt_or_ge m binade with small | low
      · obtain ⟨r, bound, exact⟩ := @inductionHypothesis (m * 2) (by omega)
        refine ⟨r, lt_of_lt_of_le bound (Nat.mul_le_mul_right _ (by omega)), ?_⟩
        rw [exact, pow_succ]
        ring
      · refine ⟨(b + 1) * binade + m, ?_, units_of_binade_le low short⟩
        have : (b + 1 + 2) * binade = (b + 1) * binade + 2 * binade := by ring
        omega

theorem exists_units_eq_natAbs {n : Int} (small : n.natAbs ≤ exactBound) :
    ∃ r, r < infinityRank ∧ units r = n.natAbs * unitsPerOne := by
  have power : unitsPerOne = 2 ^ halvings := rfl
  rcases Nat.eq_or_lt_of_le small with largest | below
  · obtain ⟨r, bound, exact⟩ := @exists_units_eq (halvings + 1) binade (by decide)
    refine ⟨r, ?_, ?_⟩
    · rw [halvings_eq] at bound
      exact lt_of_lt_of_le bound (by decide)
    · have two : exactBound = binade * 2 := rfl
      rw [exact, largest, two, power, pow_succ]
      ring
  · obtain ⟨r, bound, exact⟩ := @exists_units_eq halvings n.natAbs below
    refine ⟨r, ?_, exact⟩
    rw [halvings_eq] at bound
    exact lt_of_lt_of_le bound (by decide)

theorem representable_integer {n : Int} (small : n.natAbs ≤ exactBound) :
    Representable (n * unitsPerOne) := by
  obtain ⟨r, finite, exact⟩ := exists_units_eq_natAbs small
  refine ⟨r, finite, ?_⟩
  rw [exact, Int.natAbs_mul]
  rfl

private theorem isInteger_ofRank_nearest {n : Nat} (small : n ≤ exactBound) :
    IsInteger (ofRank (nearest n 1)) n := by
  obtain ⟨r, finite, exact⟩ := @exists_units_eq_natAbs n small
  have rankEq : nearest n 1 = r := by
    rw [← nearest_mul_mul n 1 unitsPerOne unitsPerOne_pos, Nat.one_mul]
    change nearest ((n : Int).natAbs * unitsPerOne) unitsPerOne = r
    rw [← exact, nearest_units (Nat.le_of_lt finite)]
  rw [rankEq, ofRank_eq_ofParts (Nat.le_of_lt finite)]
  refine ⟨isFinite_ofParts _ finite, ?_⟩
  rw [value_ofParts _ (Nat.le_of_lt finite), exact]
  exact Int.natCast_mul _ _

theorem isInteger_neg {x : Float} {n : Int} (integer : IsInteger x n) : IsInteger (-x) (-n) := by
  obtain ⟨finite, exact⟩ := integer
  refine ⟨isFinite_neg.mpr finite, ?_⟩
  rw [value_neg finite, exact, neg_mul]

theorem isInteger_ofInteger {n : Int} (small : n.natAbs ≤ exactBound) :
    IsInteger (ofInteger n) n := by
  have magnitude := isInteger_ofRank_nearest small
  unfold ofInteger
  by_cases negative : n < 0
  · rw [if_pos negative]
    have exact := isInteger_neg magnitude
    rwa [Int.ofNat_natAbs_of_nonpos (le_of_lt negative), neg_neg] at exact
  · rw [if_neg negative]
    rwa [Int.natAbs_of_nonneg (by omega)] at magnitude

/-! ## Arithmetic of integers -/

private theorem unitsPerOne_ne_zero : (unitsPerOne : Int) ≠ 0 := by
  have := unitsPerOne_pos
  omega

theorem isInteger_add {x y : Float} {m n : Int} (left : IsInteger x m) (right : IsInteger y n)
    (small : (m + n).natAbs ≤ exactBound) : IsInteger (x + y) (m + n) := by
  have total : value x + value y = (m + n) * unitsPerOne := by
    rw [left.2, right.2, add_mul]
  have sum := value_add left.1 right.1 (by rw [total]; exact representable_integer small)
  exact ⟨sum.1, sum.2.trans total⟩

theorem isInteger_mul {x y : Float} {m n : Int} (left : IsInteger x m) (right : IsInteger y n)
    (small : (m * n).natAbs ≤ exactBound) : IsInteger (x * y) (m * n) := by
  have product : value x * value y = m * n * unitsPerOne * unitsPerOne := by
    rw [left.2, right.2]
    ring
  exact value_mul left.1 right.1 product (representable_integer small)

theorem IsInteger.integerOf_eq {x : Float} {n : Int} (integer : IsInteger x n) :
    integerOf x = n := by
  rw [integerOf, integer.2, Int.mul_ediv_cancel _ unitsPerOne_ne_zero]

theorem IsInteger.integerValued {x : Float} {n : Int} (integer : IsInteger x n) :
    IntegerValued x := by
  rw [IntegerValued, integer.integerOf_eq]
  exact integer

theorem IsInteger.eq_of_ne_zero {x y : Float} {n : Int} (left : IsInteger x n)
    (right : IsInteger y n) (nonzero : n ≠ 0) : x = y := by
  apply eq_of_value (left.2.trans right.2.symm)
  rw [left.2]
  exact mul_ne_zero nonzero unitsPerOne_ne_zero

/-! ## Integers and the tolerance -/

private theorem units_rank_one : units (1023 * binade) = unitsPerOne := by
  have split : 1023 * binade = (halvings - 52) * binade + binade := by
    rw [halvings_eq]
    rfl
  have base : binade = 2 ^ 52 := rfl
  have height : 52 + (halvings - 52) = halvings := by
    rw [halvings_eq]
  have power : unitsPerOne = 2 ^ halvings := rfl
  rw [split, units_of_binade_le (le_refl binade) (by decide), power, base, ← pow_add, height]

theorem IsInteger.negligible_iff {c : Float} {n : Int} (integer : IsInteger c n) :
    Coefficient.Negligible c ↔ n = 0 := by
  rw [Binary64.negligible_iff]
  have size : units (rank c) = n.natAbs * unitsPerOne := by
    rw [← natAbs_value, integer.2, Int.natAbs_mul]
    rfl
  constructor
  · intro tiny
    by_contra nonzero
    have large : unitsPerOne ≤ units (rank c) := by
      rw [size]
      exact Nat.le_mul_of_pos_left _ (by omega)
    have below : rank c < 1023 * binade := by
      rw [toleranceRank_eq] at tiny
      exact lt_of_le_of_lt tiny (by decide)
    rw [← units_rank_one] at large
    exact absurd (units_lt_units below) (Nat.not_lt.mpr large)
  · intro zero
    have none : rank c = 0 := by
      rw [← value_eq_zero, integer.2, zero, zero_mul]
    rw [none]
    exact Nat.zero_le _

theorem isInteger_zero : IsInteger 0.0 0 := by
  rw [zero_eq_ofParts]
  refine ⟨isFinite_ofParts _ (by decide), ?_⟩
  rw [value_ofParts _ (Nat.zero_le _), zero_mul]
  rfl

theorem isInteger_one : IsInteger 1.0 1 := by
  have parts : (1.0 : Float) = ofParts .positive (1023 * binade) := by decide +kernel
  rw [parts]
  refine ⟨isFinite_ofParts _ (by decide), ?_⟩
  rw [value_ofParts _ (by decide), units_rank_one, one_mul]
  rfl

end SparsePolynomial.Binary64
