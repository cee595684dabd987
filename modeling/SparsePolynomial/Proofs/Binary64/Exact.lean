import Mathlib
import SparsePolynomial.Proofs.Binary64.Order

/-!
Contract: sums and products that do not round.

Owns:
- `value`, the exact value of a finite number in units of the least positive one;
- `Representable`, the integers that are the value of some finite number;
- `value_add` and `value_mul`: where the exact result is representable, the arithmetic of `Float`
  gives it.

Does not own: what happens where a result rounds or leaves the range.
-/

set_option autoImplicit false

namespace SparsePolynomial.Binary64

open Float.Model (UnpackedFloat Format totalExponent)
open Float.Model.UnpackedFloat (Sign ExtendedMantissa Accuracy shiftToTargetExponent
  shiftToExponent roundWithAccuracy decreaseExponent)

/-- The value of a finite number as a multiple of the least positive number. -/
def value (x : Float) : Int := (sign x).apply (units (rank x))

/-- The value of some finite number. -/
def Representable (n : Int) : Prop := ∃ r, r < infinityRank ∧ units r = n.natAbs

/-! ## Rounding what is already exact -/

private theorem shiftRight_exact (m k : Nat) :
    (⟨m * 2 ^ k, false, false⟩ : ExtendedMantissa) >>> k = ⟨m, false, false⟩ := by
  induction k generalizing m with
  | zero =>
      rw [pow_zero, mul_one]
      rfl
  | succ k inductionHypothesis =>
      have doubled : m * 2 ^ (k + 1) = m * 2 * 2 ^ k := by ring
      change ExtendedMantissa.shiftRightOne
        ((⟨m * 2 ^ (k + 1), false, false⟩ : ExtendedMantissa) >>> k) = _
      rw [doubled, inductionHypothesis]
      simp [ExtendedMantissa.shiftRightOne]

theorem log2_mul_two_pow {m : Nat} (positive : 0 < m) (k : Nat) :
    (m * 2 ^ k).log2 = m.log2 + k := by
  have nonzero : m ≠ 0 := Nat.ne_of_gt positive
  have power : 0 < 2 ^ k := Nat.two_pow_pos k
  obtain ⟨low, high⟩ := (Nat.log2_eq_iff nonzero).mp rfl
  apply (Nat.log2_eq_iff (Nat.mul_ne_zero nonzero (Nat.ne_of_gt power))).mpr
  constructor
  · rw [pow_add]
    exact Nat.mul_le_mul_right _ low
  · rw [Nat.add_right_comm, pow_add]
    exact Nat.mul_lt_mul_of_pos_right high power

private theorem targetExponent_significand {r : Nat} (positive : 0 < r) (k : Nat) :
    Format.binary64.targetExponent
      (totalExponent (significand r * 2 ^ k) ((scale r : Int) - halvings - k)) =
        scale r - halvings := by
  unfold Format.targetExponent totalExponent
  change max (((significand r * 2 ^ k).log2 : Int) + 1 + (scale r - halvings - k) - 53)
    (-1074) = _
  rw [log2_mul_two_pow (significand_pos positive), halvings_eq]
  rcases Nat.lt_or_ge r binade with subnormal | normal
  · have short := log2_significand_of_subnormal positive subnormal
    have lowest : scale r = 0 := by simp [scale, Nat.div_eq_of_lt subnormal]
    omega
  · have full := log2_significand_of_normal normal
    omega

private theorem shiftToTargetExponent_exact {r : Nat} (positive : 0 < r) (k : Nat) :
    shiftToTargetExponent .binary64 (significand r * 2 ^ k) ((scale r : Int) - halvings - k)
      .exact = (⟨significand r, false, false⟩, (scale r : Int) - halvings) := by
  have amount : (((scale r : Int) - halvings) - ((scale r : Int) - halvings - k)).toNat = k := by
    omega
  have target : (scale r : Int) - halvings - k + k = scale r - halvings := by omega
  unfold shiftToTargetExponent
  rw [targetExponent_significand positive]
  simp only [shiftToExponent, amount]
  change ((⟨significand r * 2 ^ k, false, false⟩ : ExtendedMantissa) >>> k, _) = _
  rw [shiftRight_exact, target]

/-- Low zero bits are dropped without rounding. -/
private theorem roundWithAccuracy_exact (s : Sign) {r : Nat} (positive : 0 < r)
    (finite : r < infinityRank) (k : Nat) :
    roundWithAccuracy .binary64 s (significand r * 2 ^ k) ((scale r : Int) - halvings - k)
      .exact = unpacked s r := by
  have again := shiftToTargetExponent_exact positive 0
  rw [pow_zero, mul_one, Nat.cast_zero, sub_zero] at again
  have rounded : (⟨significand r, false, false⟩ : ExtendedMantissa).roundedMantissa =
      significand r := rfl
  unfold roundWithAccuracy
  rw [shiftToTargetExponent_exact positive]
  simp only [rounded, again]
  rw [dif_neg (Nat.ne_of_gt (significand_pos positive)), unpacked_of_finite s positive finite]

/-- A significand and an exponent that together are the value of a rank round to that rank. -/
private theorem round_exact (s : Sign) {r m a : Nat} (positive : 0 < r)
    (finite : r < infinityRank) (exact : m * 2 ^ a = units r) :
    UnpackedFloat.round .binary64 s m ((a : Int) - halvings) = unpacked s r := by
  change m * 2 ^ a = significand r * 2 ^ scale r at exact
  rcases Nat.lt_or_ge (scale r) a with above | atMost
  · obtain ⟨k, rfl⟩ : ∃ k, a = scale r + k := ⟨a - scale r, by omega⟩
    have whole : m * 2 ^ k = significand r := by
      have scaled : m * 2 ^ k * 2 ^ scale r = significand r * 2 ^ scale r := by
        rw [← exact, pow_add]
        ring
      exact Nat.eq_of_mul_eq_mul_right (Nat.two_pow_pos _) scaled
    have total : totalExponent m (((scale r + k : Nat) : Int) - halvings) =
        totalExponent (significand r * 2 ^ 0) ((scale r : Int) - halvings - (0 : Nat)) := by
      have nonzero : 0 < m := by
        have := significand_pos positive
        rcases Nat.eq_zero_or_pos m with rfl | nonzero
        · rw [Nat.zero_mul] at whole
          omega
        · exact nonzero
      unfold totalExponent
      rw [pow_zero, mul_one, ← whole, log2_mul_two_pow nonzero]
      omega
    have amount : (((scale r + k : Nat) : Int) - halvings - (scale r - halvings)).toNat = k := by
      omega
    have rest : ((scale r + k : Nat) : Int) - halvings - k = scale r - halvings - (0 : Nat) := by
      omega
    unfold UnpackedFloat.round
    rw [total, targetExponent_significand positive]
    simp only [decreaseExponent, amount, rest, Nat.shiftLeft_eq, whole]
    have exact := roundWithAccuracy_exact s positive finite 0
    rw [pow_zero, mul_one] at exact
    exact exact
  · obtain ⟨k, split⟩ : ∃ k, scale r = a + k := ⟨scale r - a, by omega⟩
    have whole : m = significand r * 2 ^ k := by
      rw [split, pow_add] at exact
      have scaled : m * 2 ^ a = significand r * 2 ^ k * 2 ^ a := by
        rw [exact]
        ring
      exact Nat.eq_of_mul_eq_mul_right (Nat.two_pow_pos _) scaled
    have exponent : (a : Int) - halvings = scale r - halvings - k := by omega
    have amount : ((scale r : Int) - halvings - k - (scale r - halvings)).toNat = 0 := by omega
    unfold UnpackedFloat.round
    rw [whole, exponent, targetExponent_significand positive]
    simp only [decreaseExponent, amount, Nat.shiftLeft_zero, Nat.cast_zero, sub_zero]
    exact roundWithAccuracy_exact s positive finite k

theorem units_zero : units 0 = 0 := rfl

theorem units_pos {r : Nat} (positive : 0 < r) : 0 < units r := by
  rw [← units_zero]
  exact units_lt_units positive

/-- The sign that rounding gives a sum; a sum of nothing is positive. -/
private def sumSign (n : Int) : Sign := if n < 0 then .negative else .positive

private theorem normalize_exact {n : Int} {a r : Nat} (finite : r < infinityRank)
    (exact : n.natAbs * 2 ^ a = units r) :
    UnpackedFloat.normalize .binary64 n ((a : Int) - halvings) .positive =
      unpacked (sumSign n) r := by
  unfold UnpackedFloat.normalize sumSign
  rcases Int.lt_trichotomy n 0 with negative | rfl | positive
  · have size : (-n).toNat = n.natAbs := by omega
    have nonzero : 0 < r := by
      rw [← units_lt_units_iff, units_zero, ← exact]
      exact Nat.mul_pos (by omega) (Nat.two_pow_pos a)
    rw [Int.compare_eq_lt.mpr negative, if_pos negative]
    simp only [size]
    exact round_exact .negative nonzero finite exact
  · have zero : r = 0 := by
      rw [Int.natAbs_zero, Nat.zero_mul] at exact
      exact units_inj.mp exact.symm
    rw [zero]
    rfl
  · have size : n.toNat = n.natAbs := by omega
    have nonzero : 0 < r := by
      rw [← units_lt_units_iff, units_zero, ← exact]
      exact Nat.mul_pos (by omega) (Nat.two_pow_pos a)
    rw [Int.compare_eq_gt.mpr positive, if_neg (by omega)]
    simp only [size]
    exact round_exact .positive nonzero finite exact

/-! ## Values -/

private theorem apply_natAbs_of_sumSign (n m : Int) (signs : n < 0 ↔ m < 0) :
    (sumSign n).apply m.natAbs = m := by
  unfold sumSign
  split
  · change -(m.natAbs : Int) = m
    omega
  · change (m.natAbs : Int) = m
    omega

private theorem natAbs_apply (s : Sign) (n : Int) : (s.apply n).natAbs = n.natAbs := by
  cases s with
  | negative => exact Int.natAbs_neg n
  | positive => rfl

theorem natAbs_value (x : Float) : (value x).natAbs = units (rank x) := by
  rw [value, natAbs_apply]
  rfl

theorem representable_value {x : Float} (finite : IsFinite x) : Representable (value x) :=
  ⟨rank x, finite, (natAbs_value x).symm⟩

theorem value_ofParts (s : Sign) {r : Nat} (atMost : r ≤ infinityRank) :
    value (ofParts s r) = s.apply (units r) := by
  rw [value, sign_ofParts s atMost, rank_ofParts s atMost]

theorem isFinite_ofParts (s : Sign) {r : Nat} (finite : r < infinityRank) :
    IsFinite (ofParts s r) := by
  rw [IsFinite, rank_ofParts s (Nat.le_of_lt finite)]
  exact finite

theorem isFinite_neg {x : Float} : IsFinite (-x) ↔ IsFinite x := by
  rw [IsFinite, IsFinite, rank_neg]

theorem value_neg {x : Float} (finite : IsFinite x) : value (-x) = -value x := by
  rw [neg_eq_ofParts, value_ofParts _ (Nat.le_of_lt finite), value]
  cases sign x with
  | negative => exact (Int.neg_neg _).symm
  | positive => rfl

theorem value_eq_zero {x : Float} : value x = 0 ↔ rank x = 0 := by
  rw [← Int.natAbs_eq_zero, natAbs_value]
  exact (units_inj : units (rank x) = units 0 ↔ rank x = 0)

theorem isFinite_zero : IsFinite 0.0 := by decide

theorem value_zero : value 0.0 = 0 := value_eq_zero.mpr (by decide)

/-- Only zero has two signs. -/
theorem eq_of_value {x y : Float} (same : value x = value y) (nonzero : value x ≠ 0) : x = y := by
  have ranks : rank x = rank y := by
    rw [← units_inj, ← natAbs_value, ← natAbs_value, same]
  have positive : 0 < units (rank y) := by
    rw [← natAbs_value, ← same]
    omega
  apply eq_of_sign_of_rank _ ranks
  unfold value at same
  rw [ranks] at same
  cases left : sign x <;> cases right : sign y
  · rfl
  · rw [left, right] at same
    change -(units (rank y) : Int) = units (rank y) at same
    omega
  · rw [left, right] at same
    change (units (rank y) : Int) = -units (rank y) at same
    omega
  · rfl

/-! ## Sums -/

private theorem apply_mul (s : Sign) (m n : Int) : s.apply m * n = s.apply (m * n) := by
  cases s with
  | negative => exact neg_mul m n
  | positive => rfl

private theorem apply_zero (s : Sign) : s.apply ((0 : Nat) : Int) = 0 := by
  cases s <;> rfl

/-- Both significands brought to the lower of two scales. -/
private theorem apply_shifted (s : Sign) {r a : Nat} (atMost : a ≤ scale r) :
    s.apply ((significand r <<< ((scale r : Int) - halvings - ((a : Int) - halvings)).toNat : Nat))
      * 2 ^ a = s.apply (units r) := by
  have amount : ((scale r : Int) - halvings - ((a : Int) - halvings)).toNat = scale r - a := by
    omega
  have whole : significand r * 2 ^ (scale r - a) * 2 ^ a = units r := by
    rw [mul_assoc, ← pow_add, Nat.sub_add_cancel atMost]
    rfl
  rw [amount, Nat.shiftLeft_eq, apply_mul, ← whole]
  push_cast
  rfl

private theorem add_unpacked (s t : Sign) {q r : Nat} (left : q < infinityRank)
    (right : r < infinityRank)
    (representable : Representable (s.apply (units q) + t.apply (units r))) :
    ∃ u p, p < infinityRank ∧ (unpacked s q).add .binary64 (unpacked t r) = unpacked u p ∧
      u.apply (units p) = s.apply (units q) + t.apply (units r) := by
  rcases Nat.eq_zero_or_pos q with rfl | leftPositive
  · rcases Nat.eq_zero_or_pos r with rfl | rightPositive
    · refine ⟨if s == t then s else .positive, 0, left, ?_, ?_⟩
      · cases s <;> cases t <;> rfl
      · cases s <;> cases t <;> rfl
    · refine ⟨t, r, right, ?_, ?_⟩
      · rw [unpacked_of_finite t rightPositive right]
        rfl
      · rw [units_zero, apply_zero, zero_add]
  · rcases Nat.eq_zero_or_pos r with rfl | rightPositive
    · refine ⟨s, q, left, ?_, ?_⟩
      · rw [unpacked_of_finite s leftPositive left]
        rfl
      · rw [units_zero, apply_zero, add_zero]
    · obtain ⟨p, finite, size⟩ := representable
      obtain ⟨a, lower⟩ : ∃ a, a = min (scale q) (scale r) := ⟨_, rfl⟩
      have exponent : min ((scale q : Int) - halvings) ((scale r : Int) - halvings) =
          (a : Int) - halvings := by omega
      rw [unpacked_of_finite s leftPositive left, unpacked_of_finite t rightPositive right]
      simp only [UnpackedFloat.add, exponent, decreaseExponent]
      obtain ⟨n, total⟩ : ∃ n, n = s.apply
          ((significand q <<< ((scale q : Int) - halvings - ((a : Int) - halvings)).toNat : Nat)) +
            t.apply ((significand r <<<
              ((scale r : Int) - halvings - ((a : Int) - halvings)).toNat : Nat)) := ⟨_, rfl⟩
      have exact : n * 2 ^ a = s.apply (units q) + t.apply (units r) := by
        rw [total, add_mul, apply_shifted s (by omega), apply_shifted t (by omega)]
      have power : 0 < (2 : Int) ^ a := by positivity
      refine ⟨sumSign n, p, finite, ?_, ?_⟩
      · rw [← total]
        apply normalize_exact finite
        rw [size, ← exact, Int.natAbs_mul, Int.natAbs_pow]
        rfl
      · rw [size, ← exact]
        exact apply_natAbs_of_sumSign _ _ (by rw [mul_neg_iff]; omega)

/-- A sum is what the unpacked numbers add up to. -/
theorem add_eq_pack (x y : Float) :
    x + y = Float.ofModel (Float.Model.pack
      (UnpackedFloat.add .binary64 (unpacked (sign x) (rank x)) (unpacked (sign y) (rank y)))) := by
  rw [← unpack_toModel, ← unpack_toModel]
  rfl

theorem value_add {x y : Float} (left : IsFinite x) (right : IsFinite y)
    (representable : Representable (value x + value y)) :
    IsFinite (x + y) ∧ value (x + y) = value x + value y := by
  obtain ⟨s, r, finite, sum, exact⟩ := add_unpacked (sign x) (sign y) left right representable
  have parts : x + y = ofParts s r := by
    rw [add_eq_pack, sum]
    rfl
  rw [parts, value_ofParts s (Nat.le_of_lt finite)]
  exact ⟨isFinite_ofParts s finite, exact⟩

/-- Zero is neutral for whatever is not a zero itself, NaN and the infinities included. -/
theorem zero_add_of_rank_pos {x : Float} (positive : 0 < rank x) : 0.0 + x = x := by
  rcases Nat.lt_trichotomy (rank x) infinityRank with finite | infinite | nan
  · have nonzero : value x ≠ 0 := mt value_eq_zero.mp (Nat.ne_of_gt positive)
    have sum := value_add isFinite_zero finite
      (by rw [value_zero, zero_add]; exact representable_value finite)
    rw [value_zero, zero_add] at sum
    exact (eq_of_value sum.2.symm nonzero).symm
  · rw [← ofParts_sign_rank x, infinite]
    cases sign x with
    | positive => decide
    | negative => decide
  · rw [← ofParts_sign_rank x, ofParts, unpacked_of_nan _ nan]
    decide

/-! ## Products -/

private theorem mul_apply (s t : Sign) (m n : Int) :
    s.apply m * t.apply n = (s * t).apply (m * n) := by
  cases s <;> cases t
  · exact neg_mul_neg m n
  · exact neg_mul m n
  · exact mul_neg m n
  · rfl

/-- The product of two significands is never so short that rounding would have to lengthen it. -/
private theorem scales_le {p q r : Nat} (leftPositive : 0 < q) (rightPositive : 0 < r)
    (exact : significand q * significand r * 2 ^ (scale q + scale r) =
      significand p * 2 ^ (scale p + halvings)) : scale q + scale r ≤ scale p + halvings := by
  by_contra above
  obtain ⟨k, split⟩ : ∃ k, scale q + scale r = scale p + halvings + (k + 1) :=
    ⟨scale q + scale r - (scale p + halvings) - 1, by omega⟩
  have long : significand p = significand q * significand r * 2 ^ (k + 1) := by
    rw [split, pow_add _ (scale p + halvings), ← mul_assoc, mul_right_comm] at exact
    exact (Nat.eq_of_mul_eq_mul_right (Nat.two_pow_pos _) exact).symm
  have leftNonzero := significand_pos leftPositive
  have rightNonzero := significand_pos rightPositive
  have wide : binade ≤ significand q * significand r := by
    rcases Nat.eq_zero_or_pos (scale q) with zero | positive
    · exact le_trans (binade_le_significand (by omega)) (Nat.le_mul_of_pos_left _ leftNonzero)
    · exact le_trans (binade_le_significand positive) (Nat.le_mul_of_pos_right _ rightNonzero)
  have bound := significand_lt p
  have doubled : significand q * significand r * 2 ≤ significand p := by
    rw [long, pow_succ]
    exact Nat.mul_le_mul_left _ (Nat.le_mul_of_pos_left _ (Nat.two_pow_pos k))
  omega

/-- Two significands multiply to a third one, doubled as often as the scales leave over. -/
private theorem exists_doublings {p q r : Nat} (leftPositive : 0 < q) (rightPositive : 0 < r)
    (magnitudes : units q * units r = units p * unitsPerOne) :
    ∃ k : Nat, significand q * significand r = significand p * 2 ^ k ∧
      (scale q : Int) - halvings + (scale r - halvings) = scale p - halvings - k := by
  have exact : significand q * significand r * 2 ^ (scale q + scale r) =
      significand p * 2 ^ (scale p + halvings) := by
    change significand q * 2 ^ scale q * (significand r * 2 ^ scale r) =
      significand p * 2 ^ scale p * 2 ^ halvings at magnitudes
    rw [pow_add, pow_add, ← mul_assoc (significand p), ← magnitudes]
    ring
  obtain ⟨k, split⟩ : ∃ k, scale p + halvings = scale q + scale r + k :=
    ⟨_, (Nat.add_sub_of_le (scales_le leftPositive rightPositive exact)).symm⟩
  refine ⟨k, ?_, by omega⟩
  rw [split, pow_add _ (scale q + scale r), mul_left_comm, mul_comm] at exact
  exact Nat.eq_of_mul_eq_mul_left (Nat.two_pow_pos _) exact

private theorem mul_unpacked_of_pos (s t : Sign) {p q r : Nat} (leftPositive : 0 < q)
    (rightPositive : 0 < r) (left : q < infinityRank) (right : r < infinityRank)
    (finite : p < infinityRank) (magnitudes : units q * units r = units p * unitsPerOne) :
    (unpacked s q).mul .binary64 (unpacked t r) = unpacked (s * t) p := by
  have positive : 0 < p := by
    rw [← units_lt_units_iff, units_zero]
    have nonzero : 0 < units p * unitsPerOne := by
      rw [← magnitudes]
      exact Nat.mul_pos (units_pos leftPositive) (units_pos rightPositive)
    exact Nat.pos_of_mul_pos_right nonzero
  obtain ⟨k, whole, exponent⟩ := exists_doublings leftPositive rightPositive magnitudes
  rw [unpacked_of_finite s leftPositive left, unpacked_of_finite t rightPositive right]
  change roundWithAccuracy .binary64 (s * t) (significand q * significand r)
    ((scale q : Int) - halvings + (scale r - halvings)) .exact = _
  rw [whole, exponent]
  exact roundWithAccuracy_exact (s * t) positive finite k

private theorem mul_unpacked (s t : Sign) {q r : Nat} {n : Int} (left : q < infinityRank)
    (right : r < infinityRank)
    (product : s.apply (units q) * t.apply (units r) = n * unitsPerOne)
    (representable : Representable n) :
    ∃ u p, p < infinityRank ∧ (unpacked s q).mul .binary64 (unpacked t r) = unpacked u p ∧
      u.apply (units p) = n := by
  have one : (unitsPerOne : Int) ≠ 0 := by
    have := unitsPerOne_pos
    omega
  rcases Nat.eq_zero_or_pos q with rfl | leftPositive
  · have zero : n = 0 := by
      rw [units_zero, apply_zero, zero_mul] at product
      exact (mul_eq_zero.mp product.symm).resolve_right one
    refine ⟨s * t, 0, left, ?_, by rw [zero, units_zero, apply_zero]⟩
    rcases Nat.eq_zero_or_pos r with rfl | rightPositive
    · rfl
    · rw [unpacked_of_finite t rightPositive right]
      rfl
  · rcases Nat.eq_zero_or_pos r with rfl | rightPositive
    · have zero : n = 0 := by
        rw [units_zero, apply_zero, mul_zero] at product
        exact (mul_eq_zero.mp product.symm).resolve_right one
      refine ⟨s * t, 0, right, ?_, by rw [zero, units_zero, apply_zero]⟩
      rw [unpacked_of_finite s leftPositive left]
      rfl
    · obtain ⟨p, finite, size⟩ := representable
      rw [mul_apply] at product
      have magnitudes : units q * units r = units p * unitsPerOne := by
        have sizes := congrArg Int.natAbs product
        rw [natAbs_apply, Int.natAbs_mul, Int.natAbs_mul, ← size] at sizes
        exact sizes
      refine ⟨s * t, p, finite,
        mul_unpacked_of_pos s t leftPositive rightPositive left right finite magnitudes, ?_⟩
      have scaled : (s * t).apply (units p) * unitsPerOne = n * unitsPerOne := by
        rw [apply_mul, ← product]
        congr 1
        exact_mod_cast magnitudes.symm
      exact mul_right_cancel₀ one scaled

/-- A product is what the unpacked numbers multiply to. -/
theorem mul_eq_pack (x y : Float) :
    x * y = Float.ofModel (Float.Model.pack
      (UnpackedFloat.mul .binary64 (unpacked (sign x) (rank x)) (unpacked (sign y) (rank y)))) := by
  rw [← unpack_toModel, ← unpack_toModel]
  rfl

theorem value_mul {x y : Float} {n : Int} (left : IsFinite x) (right : IsFinite y)
    (product : value x * value y = n * unitsPerOne) (representable : Representable n) :
    IsFinite (x * y) ∧ value (x * y) = n := by
  obtain ⟨s, r, finite, exact, size⟩ := mul_unpacked (sign x) (sign y) left right product
    representable
  have parts : x * y = ofParts s r := by
    rw [mul_eq_pack, exact]
    rfl
  rw [parts, value_ofParts s (Nat.le_of_lt finite)]
  exact ⟨isFinite_ofParts s finite, size⟩

end SparsePolynomial.Binary64
