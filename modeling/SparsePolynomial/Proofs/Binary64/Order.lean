import SparsePolynomial.Coefficient
import SparsePolynomial.Proofs.Binary64.Parts

/-!
Contract: comparisons of binary64 numbers as comparisons of ranks.

Owns:
- that ranks order magnitudes: `units_lt_units`;
- `negligible_iff`: a coefficient counts as zero when its rank is at most that of the tolerance, so
  neither the sign nor NaN needs a case of its own later on;
- `zero_lt_iff`, the test that decides whether a `+` is written.
-/

set_option autoImplicit false

namespace SparsePolynomial.Binary64

open Float.Model (UnpackedFloat)
open Float.Model.UnpackedFloat (Sign)

/-! ## Ranks order magnitudes -/

/-- A rank counts the numbers below it: whole binades first, then places within one. -/
theorem scale_mul_binade_add_significand (r : Nat) : scale r * binade + significand r = r := by
  have parts : binade * (r / binade) + r % binade = r := Nat.div_add_mod r binade
  unfold scale significand
  rcases Nat.lt_or_ge r binade with subnormal | normal
  · rw [if_pos subnormal, Nat.div_eq_of_lt subnormal]
    omega
  · rw [if_neg (Nat.not_lt.mpr normal)]
    have atLeastOne : 1 ≤ r / binade := (Nat.one_le_div_iff (by decide)).mpr normal
    have split : (r / binade - 1) * binade + binade = binade * (r / binade) := by
      rw [← Nat.succ_mul, Nat.succ_eq_add_one, Nat.sub_add_cancel atLeastOne, Nat.mul_comm]
    omega

theorem binade_le_significand {r : Nat} (positive : 0 < scale r) : binade ≤ significand r := by
  unfold significand
  split
  · rename_i subnormal
    simp [scale, Nat.div_eq_of_lt subnormal] at positive
  · exact Nat.le_add_right _ _

theorem scale_mono {r s : Nat} (atMost : r ≤ s) : scale r ≤ scale s :=
  Nat.sub_le_sub_right (Nat.div_le_div_right atMost) 1

theorem units_lt_units {r s : Nat} (less : r < s) : units r < units s := by
  have left := scale_mul_binade_add_significand r
  have right := scale_mul_binade_add_significand s
  unfold units
  rcases Nat.eq_or_lt_of_le (scale_mono (Nat.le_of_lt less)) with same | higher
  · rw [← same] at right ⊢
    exact Nat.mul_lt_mul_of_pos_right (by omega) (Nat.two_pow_pos _)
  · have wide : binade ≤ significand s := binade_le_significand (by omega)
    have doubled : Nat.pow 2 (scale r) * 2 ≤ Nat.pow 2 (scale s) :=
      Nat.pow_le_pow_right Nat.two_pos higher
    calc
      significand r * Nat.pow 2 (scale r) < 2 * binade * Nat.pow 2 (scale r) :=
        Nat.mul_lt_mul_of_pos_right (significand_lt r) (Nat.two_pow_pos _)
      _ = binade * (Nat.pow 2 (scale r) * 2) := by
        rw [Nat.mul_comm 2 binade, Nat.mul_assoc, Nat.mul_comm 2]
      _ ≤ binade * Nat.pow 2 (scale s) := Nat.mul_le_mul_left _ doubled
      _ ≤ significand s * Nat.pow 2 (scale s) := Nat.mul_le_mul_right _ wide

theorem units_inj {r s : Nat} : units r = units s ↔ r = s := by
  constructor
  · intro same
    rcases Nat.lt_trichotomy r s with less | equal | greater
    · exact absurd same (Nat.ne_of_lt (units_lt_units less))
    · exact equal
    · exact absurd same.symm (Nat.ne_of_lt (units_lt_units greater))
  · exact congrArg units

theorem units_lt_units_iff {r s : Nat} : units r < units s ↔ r < s := by
  constructor
  · intro less
    rcases Nat.lt_trichotomy r s with below | equal | above
    · exact below
    · rw [equal] at less
      exact absurd less (Nat.lt_irrefl _)
    · exact absurd (units_lt_units above) (Nat.lt_asymm less)
  · exact units_lt_units

theorem units_of_lt {m : Nat} (short : m < 2 * binade) : units m = m := by
  have total := scale_mul_binade_add_significand m
  have lowest : scale m = 0 := by
    have quotient : m / binade < 2 := Nat.div_lt_of_lt_mul (by rw [Nat.mul_comm]; exact short)
    rw [scale]
    omega
  rw [lowest, Nat.zero_mul, Nat.zero_add] at total
  rw [units, lowest, total]
  exact Nat.mul_one m

theorem units_of_binade_le {m b : Nat} (low : binade ≤ m) (short : m < 2 * binade) :
    units (b * binade + m) = m * 2 ^ b := by
  have quotient : (b * binade + m) / binade = b + 1 := by
    apply Nat.div_eq_of_lt_le
    · rw [Nat.succ_mul]
      omega
    · rw [Nat.succ_mul, Nat.succ_mul]
      omega
  have total := scale_mul_binade_add_significand (b * binade + m)
  have height : scale (b * binade + m) = b := by
    rw [scale, quotient]
    rfl
  rw [height] at total
  rw [units, height, Nat.add_left_cancel total]
  rfl

/-! ## Comparison -/

private theorem compare_finite (r s : Nat) :
    (compare ((scale r : Int) - halvings) (scale s - halvings)).then
      (compare (significand r) (significand s)) = compare r s := by
  have left := scale_mul_binade_add_significand r
  have right := scale_mul_binade_add_significand s
  rcases Nat.lt_trichotomy (scale r) (scale s) with lower | same | higher
  · have less : r < s := by
      rcases Nat.lt_or_ge r s with less | atLeast
      · exact less
      · exact absurd (scale_mono atLeast) (by omega)
    rw [Int.compare_eq_lt.mpr (by omega), Nat.compare_eq_lt.mpr less]
    rfl
  · rw [Int.compare_eq_eq.mpr (by omega)]
    rw [same] at left
    change compare (significand r) (significand s) = compare r s
    rcases Nat.lt_trichotomy r s with less | equal | greater
    · rw [Nat.compare_eq_lt.mpr less, Nat.compare_eq_lt.mpr (by omega)]
    · rw [Nat.compare_eq_eq.mpr equal, Nat.compare_eq_eq.mpr (by omega)]
    · rw [Nat.compare_eq_gt.mpr greater, Nat.compare_eq_gt.mpr (by omega)]
  · have greater : s < r := by
      rcases Nat.lt_or_ge s r with greater | atLeast
      · exact greater
      · exact absurd (scale_mono atLeast) (by omega)
    rw [Int.compare_eq_gt.mpr (by omega), Nat.compare_eq_gt.mpr greater]
    rfl

/-- Magnitudes compare as their ranks do; nothing compares with NaN. -/
private theorem compare_unpacked_positive {r s : Nat} (left : r ≤ infinityRank)
    (right : s ≤ infinityRank) :
    (unpacked .positive r).compare (unpacked .positive s) = some (compare r s) := by
  rcases Nat.eq_or_lt_of_le left with rfl | leftFinite
  · rcases Nat.eq_or_lt_of_le right with rfl | rightFinite
    · rw [Nat.compare_eq_eq.mpr rfl]
      rfl
    · rw [Nat.compare_eq_gt.mpr rightFinite, unpacked_infinityRank]
      rcases Nat.eq_zero_or_pos s with rfl | positive
      · rfl
      · rw [unpacked_of_finite _ positive rightFinite]
        rfl
  · rcases Nat.eq_or_lt_of_le right with rfl | rightFinite
    · rw [Nat.compare_eq_lt.mpr leftFinite, unpacked_infinityRank]
      rcases Nat.eq_zero_or_pos r with rfl | positive
      · rfl
      · rw [unpacked_of_finite _ positive leftFinite]
        rfl
    · rcases Nat.eq_zero_or_pos r with rfl | leftPositive <;>
        rcases Nat.eq_zero_or_pos s with rfl | rightPositive
      · rfl
      · rw [unpacked_of_finite _ rightPositive rightFinite, Nat.compare_eq_lt.mpr rightPositive]
        rfl
      · rw [unpacked_of_finite _ leftPositive leftFinite, Nat.compare_eq_gt.mpr leftPositive]
        rfl
      · rw [unpacked_of_finite _ leftPositive leftFinite,
          unpacked_of_finite _ rightPositive rightFinite, ← compare_finite]
        rfl

private theorem compare_unpacked_nan {s : Sign} {r : Nat} (nan : infinityRank < r)
    (other : UnpackedFloat) : (unpacked s r).compare other = none := by
  rw [unpacked_of_nan s nan]
  rfl

private theorem le_iff (x y : Float) : x ≤ y ↔ x.toModel.unpack.le y.toModel.unpack = true :=
  decide_eq_true_iff

private theorem lt_iff (x y : Float) : x < y ↔ x.toModel.unpack.lt y.toModel.unpack = true :=
  decide_eq_true_iff

private theorem unpack_ofParts (s : Sign) {r : Nat} (atMost : r ≤ infinityRank) :
    (ofParts s r).toModel.unpack = unpacked s r := by
  rw [unpack_toModel, sign_ofParts s atMost, rank_ofParts s atMost]

/-- Rank of the tolerance. -/
def toleranceRank : Nat := rank Coefficient.tolerance

theorem toleranceRank_eq : toleranceRank = 4532020583610935537 := by decide

private theorem tolerance_eq_ofParts : Coefficient.tolerance = ofParts .positive toleranceRank := by
  decide +kernel

theorem negligible_iff (c : Float) : Coefficient.Negligible c ↔ rank c ≤ toleranceRank := by
  have toleranceFinite : toleranceRank ≤ infinityRank := by
    rw [toleranceRank_eq, infinityRank_eq]
    decide
  have toleranceUnpacked :
      Coefficient.tolerance.toModel.unpack = unpacked .positive toleranceRank := by
    rw [tolerance_eq_ofParts, unpack_ofParts _ toleranceFinite]
  have magnitude : c.abs.toModel.unpack = unpacked (sign c.abs) (rank c) := by
    rw [unpack_toModel, rank_abs]
  rw [Coefficient.Negligible, le_iff, UnpackedFloat.le, magnitude, toleranceUnpacked]
  rcases Nat.lt_or_ge infinityRank (rank c) with nan | atMost
  · rw [compare_unpacked_nan nan]
    constructor
    · intro less
      cases less
    · intro small
      omega
  · rw [abs_eq_ofParts, sign_ofParts _ atMost, compare_unpacked_positive atMost toleranceFinite]
    change (compare (rank c) toleranceRank).isLE = true ↔ _
    exact Nat.isLE_compare

theorem isFinite_of_negligible {c : Float} (negligible : Coefficient.Negligible c) :
    IsFinite c := by
  have small := (negligible_iff c).mp negligible
  have large : toleranceRank < infinityRank := by decide
  exact Nat.lt_of_le_of_lt small large

theorem zero_lt_iff (c : Float) :
    0.0 < c ↔ sign c = .positive ∧ 0 < rank c ∧ rank c ≤ infinityRank := by
  have zero : (0.0 : Float).toModel.unpack = .zero .positive := by
    rw [zero_eq_ofParts, unpack_ofParts _ (Nat.zero_le _)]
    rfl
  rw [lt_iff, UnpackedFloat.lt, zero, unpack_toModel]
  rcases Nat.lt_or_ge infinityRank (rank c) with nan | atMost
  · rw [unpacked_of_nan _ nan]
    constructor
    · intro less
      cases less
    · intro ordered
      omega
  · rcases Nat.eq_or_lt_of_le atMost with infinite | finite
    · rw [infinite, unpacked_infinityRank]
      cases sign c <;> simp [UnpackedFloat.compare, infinityRank_eq]
    · rcases Nat.eq_zero_or_pos (rank c) with none | positive
      · rw [none, unpacked_zero]
        simp [UnpackedFloat.compare]
      · rw [unpacked_of_finite _ positive finite]
        cases sign c <;> simp [UnpackedFloat.compare, positive, atMost]

end SparsePolynomial.Binary64
