import SparsePolynomial.Proofs.Binary64.Exact

/-!
Contract: how sums and differences behave under exchange and negation, rounding included.

Owns:
- `sub_eq_sum_neg` and `sum_comm`: a difference is the sum with the negation, and the order of the
  two numbers of a sum does not matter;
- `sum_neg_neg`: negating both numbers negates their sum. A sum of zero is left out, since its sign
  is chosen anew; `rank_sum_neg_neg` holds for it too;
- `negligible_sub_self_iff`: a number less itself counts as zero exactly if it is finite.

All of them hold for NaN and the infinities as well: rounding looks at magnitudes alone.
-/

set_option autoImplicit false

namespace SparsePolynomial.Binary64

open Float.Model (UnpackedFloat)
open Float.Model.UnpackedFloat (Sign Accuracy)

/-! ## Unpacked numbers -/

private theorem apply_neg_sign (s : Sign) (n : Int) : (-s).apply n = -s.apply n := by
  cases s with
  | negative => exact (Int.neg_neg n).symm
  | positive => rfl

private theorem sub_unpacked (u v : UnpackedFloat) :
    u.sub .binary64 v = u.add .binary64 v.neg := by
  cases u <;> cases v
  case finite.finite s m e positive t n f positive' =>
    simp only [UnpackedFloat.sub, UnpackedFloat.add, UnpackedFloat.neg, apply_neg_sign,
      Int.sub_eq_add_neg]
  all_goals rfl

private theorem add_unpacked_comm (u v : UnpackedFloat) :
    u.add .binary64 v = v.add .binary64 u := by
  cases u <;> cases v
  case finite.finite s m e positive t n f positive' =>
    simp only [UnpackedFloat.add, Int.min_comm e f, Int.add_comm]
  case infinity.infinity s t => cases s <;> cases t <;> rfl
  case zero.zero s t => cases s <;> cases t <;> rfl
  all_goals rfl

/-- Rounding looks at the magnitude alone. -/
theorem neg_roundWithAccuracy (s : Sign) (m : Nat) (e : Int) (accuracy : Accuracy) :
    (UnpackedFloat.roundWithAccuracy .binary64 s m e accuracy).neg =
      .roundWithAccuracy .binary64 (-s) m e accuracy := by
  unfold UnpackedFloat.roundWithAccuracy
  dsimp only
  split <;> rfl

private theorem neg_round (s : Sign) (m : Nat) (e : Int) :
    (UnpackedFloat.round .binary64 s m e).neg = .round .binary64 (-s) m e :=
  neg_roundWithAccuracy s _ _ .exact

private theorem neg_normalize {n : Int} (nonzero : n ≠ 0) (e : Int) :
    (UnpackedFloat.normalize .binary64 n e .positive).neg =
      UnpackedFloat.normalize .binary64 (-n) e .positive := by
  rcases Int.lt_or_gt_of_ne nonzero with negative | positive
  · have flipped : 0 < -n := Int.neg_pos_of_neg negative
    simp only [UnpackedFloat.normalize, Int.compare_eq_lt.mpr negative,
      Int.compare_eq_gt.mpr flipped, neg_round]
    rfl
  · have flipped : -n < 0 := Int.neg_neg_of_pos positive
    simp only [UnpackedFloat.normalize, Int.compare_eq_gt.mpr positive,
      Int.compare_eq_lt.mpr flipped, neg_round, Int.neg_neg]
    rfl

/-- Only where the sum is zero does its sign not follow. -/
private theorem add_unpacked_neg (u v : UnpackedFloat) :
    u.neg.add .binary64 v.neg = (u.add .binary64 v).neg ∨
      (∃ s, u.add .binary64 v = .zero s) ∧ ∃ s, u.neg.add .binary64 v.neg = .zero s := by
  cases u <;> cases v
  case finite.finite s m e positive t n f positive' =>
    simp only [UnpackedFloat.add, UnpackedFloat.neg, apply_neg_sign, ← Int.neg_add]
    generalize s.apply _ + t.apply _ = total
    by_cases zero : total = 0
    · exact .inr ⟨⟨.positive, by rw [zero]; rfl⟩, .positive, by rw [zero]; rfl⟩
    · exact .inl (neg_normalize zero _).symm
  case infinity.infinity s t => exact .inl (by cases s <;> cases t <;> rfl)
  case zero.zero s t =>
    exact .inr ⟨⟨if s == t then s else .positive, by cases s <;> cases t <;> rfl⟩,
      if -s == -t then -s else .positive, by cases s <;> cases t <;> rfl⟩
  all_goals exact .inl rfl

/-! ## Numbers -/

theorem sign_neg {x : Float} (ordered : rank x ≤ infinityRank) : sign (-x) = -sign x := by
  rw [neg_eq_ofParts, sign_ofParts _ ordered]

/-- A negated number unpacks to the negation, NaN to itself. -/
theorem unpacked_neg (x : Float) :
    unpacked (sign (-x)) (rank (-x)) = (unpacked (sign x) (rank x)).neg := by
  rw [neg_unpacked, rank_neg]
  rcases Nat.lt_or_ge infinityRank (rank x) with nan | ordered
  · rw [unpacked_of_nan _ nan, unpacked_of_nan _ nan]
  · rw [sign_neg ordered]

theorem neg_twice (x : Float) : - -x = x := by
  rcases Nat.lt_or_ge infinityRank (rank x) with nan | ordered
  · rw [neg_of_nan nan, neg_of_nan nan]
  · have signs : - -sign x = sign x := by cases sign x <;> rfl
    rw [neg_eq_ofParts, sign_neg ordered, rank_neg, signs, ofParts_sign_rank]

theorem sum_comm (x y : Float) : x + y = y + x := by
  rw [add_eq_pack, add_eq_pack, add_unpacked_comm]

theorem sub_eq_sum_neg (x y : Float) : x - y = x + -y := by
  rw [add_eq_pack, unpacked_neg, ← sub_unpacked, ← unpack_toModel, ← unpack_toModel]
  rfl

private theorem rank_pack_zero (s : Sign) :
    rank (Float.ofModel (Float.Model.pack (.zero s))) = 0 := by
  cases s <;> decide

/-- Negating both numbers negates a sum that is not zero. -/
theorem sum_neg_neg {x y : Float} (nonzero : 0 < rank (x + y)) : -x + -y = -(x + y) := by
  rw [add_eq_pack] at nonzero
  rw [add_eq_pack, add_eq_pack, unpacked_neg, unpacked_neg, neg_pack]
  rcases add_unpacked_neg (unpacked (sign x) (rank x)) (unpacked (sign y) (rank y)) with
    flipped | ⟨⟨s, zero⟩, _⟩
  · rw [flipped]
  · rw [zero, rank_pack_zero] at nonzero
    exact absurd nonzero (Nat.lt_irrefl 0)

theorem rank_sum_neg_neg (x y : Float) : rank (-x + -y) = rank (x + y) := by
  rcases Nat.eq_zero_or_pos (rank (x + y)) with zero | positive
  · rcases Nat.eq_zero_or_pos (rank (-x + -y)) with flippedZero | flippedPositive
    · rw [zero, flippedZero]
    · have twice := sum_neg_neg flippedPositive
      rw [neg_twice, neg_twice] at twice
      rw [twice, rank_neg]
  · rw [sum_neg_neg positive, rank_neg]

/-! ## A number less itself -/

theorem rank_sub_self {x : Float} (finite : IsFinite x) : rank (x - x) = 0 := by
  have cancel : value x + value (-x) = 0 := by
    rw [value_neg finite, Int.add_right_neg]
  have representable : Representable (value x + value (-x)) := by
    rw [cancel]
    exact ⟨0, by decide, units_zero⟩
  have sum := (value_add finite (isFinite_neg.mpr finite) representable).2
  rw [sub_eq_sum_neg, ← value_eq_zero, sum, cancel]

theorem isNaN_sub_self {x : Float} (notFinite : ¬ IsFinite x) : IsNaN (x - x) := by
  have undefined : (unpacked (sign x) (rank x)).add .binary64 (unpacked (sign x) (rank x)).neg =
      .notANumber := by
    rcases Nat.eq_or_lt_of_le (Nat.le_of_not_lt notFinite) with infinite | nan
    · rw [← infinite, unpacked_infinityRank]
      cases sign x <;> rfl
    · rw [unpacked_of_nan _ nan]
      rfl
  rw [sub_eq_sum_neg, add_eq_pack, unpacked_neg, undefined]
  decide

/-- A number less itself counts as zero exactly if the number is finite. -/
theorem negligible_sub_self_iff (x : Float) : Coefficient.Negligible (x - x) ↔ IsFinite x := by
  constructor
  · intro negligible
    by_contra notFinite
    have finite := isFinite_of_negligible negligible
    exact Nat.lt_asymm finite (isNaN_sub_self notFinite)
  · intro finite
    rw [negligible_iff, rank_sub_self finite]
    exact Nat.zero_le _

end SparsePolynomial.Binary64
