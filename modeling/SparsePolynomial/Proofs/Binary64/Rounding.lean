import SparsePolynomial.Binary64.Nearest
import SparsePolynomial.Proofs.Binary64.Order

/-!
Contract: which binary64 magnitude a quotient is rounded to.

Owns:
- `IsNearest`, the rule: no magnitude is closer to the quotient, and of two equally close ones the
  even one is taken;
- `isNearest_iff`: `nearest` follows the rule, and nothing else does.

Infinity takes part with the size that would follow the largest finite magnitude, so a quotient is
rounded to it from halfway between the two on.
-/

set_option autoImplicit false

namespace SparsePolynomial.Binary64

/-- How far a rank is from a quotient, as a multiple of the least positive number divided by the
denominator. -/
def distance (numerator denominator r : Nat) : Nat :=
  Nat.dist (units r * denominator) (numerator * unitsPerOne)

/-- The rank that a quotient is rounded to. -/
structure IsNearest (numerator denominator r : Nat) : Prop where
  atMost : r ≤ infinityRank
  closest : ∀ s ≤ infinityRank, distance numerator denominator r ≤ distance numerator denominator s
  even : ∀ s ≤ infinityRank, s ≠ r →
    distance numerator denominator s = distance numerator denominator r → r % 2 = 0

/-! ## Neighbours -/

/-- From one rank to the next the size grows by one unit of the scale. -/
theorem units_succ (r : Nat) : units (r + 1) = units r + 2 ^ scale r := by
  have here := scale_mul_binade_add_significand r
  have next := scale_mul_binade_add_significand (r + 1)
  have short := significand_lt r
  have step : scale (r + 1) = scale r ∨ scale (r + 1) = scale r + 1 := by
    have higher : (r + 1) / binade = r / binade ∨ (r + 1) / binade = r / binade + 1 := by
      rw [binade_eq]
      omega
    unfold scale
    omega
  rcases step with same | higher
  · have grown : significand (r + 1) = significand r + 1 := by
      rw [same] at next
      omega
    unfold units
    rw [same, grown, Nat.succ_mul]
    rfl
  · have low : binade ≤ significand (r + 1) := binade_le_significand (by omega)
    have split : scale (r + 1) * binade = scale r * binade + binade := by
      rw [higher, Nat.succ_mul]
    have first : significand (r + 1) = binade := by omega
    have last : significand r + 1 = 2 * binade := by omega
    calc
      units (r + 1) = binade * 2 ^ (scale r + 1) := by rw [units, first, higher]; rfl
      _ = (significand r + 1) * 2 ^ scale r := by rw [last, pow_succ]; ring
      _ = units r + 2 ^ scale r := by rw [Nat.succ_mul]; rfl

theorem units_mono {r s : Nat} (atMost : r ≤ s) : units r ≤ units s := by
  rcases Nat.eq_or_lt_of_le atMost with rfl | less
  · exact Nat.le_refl _
  · exact Nat.le_of_lt (units_lt_units less)

/-- The size of a significand whose unit has been doubled. -/
theorem units_doublings {m doublings : Nat} (atMost : m ≤ 2 * binade)
    (full : doublings = 0 ∨ binade ≤ m) : units (doublings * binade + m) = m * 2 ^ doublings := by
  rcases Nat.eq_or_lt_of_le atMost with largest | short
  · have carried : doublings * binade + 2 * binade = (doublings + 1) * binade + binade := by ring
    rw [largest, carried, units_of_binade_le (Nat.le_refl _) (by decide), pow_succ]
    ring
  · rcases full with none | low
    · rw [none, Nat.zero_mul, Nat.zero_add, units_of_lt short, pow_zero, mul_one]
    · exact units_of_binade_le low short

theorem doublings_le_scale {m doublings : Nat} (full : doublings = 0 ∨ binade ≤ m) :
    doublings ≤ scale (doublings * binade + m) := by
  rcases full with none | low
  · rw [none]
    exact Nat.zero_le _
  · have quotient : doublings + 1 ≤ (doublings * binade + m) / binade := by
      apply (Nat.le_div_iff_mul_le (by decide)).mpr
      rw [Nat.succ_mul]
      omega
    unfold scale
    omega

/-- Above a significand the sizes are at least one doubled unit apart. -/
theorem units_add_le {m doublings s : Nat} (full : doublings = 0 ∨ binade ≤ m)
    (less : doublings * binade + m < s) :
    units (doublings * binade + m) + 2 ^ doublings ≤ units s := by
  calc
    units (doublings * binade + m) + 2 ^ doublings ≤
        units (doublings * binade + m) + 2 ^ scale (doublings * binade + m) :=
      Nat.add_le_add_left (Nat.pow_le_pow_right Nat.two_pos (doublings_le_scale full)) _
    _ = units (doublings * binade + m + 1) := (units_succ _).symm
    _ ≤ units s := units_mono less

/-! ## Middles -/

theorem dist_of_middle_le {low high v : Nat} (less : low < high) (middle : low + high ≤ 2 * v) :
    Nat.dist high v ≤ Nat.dist low v ∧
      (Nat.dist low v = Nat.dist high v → low + high = 2 * v) := by
  unfold Nat.dist
  omega

theorem dist_of_le_middle {low high v : Nat} (less : low < high) (middle : 2 * v ≤ low + high) :
    Nat.dist low v ≤ Nat.dist high v ∧
      (Nat.dist high v = Nat.dist low v → 2 * v = low + high) := by
  unfold Nat.dist
  omega

theorem dist_lt_of_between {low between high v : Nat} (above : low < between)
    (below : between < high) (equal : Nat.dist low v = Nat.dist high v) :
    Nat.dist between v < Nat.dist low v := by
  unfold Nat.dist at equal ⊢
  omega

/-! ## Rounding to an integer -/

/-- A multiple of the unit is at most half a unit away, and exactly half a unit only if it is even.
-/
structure WithinHalf (dividend unit m : Nat) : Prop where
  lower : 2 * (m * unit) ≤ 2 * dividend + unit
  upper : 2 * dividend ≤ 2 * (m * unit) + unit
  even : 2 * (m * unit) = 2 * dividend + unit ∨ 2 * dividend = 2 * (m * unit) + unit → m % 2 = 0

theorem withinHalf_roundDiv (dividend : Nat) {unit : Nat} (positive : 0 < unit) :
    WithinHalf dividend unit (roundDiv dividend unit) := by
  have parts : dividend / unit * unit + dividend % unit = dividend := Nat.div_add_mod' dividend unit
  have below := Nat.mod_lt dividend positive
  have next : (dividend / unit + 1) * unit = dividend / unit * unit + unit := Nat.succ_mul _ _
  unfold roundDiv
  dsimp only
  split
  · constructor <;> omega
  · constructor <;> omega

/-! ## The nearest rank -/

/-- A significand and its doublings before they are cut off at infinity. -/
structure Found (numerator denominator doublings m : Nat) : Prop where
  atMost : m ≤ 2 * binade
  full : doublings = 0 ∨ binade ≤ m
  /-- Below the least full significand the sizes are closer together, but the quotient is not. -/
  least : doublings = 0 ∨ binade * (denominator * 2 ^ doublings) ≤ numerator * unitsPerOne
  near : WithinHalf (numerator * unitsPerOne) (denominator * 2 ^ doublings) m

section

variable {numerator denominator doublings m : Nat}

theorem exists_found (numerator : Nat) (positive : 0 < denominator) :
    ∃ doublings m, Found numerator denominator doublings m ∧
      nearest numerator denominator = min infinityRank (doublings * binade + m) := by
  obtain ⟨dividend, isDividend⟩ : ∃ dividend, dividend = numerator * unitsPerOne := ⟨_, rfl⟩
  obtain ⟨quotient, isQuotient⟩ : ∃ quotient, quotient = dividend / denominator := ⟨_, rfl⟩
  obtain ⟨doublings, isDoublings⟩ : ∃ doublings, doublings = quotient.log2 - 52 := ⟨_, rfl⟩
  have power : 0 < 2 ^ doublings := Nat.two_pow_pos doublings
  have unit : 0 < denominator * 2 ^ doublings := Nat.mul_pos positive power
  have base : binade = 2 ^ 52 := rfl
  have whole : dividend / (denominator * 2 ^ doublings) = quotient / 2 ^ doublings := by
    rw [isQuotient, Nat.div_div_eq_div_mul]
  have high : quotient / 2 ^ doublings < 2 * binade := by
    have short : quotient < 2 ^ (doublings + 53) :=
      lt_of_lt_of_le Nat.lt_log2_self (Nat.pow_le_pow_right Nat.two_pos (by omega))
    rw [Nat.div_lt_iff_lt_mul power, base, ← pow_succ', ← pow_add, Nat.add_comm]
    exact short
  have low : doublings = 0 ∨ binade ≤ quotient / 2 ^ doublings := by
    rcases Nat.eq_zero_or_pos doublings with none | some
    · exact .inl none
    · right
      have nonzero : quotient ≠ 0 := by
        rintro rfl
        rw [Nat.log2_zero] at isDoublings
        omega
      rw [Nat.le_div_iff_mul_le power, base, ← pow_add]
      exact (Nat.le_log2 nonzero).mp (by omega)
  have next : quotient / 2 ^ doublings ≤ roundDiv dividend (denominator * 2 ^ doublings) ∧
      roundDiv dividend (denominator * 2 ^ doublings) ≤ quotient / 2 ^ doublings + 1 := by
    rw [← whole]
    unfold roundDiv
    dsimp only
    split <;> omega
  refine ⟨doublings, roundDiv dividend (denominator * 2 ^ doublings),
    ⟨by omega, by omega, ?_, isDividend ▸ withinHalf_roundDiv dividend unit⟩, ?_⟩
  · rcases low with none | low
    · exact .inl none
    · right
      rw [← isDividend]
      exact (Nat.le_div_iff_mul_le unit).mp (whole ▸ low)
  · rw [isDoublings, isQuotient, isDividend]
    rfl

theorem Found.size_eq (found : Found numerator denominator doublings m) :
    units (doublings * binade + m) * denominator = m * (denominator * 2 ^ doublings) := by
  rw [units_doublings found.atMost found.full]
  ring

/-- The quotient is not below the middle between a smaller rank and the one found. -/
theorem Found.of_lt (found : Found numerator denominator doublings m) (positive : 0 < denominator)
    {s : Nat} (less : s < doublings * binade + m) :
    units s * denominator + units (doublings * binade + m) * denominator ≤
        2 * (numerator * unitsPerOne) ∧
      (units s * denominator + units (doublings * binade + m) * denominator =
        2 * (numerator * unitsPerOne) → m % 2 = 0) := by
  have size := found.size_eq
  have near := found.near
  have belowFound : units s * denominator < units (doublings * binade + m) * denominator :=
    Nat.mul_lt_mul_of_pos_right (units_lt_units less) positive
  by_cases spaced : doublings = 0 ∨ binade < m
  · have nonzero : 0 < m := by
      rcases spaced with none | large
      · rw [none, Nat.zero_mul] at less
        omega
      · omega
    obtain ⟨previous, rfl⟩ : ∃ previous, m = previous + 1 := ⟨m - 1, by omega⟩
    have gap : units s + 2 ^ doublings ≤ units (doublings * binade + (previous + 1)) := by
      have atMost : units s ≤ units (doublings * binade + previous) := units_mono (by omega)
      have step := @units_add_le previous doublings (doublings * binade + (previous + 1))
        (by omega) (by omega)
      omega
    have scaled := Nat.mul_le_mul_right denominator gap
    rw [Nat.add_mul, Nat.mul_comm (2 ^ doublings)] at scaled
    obtain ⟨lower, -, even⟩ := near
    rw [size] at scaled ⊢
    constructor
    · omega
    · intro middle
      exact even (.inl (by omega))
  · have least := found.least
    have full := found.full
    have exact : m = binade := by omega
    rw [exact] at size belowFound ⊢
    rw [size] at belowFound ⊢
    omega

/-- The quotient is not above the middle between the rank found and a larger one. -/
theorem Found.of_gt (found : Found numerator denominator doublings m) {s : Nat}
    (greater : doublings * binade + m < s) :
    2 * (numerator * unitsPerOne) ≤
        units (doublings * binade + m) * denominator + units s * denominator ∧
      (2 * (numerator * unitsPerOne) =
        units (doublings * binade + m) * denominator + units s * denominator → m % 2 = 0) := by
  have size := found.size_eq
  obtain ⟨-, upper, even⟩ := found.near
  have scaled := Nat.mul_le_mul_right denominator (units_add_le found.full greater)
  rw [Nat.add_mul, Nat.mul_comm (2 ^ doublings)] at scaled
  rw [size] at scaled ⊢
  constructor
  · omega
  · intro middle
    exact even (.inr (by omega))

/-- The nearest rank follows the rule. -/
theorem isNearest_nearest (numerator : Nat) (positive : 0 < denominator) :
    IsNearest numerator denominator (nearest numerator denominator) := by
  obtain ⟨doublings, m, found, same⟩ := exists_found numerator positive
  rw [same]
  -- Whatever the other rank is, the quotient lies on this side of the middle or on it.
  have sides : ∀ s ≤ infinityRank, s ≠ min infinityRank (doublings * binade + m) →
      distance numerator denominator (min infinityRank (doublings * binade + m)) ≤
          distance numerator denominator s ∧
        (distance numerator denominator s =
          distance numerator denominator (min infinityRank (doublings * binade + m)) →
            min infinityRank (doublings * binade + m) % 2 = 0) := by
    intro s atMost different
    rcases Nat.lt_or_ge infinityRank (doublings * binade + m) with past | within
    · rw [Nat.min_eq_left (Nat.le_of_lt past)] at different ⊢
      have less : s < infinityRank := Nat.lt_of_le_of_ne atMost different
      have below := Nat.mul_lt_mul_of_pos_right (units_lt_units less) positive
      have above := Nat.mul_lt_mul_of_pos_right (units_lt_units past) positive
      have side := (found.of_lt positive (Nat.lt_trans less past)).1
      have closer := dist_of_middle_le below
        (Nat.le_trans (Nat.add_le_add_left (Nat.le_of_lt above) _) side)
      exact ⟨closer.1, fun _ => by decide⟩
    · have parity : (doublings * binade + m) % 2 = m % 2 := by
        rw [binade_eq]
        omega
      rw [Nat.min_eq_right within] at different ⊢
      rw [parity]
      rcases Nat.lt_or_gt_of_ne different with less | greater
      · have side := found.of_lt positive less
        have closer := dist_of_middle_le
          (Nat.mul_lt_mul_of_pos_right (units_lt_units less) positive) side.1
        exact ⟨closer.1, fun equal => side.2 (closer.2 equal)⟩
      · have side := found.of_gt greater
        have closer := dist_of_le_middle
          (Nat.mul_lt_mul_of_pos_right (units_lt_units greater) positive) side.1
        exact ⟨closer.1, fun equal => side.2 (closer.2 equal)⟩
  refine ⟨Nat.min_le_left _ _, ?_, fun s atMost different => (sides s atMost different).2⟩
  intro s atMost
  by_cases same : s = min infinityRank (doublings * binade + m)
  · rw [same]
  · exact (sides s atMost same).1

/-- Two even ranks have a third one between them, which would be closer than both. -/
theorem IsNearest.le {r s : Nat} (positive : 0 < denominator)
    (left : IsNearest numerator denominator r) (right : IsNearest numerator denominator s) :
    s ≤ r := by
  by_contra notAtMost
  have less : r < s := Nat.lt_of_not_le notAtMost
  have equal := Nat.le_antisymm (left.closest s right.atMost) (right.closest r left.atMost)
  have leftEven := left.even s right.atMost (Nat.ne_of_gt less) equal.symm
  have rightEven := right.even r left.atMost (Nat.ne_of_lt less) equal
  have next : r + 1 < s := by
    clear equal
    omega
  have above := Nat.mul_lt_mul_of_pos_right (units_lt_units (Nat.lt_succ_self r)) positive
  have below := Nat.mul_lt_mul_of_pos_right (units_lt_units next) positive
  have closest := left.closest (r + 1) (Nat.le_trans (Nat.le_of_lt next) right.atMost)
  exact Nat.not_lt.mpr closest (dist_lt_of_between above below equal)

/-- The rule leaves no choice. -/
theorem isNearest_iff {r : Nat} (positive : 0 < denominator) :
    IsNearest numerator denominator r ↔ r = nearest numerator denominator := by
  have found := isNearest_nearest numerator positive
  constructor
  · intro given
    exact Nat.le_antisymm (found.le positive given) (given.le positive found)
  · rintro rfl
    exact found

end

end SparsePolynomial.Binary64
