/-!
Contract: binary64 magnitudes as consecutive ranks.

Owns:
- the sign of a number and the rank of its magnitude: zero is 0, the least positive number is 1,
  and each later rank is the next larger number, up to infinity;
- the exact size of a finite rank, counted in the least positive number.

Does not own: rounding (`Binary64.Nearest`) and decimal text (`Decimal`).
-/

set_option autoImplicit false

namespace SparsePolynomial.Binary64

/-- The number of ranks between two powers of two. -/
def binade : Nat := Nat.pow 2 52

/-- Rank of infinity; every finite magnitude has a smaller one. -/
def infinityRank : Nat := 2047 * binade

/-- The bit in front of the rank. -/
def signBit : Nat := Nat.pow 2 63

/-- One halved this many times is the least positive number. -/
@[irreducible] def halvings : Nat := 1074

/-- One as a multiple of the least positive number. -/
def unitsPerOne : Nat := Nat.pow 2 halvings

/-- Rank of the magnitude of a number: its bits without the sign. -/
def rank (x : Float) : Nat := x.toBits.toNat % signBit

/-- The sign bit, set also for negative zero. -/
def IsNegative (x : Float) : Prop := signBit ≤ x.toBits.toNat

instance (x : Float) : Decidable (IsNegative x) := by unfold IsNegative; infer_instance

/-- Neither infinite nor NaN. -/
def IsFinite (x : Float) : Prop := rank x < infinityRank

instance (x : Float) : Decidable (IsFinite x) := by unfold IsFinite; infer_instance

/-- The rank of NaN lies past infinity. -/
def IsNaN (x : Float) : Prop := infinityRank < rank x

instance (x : Float) : Decidable (IsNaN x) := by unfold IsNaN; infer_instance

/-- The number that is not negative and has the given rank; ranks past infinity give infinity. -/
def ofRank (r : Nat) : Float := Float.ofBits (UInt64.ofNat (min r infinityRank))

/-- Integer significand of a finite rank, less than two binades. -/
def significand (r : Nat) : Nat := if r < binade then r else binade + r % binade

/-- Power of two that the significand of a rank is multiplied with. -/
def scale (r : Nat) : Nat := r / binade - 1

/-- Size of a finite rank as a multiple of the least positive number. -/
def units (r : Nat) : Nat := significand r * Nat.pow 2 (scale r)

/-- A finite rank stands for a whole number. -/
def IsWhole (r : Nat) : Prop := units r % unitsPerOne = 0

instance (r : Nat) : Decidable (IsWhole r) := by unfold IsWhole; infer_instance

theorem unitsPerOne_pos : 0 < unitsPerOne := Nat.two_pow_pos halvings

theorem ofRank_of_le {r : Nat} (finite : r ≤ infinityRank) :
    ofRank r = Float.ofBits (UInt64.ofNat r) := by
  simp [ofRank, Nat.min_eq_left finite]

end SparsePolynomial.Binary64
