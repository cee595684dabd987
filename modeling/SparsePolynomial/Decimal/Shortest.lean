import SparsePolynomial.Decimal.Basic

/-!
Contract: the decimal that a finite binary64 magnitude is written with.

A whole number is written exactly, with one zero behind the point. Any other number is written with
the fewest places that read back as the same number; of two such decimals the nearer is taken, and
of two equally near ones the larger.

Does not own: signs, infinities and NaN (`Text.Printer`).
-/

set_option autoImplicit false

namespace SparsePolynomial.Decimal

open Binary64

/-- The exact value of a finite rank that stands for a whole number. -/
def ofWhole (r : Nat) : Decimal := ⟨units r / unitsPerOne * 10, 1⟩

/-- The exact value of any finite rank; every halving of one takes one more place. -/
def exact (r : Nat) : Decimal := ⟨units r * Nat.pow 5 halvings, halvings⟩

/-- The value of a rank lies nearer to `lower`, which is at most it, than to the next decimal of as
many places. -/
def IsNearer (r : Nat) (lower : Decimal) : Prop :=
  2 * (units r * Nat.pow 10 lower.places) < (2 * lower.digits + 1) * unitsPerOne

instance (r : Nat) (lower : Decimal) : Decidable (IsNearer r lower) := by
  unfold IsNearer; infer_instance

/-- The decimal with the given number of places that reads back as the rank, if there is one: only
the two neighbours of the value need to be tried. -/
def withPlaces? (r places : Nat) : Option Decimal :=
  let lower : Decimal := ⟨units r * Nat.pow 10 places / unitsPerOne, places⟩
  let upper : Decimal := ⟨lower.digits + 1, places⟩
  if lower.rank = r then
    if upper.rank = r ∧ ¬ IsNearer r lower then some upper else some lower
  else if upper.rank = r then some upper
  else none

/-- Tries one place count after the other, at most `attempts` of them. -/
def search (r : Nat) : (attempts places : Nat) → Decimal
  | 0, _ => exact r
  | attempts + 1, places => (withPlaces? r places).getD (search r attempts (places + 1))

/-- The decimal that a finite rank is written with. No number needs more places than one has
halvings down to the least positive number. -/
def shortest (r : Nat) : Decimal :=
  if IsWhole r then ofWhole r else search r halvings 1

theorem rank_ofWhole {r : Nat} (atMost : r ≤ infinityRank) (whole : IsWhole r) :
    (ofWhole r).rank = r := by
  have parts : units r / unitsPerOne * unitsPerOne = units r :=
    Nat.div_mul_cancel (Nat.dvd_of_mod_eq_zero whole)
  calc
    (ofWhole r).rank = nearest (units r / unitsPerOne * 10) (1 * 10) := rfl
    _ = nearest (units r / unitsPerOne) 1 := nearest_mul_mul _ _ _ (by decide)
    _ = nearest (units r / unitsPerOne * unitsPerOne) (1 * unitsPerOne) :=
      (nearest_mul_mul _ _ _ unitsPerOne_pos).symm
    _ = nearest (units r) unitsPerOne := by rw [parts, Nat.one_mul]
    _ = r := nearest_units atMost

theorem rank_exact {r : Nat} (atMost : r ≤ infinityRank) : (exact r).rank = r := by
  have power : Nat.pow 10 halvings = unitsPerOne * Nat.pow 5 halvings := Nat.mul_pow 2 5 halvings
  calc
    (exact r).rank = nearest (units r * Nat.pow 5 halvings) (Nat.pow 10 halvings) := rfl
    _ = nearest (units r * Nat.pow 5 halvings) (unitsPerOne * Nat.pow 5 halvings) := by rw [power]
    _ = nearest (units r) unitsPerOne := nearest_mul_mul _ _ _ (Nat.pow_pos (by decide))
    _ = r := nearest_units atMost

theorem rank_of_withPlaces? {r places : Nat} {decimal : Decimal}
    (found : withPlaces? r places = some decimal) : decimal.rank = r := by
  simp only [withPlaces?] at found
  split at found
  · split at found <;> cases found
    · exact And.left ‹_›
    · assumption
  · split at found
    · cases found
      assumption
    · cases found

theorem rank_search {r : Nat} (atMost : r ≤ infinityRank) (attempts places : Nat) :
    (search r attempts places).rank = r := by
  induction attempts generalizing places with
  | zero => exact rank_exact atMost
  | succ attempts inductionHypothesis =>
      rw [search]
      cases found : withPlaces? r places with
      | some decimal => exact rank_of_withPlaces? found
      | none => exact inductionHypothesis (places + 1)

/-- What a finite magnitude is written with reads back as that magnitude. -/
theorem rank_shortest {r : Nat} (atMost : r ≤ infinityRank) : (shortest r).rank = r := by
  unfold shortest
  split
  · exact rank_ofWhole atMost ‹_›
  · exact rank_search atMost _ _

end SparsePolynomial.Decimal
