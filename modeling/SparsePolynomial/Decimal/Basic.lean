import SparsePolynomial.Binary64.Nearest

/-!
Contract: finite decimals, their positional text and the binary64 number they stand for.

Owns:
- `Decimal`, a natural number of digits with some of them behind the point;
- writing, with at least one digit before the point;
- reading digits, and the nearest binary64 number.

Does not own: signs, exponent notation (there is none) and the choice of how many digits a number
is written with (`Decimal.Shortest`).
-/

set_option autoImplicit false

namespace SparsePolynomial

/-- The number `digits / 10 ^ places`. -/
structure Decimal where
  digits : Nat
  places : Nat
deriving DecidableEq, Repr

namespace Decimal

/-- The decimal written by the digits before the point and the digits behind it. -/
def ofDigits (whole fraction : List Char) : Decimal where
  digits := Nat.ofDigitChars 10 (whole ++ fraction) 0
  places := fraction.length

/-- Rank of the binary64 magnitude nearest to a decimal. -/
def rank (decimal : Decimal) : Nat := Binary64.nearest decimal.digits (Nat.pow 10 decimal.places)

/-- The binary64 number nearest to a decimal; infinity past the largest finite number. -/
def toFloat (decimal : Decimal) : Float := Binary64.ofRank decimal.rank

/-- Digits before the point. -/
def whole (decimal : Decimal) : List Char :=
  Nat.toDigits 10 (decimal.digits / Nat.pow 10 decimal.places)

/-- Digits behind the point, as many as there are places. -/
def fraction (decimal : Decimal) : List Char :=
  let digits := Nat.toDigits 10 (decimal.digits % Nat.pow 10 decimal.places)
  List.replicate (decimal.places - digits.length) '0' ++ digits

/-- Positional text of a decimal that has places. -/
def text (decimal : Decimal) : List Char := decimal.whole ++ '.' :: decimal.fraction

theorem length_fraction {decimal : Decimal} (hasPlaces : 0 < decimal.places) :
    decimal.fraction.length = decimal.places := by
  have few : (Nat.toDigits 10 (decimal.digits % Nat.pow 10 decimal.places)).length ≤
      decimal.places :=
    (Nat.length_toDigits_le_iff (by decide) hasPlaces).mpr
      (Nat.mod_lt _ (Nat.pow_pos (by decide)))
  simp only [fraction, List.length_append, List.length_replicate]
  omega

theorem isDigit_of_mem_whole {decimal : Decimal} {c : Char} (member : c ∈ decimal.whole) :
    c.isDigit = true :=
  Nat.isDigit_of_mem_toDigits (by decide) (by decide) member

theorem isDigit_of_mem_fraction {decimal : Decimal} {c : Char} (member : c ∈ decimal.fraction) :
    c.isDigit = true := by
  rcases List.mem_append.mp member with padding | digit
  · rw [(List.mem_replicate.mp padding).2]
    rfl
  · exact Nat.isDigit_of_mem_toDigits (by decide) (by decide) digit

theorem whole_ne_nil (decimal : Decimal) : decimal.whole ≠ [] := Nat.toDigits_ne_nil

/-- The digits of the text of a decimal are those of the decimal. -/
theorem ofDigits_whole_fraction {decimal : Decimal} (hasPlaces : 0 < decimal.places) :
    ofDigits decimal.whole decimal.fraction = decimal := by
  have wholeValue : Nat.ofDigitChars 10 decimal.whole 0 =
      decimal.digits / Nat.pow 10 decimal.places := Nat.ofDigitChars_ten_toDigits
  have fractionValue : Nat.ofDigitChars 10 decimal.fraction 0 =
      decimal.digits % Nat.pow 10 decimal.places := by
    rw [fraction, Nat.ofDigitChars_append, Nat.ofDigitChars_replicate_zero, Nat.mul_zero]
    exact Nat.ofDigitChars_ten_toDigits
  have digits : Nat.ofDigitChars 10 (decimal.whole ++ decimal.fraction) 0 = decimal.digits := by
    rw [Nat.ofDigitChars_append, Nat.ofDigitChars_eq_ofDigitChars_zero, wholeValue, fractionValue,
      length_fraction hasPlaces]
    exact Nat.div_add_mod decimal.digits (Nat.pow 10 decimal.places)
  simp only [ofDigits, digits, length_fraction hasPlaces]

end Decimal

end SparsePolynomial
