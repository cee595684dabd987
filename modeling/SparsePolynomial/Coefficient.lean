/-!
Contract: binary64 coefficients and the tolerance they are compared with.

Owns:
- the tolerance, and with it which coefficients count as zero and which as equal;
- `power`, exponentiation by squaring in a fixed order of multiplications.

Every operation rounds once, so the order in which numbers are combined is part of each result.
A comparison with NaN is false: NaN is never negligible and close to nothing, and an infinity is
not even close to itself.
-/

set_option autoImplicit false

namespace SparsePolynomial.Coefficient

/-- Two coefficients no further apart than this are equal, and one no further from zero is zero. -/
def tolerance : Float := 1e-5

/-- Counts as zero. -/
def Negligible (c : Float) : Prop := c.abs ≤ tolerance

instance (c : Float) : Decidable (Negligible c) := by unfold Negligible; infer_instance

/-- Equal up to the tolerance. -/
def Close (a b : Float) : Prop := Negligible (a - b)

instance (a b : Float) : Decidable (Close a b) := by unfold Close; infer_instance

/-! ## Powers -/

/-- Binary digits of a natural number, the lowest first and the highest one last. -/
def binaryDigits (n : Nat) : List Bool :=
  if n = 0 then [] else (n % 2 == 1) :: binaryDigits (n / 2)
termination_by n

/-- State of exponentiation by squaring: the product so far and the next square of the base. -/
structure Squaring where
  result : Float
  square : Float

/-- Multiplies by the square if the digit is set, and squares for the next digit. -/
def Squaring.step (state : Squaring) (digit : Bool) : Squaring where
  result := if digit then state.result * state.square else state.result
  square := state.square * state.square

/-- `base` to the power `exponent`; anything to the power zero is one. -/
def power (base : Float) (exponent : UInt64) : Float :=
  ((binaryDigits exponent.toNat).foldl Squaring.step ⟨1.0, base⟩).result

@[simp] theorem binaryDigits_zero : binaryDigits 0 = [] := by simp [binaryDigits]

@[simp] theorem power_zero (base : Float) : power base 0 = 1.0 := by simp [power]

end SparsePolynomial.Coefficient
