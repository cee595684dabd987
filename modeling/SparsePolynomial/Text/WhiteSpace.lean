/-!
Contract: white space, and text without the white space around it.

Owns:
- the table of the 25 characters that have the Unicode property `White_Space`;
- `trim`, which takes them off both ends and keeps those between.
-/

set_option autoImplicit false

namespace SparsePolynomial.Text

/-- First and last code points of the ranges with the property `White_Space`. -/
def whiteSpaceRanges : List (Nat × Nat) :=
  [(0x9, 0xD), (0x20, 0x20), (0x85, 0x85), (0xA0, 0xA0), (0x1680, 0x1680), (0x2000, 0x200A),
    (0x2028, 0x2029), (0x202F, 0x202F), (0x205F, 0x205F), (0x3000, 0x3000)]

/-- A character with the property `White_Space`. -/
def IsWhiteSpace (c : Char) : Prop :=
  ∃ range ∈ whiteSpaceRanges, range.1 ≤ c.toNat ∧ c.toNat ≤ range.2

instance (c : Char) : Decidable (IsWhiteSpace c) := by unfold IsWhiteSpace; infer_instance

/-- Without the white space in front. -/
def trimStart (text : List Char) : List Char := text.dropWhile fun c => IsWhiteSpace c

/-- Without the white space at the end. -/
def trimEnd (text : List Char) : List Char := (trimStart text.reverse).reverse

/-- Without the white space at both ends. -/
def trim (text : List Char) : List Char := trimEnd (trimStart text)

end SparsePolynomial.Text
