import SparsePolynomial.Decimal.Shortest
import SparsePolynomial.Polynomial.Basic

/-!
Contract: the text of coefficients, terms and polynomials.

Owns:
- the text of a coefficient, positional and with at least one digit on each side of the point;
- the text of a term, where the power zero is not written;
- the text of a polynomial: no white space, and a `+` only in front of later positive terms, since a
  negative coefficient brings its own sign. Zero has the empty text.

The text of NaN and of infinities is for the reader's eye and cannot be read back.
-/

set_option autoImplicit false

namespace SparsePolynomial.Text

/-- The text of a coefficient. The sign of a zero is written, that of NaN is not. -/
def ofCoefficient (c : Float) : List Char :=
  if Binary64.IsNaN c then ['N', 'a', 'N']
  else
    let magnitude :=
      if Binary64.IsFinite c then (Decimal.shortest (Binary64.rank c)).text else ['i', 'n', 'f']
    if Binary64.IsNegative c then '-' :: magnitude else magnitude

/-- The text of a power of the variable. -/
def ofPower (exponent : UInt64) : List Char :=
  if exponent = 0 then [] else 'x' :: Nat.toDigits 10 exponent.toNat

end SparsePolynomial.Text

namespace SparsePolynomial

open Text

namespace Term

def chars (term : Term) : List Char := ofCoefficient term.coefficient ++ ofPower term.exponent

def text (term : Term) : String := String.ofList term.chars

/-- The text of a term behind another one. -/
def laterChars (term : Term) : List Char :=
  if 0.0 < term.coefficient then '+' :: term.chars else term.chars

end Term

namespace Polynomial

def chars (p : Polynomial) : List Char :=
  match p.terms with
  | [] => []
  | first :: later => first.chars ++ later.flatMap Term.laterChars

def text (p : Polynomial) : String := String.ofList p.chars

end Polynomial

end SparsePolynomial
